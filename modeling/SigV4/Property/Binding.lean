import SigV4.Property.Soundness
import SigV4.Spec.Pieces
import Mathlib.Data.Set.Function

/-!
# One signature authorises one request

Two requests that are allowed with the same signature are the same request, up to the
spelling of path and query. The host and the region may hold line feeds, so this does
not come from the lines of a message: it comes from `stringToSign_injective` and
`canonicalRequest_injective`, one after the other, each of them after the hash function
in front of it.

No function with values of 32 bytes is injective on all messages. What is assumed of
the two primitives is that they do not collide on a set that holds the messages of the
two requests.
-/

namespace SigV4

open Outcome Ascii Spec

variable {C : Crypto}

namespace Spec

/-- What a request is allowed for: the signing its signature must come from. -/
def SignedAs (C : Crypto) (settings : Settings) (credentials : List Credential) (r : Request)
    (s : Signing) : Prop :=
  ∃ ps credential f i n, AuthorisedBy C settings credentials r ps credential f i n
    ∧ s = signing C (normalMethod r.method).bytes (uriPath r.rawUri) ps (normalHost r.host).bytes
        credential.secretKey.bytes i.write f

/-- The bytes of the signature of a URI. -/
def signatureBytes (rawUri : Bytes) : Option Bytes := do
  let ps ← pairs (uriQuery rawUri)
  let value ← single .signature ps
  Hex.decode value.bytes

/-- Neither primitive collides on these messages and keyed messages. -/
structure CollisionFree (C : Crypto) (messages : Set Bytes) (keyed : Set (Digest × Bytes)) :
    Prop where
  sha256 : Set.InjOn C.sha256 messages
  hmacSha256 : Set.InjOn (fun k => C.hmacSha256 k.1.val k.2) keyed

/-- The messages of a request are among these. -/
def SignsWithin (C : Crypto) (settings : Settings) (credentials : List Credential) (r : Request)
    (messages : Set Bytes) (keyed : Set (Digest × Bytes)) : Prop :=
  ∀ s, SignedAs C settings credentials r s →
    s.canonicalRequest ∈ messages ∧ (s.key, s.stringToSign) ∈ keyed

/-- Two requests that mean the same: all but the spelling of path and query agrees. -/
structure SameRequest (r₁ r₂ : Request) (ps₁ ps₂ : List Pair) : Prop where
  method : normalMethod r₁.method = normalMethod r₂.method
  canonicalPath : canonicalPath (uriPath r₁.rawUri) = canonicalPath (uriPath r₂.rawUri)
  path : Percent.decode (uriPath r₁.rawUri) = Percent.decode (uriPath r₂.rawUri)
  host : normalHost r₁.host = normalHost r₂.host
  pairs : (signed ps₁).Perm (signed ps₂)

/-- One value each: the same. -/
theorem values_eq_of_signed {ps₁ ps₂ : List Pair} (h : (signed ps₁).Perm (signed ps₂)) {k : Known}
    (hk : k ≠ .signature) {v₁ v₂ : Bytes} (h₁ : values k ps₁ = [v₁]) (h₂ : values k ps₂ = [v₂]) :
    v₁ = v₂ := by
  have hv := values_perm h k
  rw [values_signed hk, values_signed hk, h₁, h₂] at hv
  exact List.singleton_perm_singleton.mp hv

theorem lf_not_mem_method {C : Crypto} {settings : Settings} {credentials : List Credential}
    {st : State} (hst : compileState C settings credentials = ok st) {m : Str}
    (hm : Supported settings m) : lf ∉ m.bytes := by
  have hmem := ((compileState_eq_ok hst).supportedMethods m).mpr hm
  rcases supported_get_or_head hst hmem with h | h
  · rw [h]; decide
  · rw [h]; decide

theorem signatureBytes_eq {settings : Settings} {credentials : List Credential} {r : Request}
    {ps : List Pair} {credential : Credential} {f : ScopeFields} {i : Instant} {n : Nat}
    (h : AuthorisedBy C settings credentials r ps credential f i n) :
    signatureBytes r.rawUri = some (((signing C (normalMethod r.method).bytes (uriPath r.rawUri) ps
      (normalHost r.host).bytes credential.secretKey.bytes i.write f).signature C).val) := by
  obtain ⟨value, hvalue, hsig⟩ := h.signature
  obtain ⟨text, rfl, htext⟩ := accepted_text h.acceptable hvalue
  unfold signatureBytes
  rw [h.pairs, Option.bind_eq_bind, Option.bind_some, htext]
  exact hsig

end Spec

/--
**One signature, one request.** On one verifier or two, under one credential or two: what
is allowed with the same signature is the same request, signed at the same time for the
same scope and expiry.
-/
theorem signature_binds {settings₁ settings₂ : Settings} {credentials₁ credentials₂ : List Credential}
    {v₁ v₁' v₂ v₂' : Verifier} {r₁ r₂ : Request} {result₁ result₂ : VerifyResult} {d : Bytes}
    {messages : Set Bytes} {keyed : Set (Digest × Bytes)}
    (hfree : CollisionFree C messages keyed)
    (hin₁ : SignsWithin C settings₁ credentials₁ r₁ messages keyed)
    (hin₂ : SignsWithin C settings₂ credentials₂ r₂ messages keyed)
    (hv₁ : Running C settings₁ credentials₁ v₁) (hv₂ : Running C settings₂ credentials₂ v₂)
    (h₁ : v₁.verify C r₁.method r₁.rawUri r₁.host r₁.now = ok (result₁, v₁'))
    (h₂ : v₂.verify C r₂.method r₂.rawUri r₂.host r₂.now = ok (result₂, v₂'))
    (hallowed₁ : result₁.allowed = true) (hallowed₂ : result₂.allowed = true)
    (hsig₁ : signatureBytes r₁.rawUri = some d) (hsig₂ : signatureBytes r₂.rawUri = some d) :
    ∃ ps₁ ps₂ credential₁ credential₂ f i n,
      AuthorisedBy C settings₁ credentials₁ r₁ ps₁ credential₁ f i n
        ∧ AuthorisedBy C settings₂ credentials₂ r₂ ps₂ credential₂ f i n
        ∧ SameRequest r₁ r₂ ps₁ ps₂ := by
  obtain ⟨st₁, hst₁, rfl⟩ := running_answer hv₁ h₁
  obtain ⟨st₂, hst₂, rfl⟩ := running_answer hv₂ h₂
  obtain ⟨ps₁, credential₁, f₁, i₁, n₁, ha₁⟩ := authorised_of_allowed hst₁ hallowed₁
  obtain ⟨ps₂, credential₂, f₂, i₂, n₂, ha₂⟩ := authorised_of_allowed hst₂ hallowed₂
  obtain ⟨hmessage₁, hkeyed₁⟩ := hin₁ _ ⟨_, _, _, _, _, ha₁, rfl⟩
  obtain ⟨hmessage₂, hkeyed₂⟩ := hin₂ _ ⟨_, _, _, _, _, ha₂, rfl⟩
  rw [signatureBytes_eq ha₁] at hsig₁
  rw [signatureBytes_eq ha₂] at hsig₂
  have hsig := Subtype.ext (Option.some.inj (hsig₁.trans hsig₂.symm))
  -- one signature: one key and one string to sign
  have hkeyed := hfree.hmacSha256 hkeyed₁ hkeyed₂ hsig
  obtain ⟨_, hmessage⟩ := Prod.mk.inj hkeyed
  -- one string to sign: one date, one scope and one hash
  obtain ⟨hdate, _, hhash⟩ :=
    stringToSign_injective (lf_not_mem_instant i₁) (lf_not_mem_instant i₂) hmessage
  -- one hash: one canonical request
  have hrequest := hfree.sha256 hmessage₁ hmessage₂ hhash
  obtain ⟨hmethod, hpath, hquery, hhost⟩ := canonicalRequest_injective
    (lf_not_mem_method hst₁ ha₁.method) (lf_not_mem_method hst₂ ha₂.method)
    (lf_not_mem_canonicalPath _) (lf_not_mem_canonicalPath _)
    (lf_not_mem_canonicalString _) (lf_not_mem_canonicalString _) hrequest
  have hpairs := canonicalString_injective hquery
  obtain ⟨scope₁, hscope₁, hf₁⟩ := ha₁.scope
  obtain ⟨scope₂, hscope₂, hf₂⟩ := ha₂.scope
  obtain ⟨expires₁, hexpires₁, hn₁⟩ := ha₁.expires
  obtain ⟨expires₂, hexpires₂, hn₂⟩ := ha₂.expires
  obtain rfl := values_eq_of_signed hpairs (by decide) hscope₁ hscope₂
  obtain rfl := values_eq_of_signed hpairs (by decide) hexpires₁ hexpires₂
  obtain rfl := hf₁.unique hf₂
  obtain rfl := hn₁.unique hn₂
  obtain rfl := Instant.write_injective hdate
  have hdecoded : Percent.decode (uriPath r₁.rawUri) = Percent.decode (uriPath r₂.rawUri) := by
    rw [← decode_canonicalPath ha₁.uri.path.wellFormed, hpath,
      decode_canonicalPath ha₂.uri.path.wellFormed]
  exact ⟨ps₁, ps₂, credential₁, credential₂, f₁, i₁, n₁, ha₁, ha₂,
    Str.ext hmethod, hpath, hdecoded, Str.ext hhost, hpairs⟩

/-! ## The sample request in two spellings -/

def sampleFields : ScopeFields :=
  ⟨bytes "AKIATEST", bytes "20260102", bytes "us-east-1", bytes "s3", bytes "aws4_request"⟩

def sampleSigning : Signing :=
  signing sampleCrypto (bytes "GET") (bytes "/bucket/file.jpg") samplePairs
    (bytes "minio.example.com") (bytes "test-secret") (bytes "20260102T030405Z") sampleFields

/-- However its parameters are ordered, the sample is signed as one thing. -/
theorem signedAs_sample {r : Request} {qs : List Pair} (hqs : pairs (uriQuery r.rawUri) = some qs)
    (hperm : qs.Perm samplePairs) (hmethod : (normalMethod r.method).bytes = bytes "GET")
    (hpath : uriPath r.rawUri = bytes "/bucket/file.jpg")
    (hhost : (normalHost r.host).bytes = bytes "minio.example.com") {s : Signing}
    (h : SignedAs sampleCrypto sampleSettings [sampleCredential] r s) : s = sampleSigning := by
  obtain ⟨ps, credential, f, i, n, hauth, rfl⟩ := h
  obtain rfl := Option.some.inj (hqs.symm.trans hauth.pairs)
  obtain rfl := List.mem_singleton.mp hauth.configured
  have hvalue : ∀ k v, values k samplePairs = [v] → values k qs = [v] := by
    intro k v hv
    have := values_perm hperm k
    rw [hv] at this
    exact List.perm_singleton.mp this
  have hdate : i.write = bytes "20260102T030405Z" := by
    have := hauth.date.symm.trans (hvalue .date _ rfl)
    exact (List.cons.inj this).1
  have hfields : f = sampleFields := by
    obtain ⟨value, hscope, hisScope⟩ := hauth.scope
    have := hscope.symm.trans (hvalue .credential _ rfl)
    rw [(List.cons.inj this).1] at hisScope
    refine hisScope.unique ?_
    exact {
      split := by decide
      accessKey_ne := by decide
      date_length := by decide
      date_digits := by decide
      region_ne := by decide
      service_ne := by decide
      terminal_ne := by decide }
  rw [hmethod, hpath, hhost, hdate, hfields]
  unfold sampleSigning signing
  rw [canonicalString_perm hperm]
  rfl

theorem respelled_allowed :
    ∃ result v', sampleVerifier.verify sampleCrypto respelledRequest.method respelledRequest.rawUri
        respelledRequest.host respelledRequest.now = ok (result, v') ∧ result.allowed = true := by
  obtain ⟨v', hverify, _, _⟩ := verify_eq (new_sane sample_new) respelledRequest.method
    respelledRequest.rawUri respelledRequest.host respelledRequest.now
  exact ⟨_, v', hverify, by decide +kernel⟩

theorem signature_binds_sample :
    ∃ ps₁ ps₂, SameRequest sampleRequest respelledRequest ps₁ ps₂ := by
  have hfree : CollisionFree sampleCrypto {sampleSigning.canonicalRequest}
      {(sampleSigning.key, sampleSigning.stringToSign)} :=
    ⟨Set.injOn_singleton _ _, Set.injOn_singleton _ _⟩
  have hin₁ : SignsWithin sampleCrypto sampleSettings [sampleCredential] sampleRequest
      {sampleSigning.canonicalRequest} {(sampleSigning.key, sampleSigning.stringToSign)} := by
    intro s hs
    have hpairs := (accepted_eq_some.mp sample_accepted).1
    obtain rfl := signedAs_sample hpairs (List.Perm.refl _) (by decide) (by decide) (by decide) hs
    exact ⟨rfl, rfl⟩
  have hin₂ : SignsWithin sampleCrypto sampleSettings [sampleCredential] respelledRequest
      {sampleSigning.canonicalRequest} {(sampleSigning.key, sampleSigning.stringToSign)} := by
    intro s hs
    have hpairs := (accepted_eq_some.mp respelled_accepted).1
    obtain rfl := signedAs_sample hpairs (by decide) (by decide) (by decide) (by decide) hs
    exact ⟨rfl, rfl⟩
  obtain ⟨_, _, h₁, hallowed₁⟩ := sample_allowed
  obtain ⟨_, _, h₂, hallowed₂⟩ := respelled_allowed
  obtain ⟨ps₁, ps₂, _, _, _, _, _, _, _, hsame⟩ :=
    signature_binds (d := sampleSignature.val) hfree hin₁ hin₂ sample_running sample_running h₁ h₂
      hallowed₁ hallowed₂ (by rfl) (by rfl)
  exact ⟨ps₁, ps₂, hsame⟩

end SigV4
