import SigV4.Property.Parameters
import SigV4.Spec.Presigner

/-!
# What a signature may be changed to

A request is signed again when only its `X-Amz-Signature` is written otherwise; the parameters
may move and be spelled otherwise with it. No check but the last reads the signature, so once a
request is allowed its other signatures are those that stand for the same bytes: the same digits
in either case.
-/

namespace SigV4

open Outcome Spec

variable {C : Crypto} {settings : Settings} {credentials : List Credential} {v v' : Verifier}
  {r r' : Request} {ps ps' : List Pair} {value value' : Bytes}

/-- `r'` says what `r` says, with another signature. -/
structure Resigned (r r' : Request) (ps ps' : List Pair) (value value' : Bytes) : Prop where
  method : normalMethod r'.method = normalMethod r.method
  host : normalHost r'.host = normalHost r.host
  now : r'.now = r.now
  uri : ValidUri r'.rawUri
  path : uriPath r'.rawUri = uriPath r.rawUri
  reads : r.Reads ps
  reads' : r'.Reads ps'
  signed : (signed ps').Perm (signed ps)
  value : values .signature ps = [value]
  value' : values .signature ps' = [value']

namespace Resigned

theorem sameBut (h : Resigned r r' ps ps' value value') : SameBut .signature r r' ps ps' where
  method := h.method
  host := h.host
  now := h.now
  uri := h.uri
  path := h.path
  reads := h.reads
  reads' := h.reads'
  others := by
    intro k hk x hx
    have hperm := values_perm h.signed k
    rw [values_signed hk, values_signed hk, hx] at hperm
    exact List.perm_singleton.mp hperm

theorem canonicalString (h : Resigned r r' ps ps' value value') :
    canonicalString ps' = canonicalString ps := by
  unfold Spec.canonicalString sortedPairs
  rw [insertionSort_eq_iff.mpr (h.signed.map encodePair)]

/-- **The checks before the signature do not read it.** -/
theorem passes (h : Resigned r r' ps ps' value value') {c : Check} (hc : c ≠ .signature)
    (hp : c.Passes C settings credentials r) : c.Passes C settings credentials r' := by
  by_cases hgiven : c = .signatureGiven
  · rw [hgiven]
    exact ⟨value', h.reads'.gives_iff.mpr h.value'⟩
  · refine h.sameBut.passes ?_ hp
    revert hc hgiven
    cases c <;> decide

end Resigned

theorem Resigned.signing_eq (h : Resigned r r' ps ps' value value') (secret date : Bytes)
    (f : ScopeFields) :
    signing C (normalMethod r'.method).bytes (uriPath r'.rawUri) ps' (normalHost r'.host).bytes
        secret date f
      = signing C (normalMethod r.method).bytes (uriPath r.rawUri) ps (normalHost r.host).bytes
        secret date f := by
  unfold signing
  rw [h.method, h.path, h.host, h.canonicalString]

/-- **The last check**, where it passes for one signature. -/
theorem Resigned.signature_iff {st : State} (hst : CompiledState C settings credentials st)
    (h : Resigned r r' ps ps' value value')
    (hp : Check.Passes C settings credentials r .signature) :
    Check.Passes C settings credentials r' .signature
      ↔ value'.map toAsciiUppercase = value.map toAsciiUppercase := by
  obtain ⟨c, hmem, hnames, qs, f, i, x, hqs, hf, hi, hx, hdecode⟩ := hp
  obtain rfl := h.reads.unique hqs
  obtain rfl := (h.reads.gives_iff.mpr h.value).unique hx
  rw [← Hex.decode_eq_some_iff hdecode]
  refine ⟨?_, ?_⟩
  · rintro ⟨d, hmem', hnames', qs, g, j, y, hqs, hg, hj, hy, hdecode'⟩
    -- it is the same credential, and the same scope, date and signature
    obtain rfl := names_unique hst hmem' hmem hnames'
      (h.sameBut.names Known.noConfusion hnames)
    obtain rfl := h.reads'.unique hqs
    obtain rfl := (h.sameBut.scopes Known.noConfusion hf).unique hg
    obtain rfl := (h.sameBut.dated Known.noConfusion hi).unique hj
    obtain rfl := (h.reads'.gives_iff.mpr h.value').unique hy
    rwa [h.signing_eq] at hdecode'
  · intro hdecode'
    refine ⟨c, hmem, h.sameBut.names Known.noConfusion hnames, ps', f, i, value', h.reads',
      h.sameBut.scopes Known.noConfusion hf, h.sameBut.dated Known.noConfusion hi,
      h.reads'.gives_iff.mpr h.value', ?_⟩
    rw [hdecode', h.signing_eq]

/-- Where every check passed, the only one that may fail is that of the signature. -/
theorem Resigned.denies_signature {st : State} (hst : CompiledState C settings credentials st)
    (h : Resigned r r' ps ps' value value')
    (hall : ∀ c ∈ Check.all, c.Passes C settings credentials r)
    (hne : value'.map toAsciiUppercase ≠ value.map toAsciiUppercase) {result : VerifyResult}
    (hverdict : Verdict C settings credentials r' result) : Denies C r' .signature result := by
  have hfails : ¬Check.Passes C settings credentials r' .signature := fun hp =>
    hne ((h.signature_iff hst (hall .signature (Check.mem_all _))).mp hp)
  cases hverdict with
  | granted hall' _ => exact absurd (hall' .signature (Check.mem_all _)) hfails
  | @denied c hd hdenies =>
      obtain rfl : c = .signature := by
        by_contra hc
        obtain ⟨_, _, _, _, hfail⟩ := hd
        exact hfail (h.passes hc (hall c (Check.mem_all c)))
      exact hdenies

/--
**One signature, up to the case of its digits.** Where a request is allowed and only its signature
is written otherwise, it is still allowed exactly if the new text has the same hexadecimal digits
in either case: of all texts that may stand for `X-Amz-Signature`, no other is accepted.
-/
theorem signature_malleable (hrun : Running C settings credentials v)
    (h : Resigned r r' ps ps' value value') {result : VerifyResult}
    (hverify : v.verify C r.method r.rawUri r.host r.now = ok (result, v'))
    (hallowed : result.allowed = true) :
    ∃ result' w, v.verify C r'.method r'.rawUri r'.host r'.now = ok (result', w)
      ∧ (result'.allowed = true ↔ value'.map toAsciiUppercase = value.map toAsciiUppercase) := by
  obtain ⟨_, v₀, hnew, _⟩ := running_inv hrun
  have hst := compileState_eq_ok (new_eq_ok.mp hnew)
  obtain ⟨_, _, hverify₁, hverdict⟩ := exists_verdict hrun r
  obtain ⟨rfl, _⟩ := Prod.mk.inj (Outcome.ok.inj (hverify.symm.trans hverify₁))
  obtain ⟨result', w, hverify', hverdict'⟩ := exists_verdict hrun r'
  have hall := hverdict.allowed_iff.mp hallowed
  refine ⟨result', w, hverify', ?_⟩
  rw [hverdict'.allowed_iff, ← h.signature_iff hst (hall .signature (Check.mem_all _))]
  refine ⟨fun hall' => hall' .signature (Check.mem_all _), fun hsig c hc => ?_⟩
  by_cases hne : c = .signature
  · rwa [hne]
  · exact h.passes hne (hall c hc)

/-- The sample request, its signature in upper case. -/
def shoutedPairs : List Pair :=
  samplePairs.dropLast
    ++ [(Known.signature.name, (Hex.encode sampleSignature.val).map toAsciiUppercase)]

def shoutedRequest : Request :=
  { sampleRequest with rawUri := writeUri (bytes "/bucket/file.jpg") shoutedPairs }

theorem resigned_sample : Resigned sampleRequest shoutedRequest samplePairs shoutedPairs
    (Hex.encode sampleSignature.val) ((Hex.encode sampleSignature.val).map toAsciiUppercase) := by
  obtain ⟨huri, hpath, hreads⟩ := rewritten_sample shoutedPairs (by decide)
  exact {
    method := rfl
    host := rfl
    now := rfl
    uri := huri
    path := hpath
    reads := accepted_eq_some.mp sample_accepted
    reads' := hreads
    signed := .of_eq rfl
    value := rfl
    value' := rfl }

theorem signature_malleable_sample :
    ∃ result' w, sampleVerifier.verify sampleCrypto shoutedRequest.method shoutedRequest.rawUri
        shoutedRequest.host shoutedRequest.now = ok (result', w)
      ∧ (result'.allowed = true
        ↔ ((Hex.encode sampleSignature.val).map toAsciiUppercase).map toAsciiUppercase
          = (Hex.encode sampleSignature.val).map toAsciiUppercase) := by
  obtain ⟨result, v', hverify, hallowed⟩ := sample_allowed
  exact signature_malleable sample_running resigned_sample hverify hallowed

end SigV4
