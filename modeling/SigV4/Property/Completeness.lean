import SigV4.Property.Spelling
import SigV4.Spec.Presigner

/-!
# `verify` accepts what a presigner emits

The whole round trip: what a presigner signs, encodes and joins in any order is split,
decoded, sorted and encoded again, and the signature comes out the same. The window is
the one with the clock skew the verifier computes with: whole seconds, and never more
than `2^63 - 1` of them (`skewSeconds`). With the seconds of the setting itself the
statement fails, on settings that allow more (`skew_saturates`).
-/

namespace SigV4

open Outcome Ascii Spec

variable {C : Crypto}

/--
What may be presigned with a credential, and when it may be sent: `skew` seconds before
its date at the earliest, and until its expiry.
-/
structure Presignable (settings : Settings) (credentials : List Credential) (skew : Int)
    (p : Presign) (c : Credential) (parsed : ParsedAmzDate) (now : SystemTime) : Prop where
  configured : c ∈ credentials
  enabled : c.enabled = true
  accessKey : slash ∉ c.accessKey.trim.bytes
  method : Supported settings (normalMethod p.method)
  host : (normalHost p.host).bytes ≠ []
  path : splitOriginalUri p.path = ok (p.path, [])
  noQuery : question ∉ p.path
  policy : Allows c (normalMethod p.method) (normalHost p.host) p.path
  region_ne : p.region.bytes ≠ []
  region : slash ∉ p.region.bytes
  date : parseAmzDate p.amzDate = ok parsed
  expires_pos : 1 ≤ p.expires
  expires_le : (maxExpires settings c).lt (.fromSecs p.expires) = false
  extras_named : ∀ q ∈ p.extras, q.1 ≠ []
  extras_other : ∀ q ∈ p.extras, isKnown q.1 = false
  wholeSecond : now.nanos = 0
  notBefore : parsed.epochSeconds - skew ≤ now.secs
  notAfter : now.secs ≤ parsed.epochSeconds + p.expires.toNat

/-- No expiry below a cap of seven days is above seven days. -/
theorem expires_le_max {d : Duration} {n : UInt64} (hd : maxSigv4Expires.lt d = false)
    (hn : d.lt (.fromSecs n) = false) : n.toNat ≤ 604800 := by
  have hmax : maxSigv4Expires = ⟨604800, 0, by decide⟩ := rfl
  rw [hmax] at hd
  unfold Duration.lt Duration.fromSecs at *
  simp only [Bool.or_eq_false_iff, decide_eq_false_iff_not, UInt64.not_lt] at hd hn
  have h1 := UInt64.le_iff_toNat_le.mp hd.1
  have h2 := UInt64.le_iff_toNat_le.mp hn.1
  have h3 : (604800 : UInt64).toNat = 604800 := rfl
  omega

/-- The values a presigner sends are text. -/
theorem acceptable_signedPairs {p : Presign} {c : Credential} {i : Instant}
    (hwrite : p.amzDate.bytes = i.write) (hnamed : ∀ q ∈ p.extras, q.1 ≠ [])
    (hother : ∀ q ∈ p.extras, isKnown q.1 = false) : Acceptable (p.signedPairs C c) := by
  have hslash : Utf8.Valid [slash] := rfl
  have hcredential : Utf8.Valid ((p.fields c).accessKey ++ slash :: (p.fields c).scope) := by
    have hdate : Utf8.Valid (p.fields c).date := by
      show Utf8.Valid (p.amzDate.bytes.take 8)
      rw [hwrite]
      exact i.dateText.valid
    have htail : Utf8.Valid (bytes "s3" ++ ([slash] ++ bytes "aws4_request")) :=
      Utf8.valid_append (valid_bytes _) (Utf8.valid_append hslash (valid_bytes _))
    exact Utf8.valid_append c.accessKey.trim.valid (Utf8.valid_append hslash
      (Utf8.valid_append hdate (Utf8.valid_append hslash
        (Utf8.valid_append p.region.valid (Utf8.valid_append hslash htail)))))
  have hexpires : Utf8.Valid (Decimal.write p.expires.toNat) :=
    Utf8.valid_of_ascii (Decimal.digits_ascii (Decimal.write_digits _))
  have hsig : Utf8.Valid (Hex.encode (p.signature C c).val) :=
    Utf8.valid_of_ascii (Hex.encode_ascii _)
  have hknown : ∀ (k : Known) (v : Bytes), Utf8.Valid v →
      (k.name, v).1 ≠ [] ∧ (isKnown (k.name, v).1 = true → Utf8.Valid (k.name, v).2) :=
    fun k _ hv => ⟨k.name_ne_nil, fun _ => hv⟩
  intro q hq
  unfold Presign.signedPairs Presign.parameters at hq
  simp only [List.mem_cons] at hq
  rcases hq with rfl | rfl | rfl | rfl | rfl | rfl | hq
  · exact hknown .signature _ hsig
  · exact hknown .algorithm _ (valid_bytes _)
  · exact hknown .credential _ hcredential
  · exact hknown .date _ p.amzDate.valid
  · exact hknown .expires _ hexpires
  · exact hknown .signedHeaders _ (valid_bytes _)
  · refine ⟨hnamed q hq, fun hk => ?_⟩
    rw [hother q hq] at hk
    exact absurd hk (by simp)

/-- **What is presigned is authorised.** -/
theorem authorisedBy_of_presigned {settings : Settings} {credentials : List Credential} {v : Verifier}
    (hnew : Verifier.new C settings credentials = ok v) {p : Presign} {c : Credential}
    {parsed : ParsedAmzDate} {now : SystemTime}
    (h : Presignable settings credentials (skewSeconds settings) p c parsed now) {ps : List Pair}
    (hps : ps.Perm (p.signedPairs C c)) :
    ∃ i, AuthorisedBy C settings credentials ⟨p.method, writeUri p.path ps, p.host, now⟩ ps c
      (p.fields c) i p.expires.toNat := by
  have hstate := compileState_eq_ok (new_eq_ok.mp hnew)
  obtain ⟨cred, hcompile⟩ := hstate.installed.compiles c h.configured
  have hcred := compileCredential_eq_ok hcompile
  obtain ⟨huri, _, _⟩ := splitOriginalUri_eq_ok.mp h.path
  obtain ⟨i, hwrite, hparsed⟩ := parseAmzDate_eq_ok.mp h.date
  have hdate : (p.fields c).date = i.date := by
    show p.amzDate.bytes.take 8 = i.date
    rw [hwrite]
    rfl
  have hacc : Acceptable ps := by
    intro q hq
    exact acceptable_signedPairs hwrite h.extras_named h.extras_other q (hps.mem_iff.mp hq)
  have hvalues : ∀ k v, values k (p.signedPairs C c) = [v] → values k ps = [v] := by
    intro k v hv
    have := values_perm hps k
    rw [hv] at this
    exact List.perm_singleton.mp this
  have hsent := values_signedPairs (C := C) (p := p) (c := c) h.extras_other
  have hisScope : IsScope ((p.fields c).accessKey ++ slash :: (p.fields c).scope) (p.fields c) := by
    refine isScope_of_fields h.accessKey ?_ ?_ ?_ h.region h.region_ne rfl rfl
    · show c.accessKey.trim.bytes ≠ []
      rw [← hcred.accessKey]
      exact hcred.accessKey_ne
    · rw [hdate]; exact i.date_length
    · rw [hdate]; exact i.date_digits
  have hepoch : parsed.epochSeconds = i.epochSeconds := by rw [hparsed]
  have hseconds : wholeSeconds now = max now.secs (-i64.hi) := if_pos (Or.inr h.wholeSecond)
  have hhi : i64.hi = 9223372036854775807 := rfl
  have hbounds := epochSeconds_bounds i
  have hnotBefore := h.notBefore
  have hnotAfter := h.notAfter
  have hpos := UInt64.le_iff_toNat_le.mp h.expires_pos
  refine ⟨i, ?_⟩
  exact {
    method := h.method
    host := h.host
    uri := validUri_writeUri huri h.noQuery ps
    pairs := by
      show pairs (uriQuery (writeUri p.path ps)) = some ps
      rw [uriQuery_writeUri h.noQuery, pairs_writeQuery]
    acceptable := hacc
    once := fun k => by rw [hvalues k _ (hsent k)]; rfl
    algorithm := hvalues .algorithm _ (hsent .algorithm)
    signedHeaders := hvalues .signedHeaders _ (hsent .signedHeaders)
    scope := ⟨_, hvalues .credential _ (hsent .credential), hisScope⟩
    service := rfl
    terminal := rfl
    date := by rw [hvalues .date _ (hsent .date), hwrite]
    day := hdate.symm
    expires := by
      refine ⟨_, hvalues .expires _ (hsent .expires), Decimal.write p.expires.toNat, Or.inl rfl, ?_⟩
      exact ⟨Decimal.write_ne_nil _, Decimal.write_digits _, Decimal.number_write _⟩
    expires_pos := hpos
    expires_le := by
      refine expires_le_max hcred.maxExpires_le ?_
      rw [hcred.maxExpires]
      exact h.expires_le
    configured := h.configured
    accessKey := rfl
    enabled := h.enabled
    policy := by
      rw [uriPath_writeUri h.noQuery]
      exact h.policy
    maxExpires := by
      rw [UInt64.ofNat_toNat]
      exact h.expires_le
    notFuture := by
      dsimp only
      omega
    notExpired := by
      dsimp only
      omega
    signature := by
      refine ⟨_, hvalues .signature _ (hsent .signature), ?_⟩
      dsimp only
      rw [Hex.decode_encode, uriPath_writeUri h.noQuery]
      unfold Presign.signature signing
      rw [canonicalString_perm hps, canonicalString_signedPairs, hwrite] }

/--
**`verify` is complete.** What a presigner emits, its parameters in any order, is allowed
from `skewSeconds` before its date until its expiry, under its own path and access key.
-/
theorem verify_complete {settings : Settings} {credentials : List Credential} {v : Verifier}
    (hnew : Verifier.new C settings credentials = ok v) {p : Presign} {c : Credential}
    {parsed : ParsedAmzDate} {now : SystemTime}
    (h : Presignable settings credentials (skewSeconds settings) p c parsed now) {ps : List Pair}
    (hps : ps.Perm (p.signedPairs C c)) :
    ∃ v', v.verify C p.method (writeUri p.path ps) p.host now
      = ok ({ allowed := true, reason := .ok, path := p.path, accessKey := some c.accessKey.trim,
              accessKeyHash := Spec.accessKeyHash C c.accessKey.trim }, v') := by
  obtain ⟨i, hauth⟩ := authorisedBy_of_presigned hnew h hps
  have hanswer := answer_of_authorisedBy (new_eq_ok.mp hnew) hauth
  obtain ⟨v', hverify, _, _⟩ := verify_eq (new_sane hnew) p.method (writeUri p.path ps) p.host now
  dsimp only at hanswer
  rw [hanswer, uriPath_writeUri h.noQuery] at hverify
  exact ⟨v', hverify⟩

/-! ## The sample request, presigned -/

def samplePresign : Presign where
  method := .lit "get"
  path := bytes "/bucket/file.jpg"
  host := .lit "MinIO.example.com"
  region := .lit "us-east-1"
  amzDate := .lit "20260102T030405Z"
  expires := 300
  extras := []

theorem samplePresign_presignable {settings : Settings} {skew : Int} {now : SystemTime}
    (hmethods : settings.supportedMethods = []) (hnow : now.nanos = 0)
    (h₁ : 1767323045 - skew ≤ now.secs) (h₂ : now.secs ≤ 1767323345) :
    Presignable settings [sampleCredential] skew samplePresign sampleCredential
      ⟨.lit "20260102", 1767323045⟩ now where
  configured := List.mem_singleton.mpr rfl
  enabled := rfl
  accessKey := by decide
  method := by
    unfold Supported
    rw [if_pos hmethods]
    exact Or.inl (Str.ext (by decide))
  host := by decide
  path := by rfl
  noQuery := by decide
  policy := by
    refine ⟨Or.inr ⟨.lit "GET", by simp [sampleCredential], Str.ext (by decide)⟩,
      Or.inr ⟨.lit "minio.example.com", by simp [sampleCredential], Str.ext (by decide)⟩,
      Or.inr ⟨bytes "/bucket/", by simp [sampleCredential], by decide, bytes "file.jpg", rfl, ?_⟩⟩
    exact Or.inr (Or.inl rfl)
  region_ne := by decide
  region := by decide
  date := by rfl
  expires_pos := by decide
  expires_le := rfl
  extras_named := fun q hq => absurd hq List.not_mem_nil
  extras_other := fun q hq => absurd hq List.not_mem_nil
  wholeSecond := hnow
  notBefore := h₁
  notAfter := h₂

/-- Settings that allow a clock skew of this many seconds. -/
def skewedSettings (secs : UInt64) : Settings :=
  { sampleSettings with allowedClockSkew := .fromSecs secs, supportedMethods := [] }

theorem verify_complete_sample :
    ∃ v', (sampleVerifierOf (skewedSettings 60)).verify sampleCrypto (.lit "get")
        (writeUri (bytes "/bucket/file.jpg")
          (samplePresign.signedPairs sampleCrypto sampleCredential).reverse)
        (.lit "MinIO.example.com") ⟨1767322985, 0, by decide, by decide⟩
      = ok ({ allowed := true, reason := .ok, path := bytes "/bucket/file.jpg",
              accessKey := some (Str.lit "AKIATEST").trim,
              accessKeyHash := Spec.accessKeyHash sampleCrypto (Str.lit "AKIATEST").trim }, v') :=
  verify_complete (sampleVerifierOf_new (by rfl))
    (samplePresign_presignable rfl rfl (by decide) (by decide)) (List.reverse_perm _)

/--
**The skew saturates.** With the seconds of the setting in place of `skewSeconds` the
statement fails: a setting of `2^64 - 1` seconds counts as `2^63 - 1`.
-/
theorem skew_saturates :
    ¬∀ (C : Crypto) (settings : Settings) (credentials : List Credential) (v : Verifier),
      Verifier.new C settings credentials = ok v →
      ∀ (p : Presign) (c : Credential) (parsed : ParsedAmzDate) (now : SystemTime),
        Presignable settings credentials settings.allowedClockSkew.secs.toNat p c parsed now →
        ∀ ps, ps.Perm (p.signedPairs C c) →
          ∃ result v', v.verify C p.method (writeUri p.path ps) p.host now = ok (result, v')
            ∧ result.allowed = true := by
  intro h
  have hnew : Verifier.new sampleCrypto (skewedSettings 18446744073709551615) [sampleCredential]
      = ok (sampleVerifierOf (skewedSettings 18446744073709551615)) :=
    sampleVerifierOf_new (by rfl)
  let now : SystemTime := ⟨-9223372036854775807, 0, by decide, by decide⟩
  have hpresignable : Presignable (skewedSettings 18446744073709551615) [sampleCredential]
      (18446744073709551615 : UInt64).toNat samplePresign sampleCredential
      ⟨.lit "20260102", 1767323045⟩ now :=
    samplePresign_presignable rfl rfl (by decide) (by decide)
  obtain ⟨result, v', hverify, hallowed⟩ :=
    h _ _ _ _ hnew _ _ _ _ hpresignable _ (List.Perm.refl _)
  obtain ⟨w, hw, _, _⟩ := verify_eq (new_sane hnew) samplePresign.method (writeUri samplePresign.path
    (samplePresign.signedPairs sampleCrypto sampleCredential)) samplePresign.host now
  have hanswer : (answer sampleCrypto
      (sampleVerifierOf (skewedSettings 18446744073709551615)).state samplePresign.method
      (writeUri samplePresign.path (samplePresign.signedPairs sampleCrypto sampleCredential))
      samplePresign.host now).allowed = false := by decide +kernel
  rw [hw] at hverify
  obtain ⟨hresult, _⟩ := Prod.mk.inj (Outcome.ok.inj hverify)
  rw [hresult, hallowed] at hanswer
  exact absurd hanswer (by simp)

end SigV4
