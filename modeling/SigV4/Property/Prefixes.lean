import SigV4.Property.Directive
import SigV4.Spec.Spelling

/-!
# Prefixes and spellings

A signature is about the canonical path, the prefix policy about the raw one. Between two
spellings of a path nothing but the spelling of the prefix can make a difference: what
follows it is not compared, and its boundary is a `/`, which has one spelling. So the policy
sees canonical paths exactly when the configured prefixes come in all of their spellings.
-/

namespace SigV4

open Outcome Ascii Percent Spec

namespace Spec

/-! ## Extending a prefix -/

theorem Extends.refl (p : Bytes) : Extends p p := ⟨[], (List.append_nil p).symm, Or.inl rfl⟩

theorem Extends.trans {p q r : Bytes} (hpq : Extends p q) (hqr : Extends q r) : Extends p r := by
  obtain ⟨s, rfl, hs⟩ := hpq
  obtain ⟨t, rfl, ht⟩ := hqr
  refine ⟨t ++ s, List.append_assoc .., ?_⟩
  rcases ht with rfl | hlast | hhead
  · -- nothing is added to the inner prefix, so its boundary is the outer one's
    rw [List.append_nil] at hs
    rwa [List.nil_append]
  · exact Or.inr (Or.inl hlast)
  · refine Or.inr (Or.inr ?_)
    cases t with
    | nil => exact absurd hhead (by simp)
    | cons c t => exact hhead

/-! ## Extending a respelled prefix -/

/-- Tokens that are signed as those of a text that ends with `/` end with `/`. -/
theorem getLast?_unscan {q : Bytes} {ts : List Token} (hq : WellFormed q)
    (hlast : q.getLast? = some slash) (h : ts.map signedToken = (scan q).map signedToken) :
    (unscan ts).getLast? = some slash := by
  obtain ⟨a, rfl⟩ := List.getLast?_eq_some_iff.mp hlast
  rw [scan_append_slash hq, List.map_append] at h
  obtain ⟨us, vs, rfl, _, hvs⟩ := List.map_eq_append_iff.mp h
  obtain ⟨v, vs, rfl, hv, hnil⟩ := List.map_eq_cons_iff.mp hvs
  obtain rfl := List.map_eq_nil_iff.mp hnil
  obtain rfl := slash_of_signedToken hv rfl
  simp [unscan, Token.raw]

/-- Tokens that are signed as those of a text that starts with `/` start with `/`. -/
theorem head?_unscan {s : Bytes} {ts : List Token} (hhead : s.head? = some slash)
    (h : ts.map signedToken = (scan s).map signedToken) : (unscan ts).head? = some slash := by
  obtain ⟨s, rfl⟩ := List.head?_eq_some_iff.mp hhead
  rw [scan_ne slash_ne_percent] at h
  obtain ⟨t, ts, rfl, ht, _⟩ := List.map_eq_cons_iff.mp h
  obtain rfl := slash_of_signedToken ht rfl
  rfl

/-- **A respelled path extends a respelled prefix.** -/
theorem Extends.respell {p p' q : Bytes} (h : Extends p q) (hq : WellFormed q)
    (hp' : ∀ t ∈ scan p', pathToken t = true) (hsame : canonicalPath p' = canonicalPath p) :
    ∃ q' ∈ spellings q, Extends p' q' := by
  obtain ⟨s, rfl, hs⟩ := h
  rw [canonicalPath_eq_iff, scan_append _ hq, List.map_append] at hsame
  obtain ⟨ts, us, hscan, hts, hus⟩ := List.map_eq_append_iff.mp hsame
  have hmem : ∀ t ∈ ts, t.Hex ∧ t.wf = true := by
    intro t ht
    have htp : t ∈ scan p' := hscan ▸ List.mem_append_left _ ht
    exact ⟨scan_hex p' t htp, wf_of_pathToken (hp' t htp)⟩
  have hread : scan (unscan ts) = ts := scan_unscan hmem
  refine ⟨unscan ts, mem_spellings.mpr ⟨?_, ?_⟩, unscan us, ?_, ?_⟩
  · intro t ht
    rw [hread] at ht
    exact hp' t (hscan ▸ List.mem_append_left _ ht)
  · rw [canonicalPath_eq_iff, hread, hts]
  · rw [← unscan_scan p', hscan]
    exact List.flatMap_append
  · rcases hs with rfl | hlast | hhead
    · obtain rfl := List.map_eq_nil_iff.mp hus
      exact Or.inl rfl
    · exact Or.inr (Or.inl (getLast?_unscan hq hlast hts))
    · exact Or.inr (Or.inr (head?_unscan hhead hus))

end Spec

/-! ## The policy -/

/-- The policy answers alike for paths that one signature covers. -/
def AgreesWithSignature (c : CompiledCredential) : Prop :=
  ∀ p p', validateRawPath p = ok () → validateRawPath p' = ok () →
    canonicalUriFromValidPath (ε := UriError) p = canonicalUriFromValidPath p' →
    c.pathAllowed p = c.pathAllowed p'

/-- Each spelling of a prefix that is not empty extends a prefix that is not empty. -/
def CoversSpellings (prefixes : List Bytes) : Prop :=
  ∀ q ∈ prefixes, q ≠ [] → ∀ s ∈ spellings q, ∃ q' ∈ prefixes, q' ≠ [] ∧ Extends s q'

section

variable {C : Crypto} {d : Duration} {credential : Credential} {c : CompiledCredential}

theorem pathAllowed_respell (h : Compiled C d credential c)
    (hcovers : CoversSpellings credential.allowedPrefixes) {p p' : Bytes} (hp' : ValidPath p')
    (hsame : canonicalPath p' = canonicalPath p) (hallowed : c.pathAllowed p = true) :
    c.pathAllowed p' = true := by
  refine pathAllowed_iff.mpr ?_
  rcases pathAllowed_iff.mp hallowed with hnil | ⟨q, hq, hext⟩
  · exact Or.inl hnil
  · obtain ⟨q', hspelling, hext'⟩ :=
      hext.respell (h.validPrefixes q hq).wellFormed hp'.tokens hsame
    obtain ⟨hne, hconf⟩ := (h.allowedPrefixes q).mp hq
    obtain ⟨q'', hconf', hne', hext''⟩ := hcovers q hconf hne q' hspelling
    exact Or.inr ⟨q'', (h.allowedPrefixes q'').mpr ⟨hne', hconf'⟩, hext'.trans hext''⟩

theorem agreesWithSignature_iff (h : Compiled C d credential c) :
    AgreesWithSignature c ↔ CoversSpellings credential.allowedPrefixes := by
  refine ⟨?_, ?_⟩
  · intro hagrees q hq hne s hs
    have hin := (h.allowedPrefixes q).mpr ⟨hne, hq⟩
    have hvalid := h.validPrefixes q hin
    obtain ⟨htokens, hsame⟩ := mem_spellings.mp hs
    have hs' : ValidPath s := hvalid.respell htokens (canonicalPath_eq_iff.mp hsame)
    -- the prefix admits itself, so its spelling is admitted
    have hself : c.pathAllowed q = true := pathAllowed_iff.mpr (Or.inr ⟨q, hin, Extends.refl q⟩)
    have hspelling := hagrees q s (validateRawPath_eq_ok.mpr hvalid)
      (validateRawPath_eq_ok.mpr hs') (by
        rw [canonicalUriFromValidPath_eq, canonicalUriFromValidPath_eq, hsame])
    rw [hself] at hspelling
    rcases pathAllowed_iff.mp hspelling.symm with hnil | ⟨q', hq', hext⟩
    · rw [hnil] at hin
      exact absurd hin List.not_mem_nil
    · obtain ⟨hne', hconf⟩ := (h.allowedPrefixes q').mp hq'
      exact ⟨q', hconf, hne', hext⟩
  · intro hcovers p p' hp hp' hsame
    rw [canonicalUriFromValidPath_eq, canonicalUriFromValidPath_eq, Outcome.ok.injEq] at hsame
    rw [Bool.eq_iff_iff]
    refine ⟨?_, ?_⟩
    · exact pathAllowed_respell h hcovers (validateRawPath_eq_ok.mp hp') hsame.symm
    · exact pathAllowed_respell h hcovers (validateRawPath_eq_ok.mp hp) hsame

end

/--
**When the prefix policy sees the canonical path.** For every credential that is accepted: its
prefixes answer alike for every two valid paths of one canonical form exactly when each
spelling of each of its prefixes extends one of them at a segment boundary.
-/
theorem prefixes_agree_iff {C : Crypto} {settings : Settings} {credentials : List Credential}
    {v : Verifier} (hnew : Verifier.new C settings credentials = ok v) {credential : Credential}
    (hmem : credential ∈ credentials) :
    ∃ c, v.state.credentials.lookup credential.accessKey.trim = some c
      ∧ (AgreesWithSignature c ↔ CoversSpellings credential.allowedPrefixes) := by
  obtain ⟨c, hlookup, hc⟩ := compiled_of_mem hnew hmem
  exact ⟨c, hlookup, agreesWithSignature_iff hc⟩

theorem prefixes_agree_iff_sample :
    ∃ c, sampleVerifier.state.credentials.lookup sampleCredential.accessKey.trim = some c
      ∧ (AgreesWithSignature c ↔ CoversSpellings sampleCredential.allowedPrefixes) :=
  prefixes_agree_iff sample_new (List.mem_singleton.mpr rfl)

/-- The sample credential, with a prefix that holds a `+`. -/
def plusCredential : Credential := { sampleCredential with allowedPrefixes := [bytes "/a+b/"] }

/-- A prefix that admits one spelling of a path and refuses another. -/
theorem prefix_sees_spelling :
    ∃ v c, Verifier.new sampleCrypto sampleSettings [plusCredential] = ok v
      ∧ v.state.credentials.lookup plusCredential.accessKey.trim = some c
      ∧ c.pathAllowed (bytes "/a+b/x") = true ∧ c.pathAllowed (bytes "/a%2Bb/x") = false
      ∧ ¬AgreesWithSignature c := by
  have hok : (Verifier.new sampleCrypto sampleSettings [plusCredential]).isOk = true := by
    rfl
  obtain ⟨v, hv⟩ := isOk_iff.mp hok
  obtain ⟨c, hlookup, hc⟩ := compiled_of_mem hv (List.mem_singleton.mpr rfl)
  have hprefixes : ∀ x, x ∈ c.allowedPrefixes ↔ x = bytes "/a+b/" := by
    intro x
    rw [hc.allowedPrefixes x]
    refine ⟨fun h => List.mem_singleton.mp h.2, ?_⟩
    rintro rfl
    exact ⟨by decide, List.mem_singleton.mpr rfl⟩
  have hplus : c.pathAllowed (bytes "/a+b/x") = true :=
    pathAllowed_iff.mpr (Or.inr ⟨_, (hprefixes _).mpr rfl, bytes "x", rfl, Or.inr (Or.inl rfl)⟩)
  have hescape : c.pathAllowed (bytes "/a%2Bb/x") = false := by
    rw [Bool.eq_false_iff]
    intro hallowed
    rcases pathAllowed_iff.mp hallowed with hnil | ⟨q, hq, hext⟩
    · have hin := (hprefixes _).mpr rfl
      rw [hnil] at hin
      exact absurd hin List.not_mem_nil
    · rw [(hprefixes q).mp hq, ← pathMatchesPrefix_iff] at hext
      exact absurd hext (by decide)
  refine ⟨v, c, hv, hlookup, hplus, hescape, fun hagrees => ?_⟩
  have hsame := hagrees (bytes "/a+b/x") (bytes "/a%2Bb/x") (by rfl) (by rfl) (by rfl)
  rw [hplus, hescape] at hsame
  exact Bool.noConfusion hsame

end SigV4
