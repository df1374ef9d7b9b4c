import SigV4.Proof.Path

/-!
# The path that is signed

`is_canonical_path` decides when the rewriting loop may be skipped. It says yes exactly
when the loop would change nothing, so whether a path is borrowed or rewritten cannot be
seen. What comes out is a normal form: canonical text, which is its own canonical form,
and which names what the path names.
-/

namespace SigV4

open Outcome Ascii Percent Spec

/-- A signed token stays as it is. -/
theorem isCanonicalToken_signedToken {t : Token} (h : t.Hex) :
    isCanonicalToken (signedToken t) = true := by
  have hdigit : ∀ n : UInt8, n < 16 → hexDigit n = toAsciiUppercase (hexDigit n) :=
    forall_lt_sixteen (by decide)
  have hupper : ∀ c : UInt8, isAsciiHexdigit c = true →
      toAsciiUppercase c = toAsciiUppercase (toAsciiUppercase c) := by
    intro c hc
    rw [← hexDigit_hexVal c hc]
    exact hdigit _ (hexVal_lt c hc)
  cases t with
  | lit c =>
      rw [signedToken_lit]
      by_cases hc : c = slash ∨ unreserved c = true
      · rw [if_pos hc]
        simpa [isCanonicalToken] using hc
      · rw [if_neg hc]
        simp only [isCanonicalToken, upperHex_eq, Bool.and_eq_true, beq_iff_eq]
        exact ⟨hdigit _ (shift_lt c), hdigit _ (mask_lt c)⟩
  | esc a b =>
      simp only [signedToken, isCanonicalToken, upperHex_eq, Bool.and_eq_true, beq_iff_eq]
      exact ⟨hupper a h.1, hupper b h.2⟩

/-- **A path is canonical** when it is its own canonical path. -/
theorem canonicalPath_eq_self_iff {p : Bytes} :
    canonicalPath p = p ↔ (scan p).all isCanonicalToken = true := by
  refine ⟨?_, ?_⟩
  · intro h
    have hscan := scan_canonicalPath p
    rw [h] at hscan
    rw [hscan]
    refine List.all_eq_true.mpr fun t ht => ?_
    obtain ⟨u, hu, rfl⟩ := List.mem_map.mp ht
    exact isCanonicalToken_signedToken (scan_hex p u hu)
  · exact canonicalPath_eq_self

/-- **Canonicalising twice is canonicalising once.** -/
theorem canonicalPath_idempotent (p : Bytes) :
    canonicalPath (canonicalPath p) = canonicalPath p := by
  rw [canonicalPath_eq_self_iff, scan_canonicalPath]
  refine List.all_eq_true.mpr fun t ht => ?_
  obtain ⟨u, hu, rfl⟩ := List.mem_map.mp ht
  exact isCanonicalToken_signedToken (scan_hex p u hu)

/-- **The segments of the canonical path** decode to what the segments of the path do. -/
theorem splitOn_canonicalPath {p d : Bytes} (h : ValidPath p) (hd : Percent.decode p = some d) :
    ((canonicalPath p).splitOn slash).map Percent.decode = (d.splitOn slash).map some := by
  have hdec : Percent.decode (canonicalPath p) = some d :=
    (decode_canonicalPath h.wellFormed).trans hd
  refine Percent.splitOn_decode rfl (by decide) hdec ?_
  intro t ht hv
  rw [scan_canonicalPath] at ht
  obtain ⟨u, hu, rfl⟩ := List.mem_map.mp ht
  -- the token is the signed form of a `/` of the path, which is `/`
  rw [(signedToken_spec (scan_hex p u hu)).2] at hv
  rw [lit_of_value_slash (h.tokens u hu) hv]
  rfl

/--
**Canonical paths**, for every byte string: the fast path is taken exactly when the loop
outputs its input, the output is canonical text, and it is its own canonical form. For an
accepted path the output has the same segments, decoded, and so decodes to the same bytes;
two accepted paths with one canonical form decode alike.
-/
theorem canonicalUri_spec (p : Bytes) :
    (isCanonicalPath (ε := UriError) p = ok true
        ↔ loop (canonicalUriBody (ε := UriError) p) (p.length + 1) (0, []) = ok p)
      ∧ ∃ q, canonicalUriFromValidPath (ε := UriError) p = ok q
        ∧ loop (canonicalUriBody (ε := UriError) p) (p.length + 1) (0, []) = ok q
        ∧ CanonicalText q
        ∧ canonicalUriFromValidPath (ε := UriError) q = ok q
        ∧ (validateRawPath p = ok () →
          (∃ d, percentDecode p = ok d ∧ percentDecode q = ok d
            ∧ (p.splitOn slash).map percentDecode = (d.splitOn slash).map ok
            ∧ (q.splitOn slash).map percentDecode = (d.splitOn slash).map ok)
          ∧ ∀ p', validateRawPath p' = ok () →
            canonicalUriFromValidPath (ε := UriError) p' = ok q →
              percentDecode p' = percentDecode p) := by
  refine ⟨?_, canonicalPath p, canonicalUriFromValidPath_eq p, canonicalUriLoop_eq p,
    canonicalText_canonicalPath p, ?_, ?_⟩
  · rw [isCanonicalPath_eq, canonicalUriLoop_eq, Outcome.ok.injEq, Outcome.ok.injEq]
    exact canonicalPath_eq_self_iff.symm
  · rw [canonicalUriFromValidPath_eq, canonicalPath_idempotent]
  · intro hp
    have hvalid := validateRawPath_eq_ok.mp hp
    obtain ⟨d, hd⟩ := Option.isSome_iff_exists.mp (decode_isSome.mpr hvalid.wellFormed)
    have hcanonical := decode_canonicalPath hvalid.wellFormed
    refine ⟨⟨d, percentDecode_of_decode hd, percentDecode_of_decode (hcanonical.trans hd), ?_, ?_⟩,
      ?_⟩
    · exact map_percentDecode (hvalid.splitOn_decode hd)
    · exact map_percentDecode (splitOn_canonicalPath hvalid hd)
    · intro p' hp' hsame
      have hvalid' := validateRawPath_eq_ok.mp hp'
      rw [canonicalUriFromValidPath_eq] at hsame
      rw [percentDecode_eq, percentDecode_eq, ← decode_canonicalPath hvalid'.wellFormed,
        Outcome.ok.inj hsame, hcanonical]

theorem canonicalUri_spec_sample :
    percentDecode (bytes "/a%5e%7E") = percentDecode (bytes "/a^%7e") := by
  obtain ⟨q, hq, _, _, _, hmeaning⟩ := (canonicalUri_spec (bytes "/a^%7e")).2
  have hsame : canonicalUriFromValidPath (ε := UriError) (bytes "/a%5e%7E") = ok q := by
    rw [← hq]
    rfl
  exact (hmeaning (by rfl)).2 _ (by rfl) hsame

end SigV4
