import SigV4.Spec.Path
import Mathlib.Data.List.Sections

/-!
# The spellings of a path

Paths that are signed alike differ in spelling: a byte may stand as it is or as an escape,
and the digits of an escape may be in either case. A path has finitely many spellings, found
token by token (`mem_spellings`); those of a valid path are valid.
-/

namespace SigV4.Spec

open Ascii Percent

/-! ## Token by token -/

/-- Paths are signed alike when their tokens are. -/
theorem canonicalPath_eq_iff {p q : Bytes} :
    canonicalPath p = canonicalPath q ↔ (scan p).map signedToken = (scan q).map signedToken := by
  refine ⟨?_, ?_⟩
  · intro h
    rw [← scan_canonicalPath, h, scan_canonicalPath]
  · intro h
    rw [← unscan_scan (canonicalPath p), scan_canonicalPath, h, ← scan_canonicalPath, unscan_scan]

/-- Only `/` is signed as `/`. -/
theorem signedToken_eq_slash {t : Token} (h : signedToken t = .lit slash) : t = .lit slash := by
  cases t with
  | lit c =>
      rw [signedToken_lit] at h
      split at h
      · exact h
      · exact absurd h (by simp)
  | esc a b => exact absurd h (by simp [signedToken])

/-- Tokens that are signed alike have slashes in the same places. -/
theorem slash_of_signedToken {t u : Token} (h : signedToken t = signedToken u)
    (hu : u = .lit slash) : t = .lit slash := by
  subst hu
  exact signedToken_eq_slash (h.trans rfl)

theorem value_of_signedToken {t u : Token} (ht : t.Hex) (hu : u.Hex)
    (h : signedToken t = signedToken u) : t.value = u.value := by
  rw [← (signedToken_spec ht).2, h, (signedToken_spec hu).2]

/-! ## Validity does not depend on the spelling -/

/-- A `/` between well-formed texts is a token of its own. -/
theorem scan_append_slash {a b : Bytes} (h : WellFormed (a ++ slash :: b)) :
    scan (a ++ slash :: b) = scan a ++ .lit slash :: scan b := by
  have ha : WellFormed a := h.of_append_cons rfl
  rw [scan_append _ ha, scan_ne slash_ne_percent]

/-- A `/` of one spelling is a `/` of the other. -/
theorem noDoubleSlash_respell {p q : Bytes} (hp : WellFormed p) (h : noDoubleSlash q)
    (hsame : (scan p).map signedToken = (scan q).map signedToken) : noDoubleSlash p := by
  intro a b hab
  subst hab
  rw [scan_append_slash hp, scan_ne slash_ne_percent, List.map_append, List.map_cons,
    List.map_cons] at hsame
  obtain ⟨ts, us, hq, _, hus⟩ := List.map_eq_append_iff.mp hsame.symm
  obtain ⟨t, us, rfl, ht, hus⟩ := List.map_eq_cons_iff.mp hus
  obtain ⟨u, us, rfl, hu, _⟩ := List.map_eq_cons_iff.mp hus
  obtain rfl := slash_of_signedToken ht rfl
  obtain rfl := slash_of_signedToken hu rfl
  refine h (unscan ts) (unscan us) ?_
  rw [← unscan_scan q, hq]
  simp [unscan, Token.raw]

/-- A segment is judged by what it decodes to. -/
theorem segmentOk_congr {s t : Bytes} (h : Percent.decode s = Percent.decode t) :
    segmentOk s = segmentOk t := by
  unfold segmentOk
  rw [h]

/-- **A path is valid in every spelling** with printable bytes, if it is in one. -/
theorem ValidPath.respell {p q : Bytes} (h : ValidPath q)
    (htokens : ∀ t ∈ scan p, pathToken t = true)
    (hsame : (scan p).map signedToken = (scan q).map signedToken) : ValidPath p := by
  have hp := wellFormed_of_pathToken htokens
  have hdecode : Percent.decode p = Percent.decode q := by
    rw [← decode_canonicalPath hp, canonicalPath_eq_iff.mpr hsame,
      decode_canonicalPath h.wellFormed]
  have hrooted : p.head? = some slash := by
    have hq : scan q = .lit slash :: scan q.tail := by
      conv => lhs; rw [h.eq_cons]
      exact scan_ne slash_ne_percent _
    rw [hq] at hsame
    obtain ⟨t, ts, hscan, ht, _⟩ := List.map_eq_cons_iff.mp hsame
    obtain rfl := slash_of_signedToken ht rfl
    rw [← unscan_scan p, hscan]
    rfl
  refine ⟨hrooted, noDoubleSlash_respell hp h.noDoubleSlash hsame, htokens, ?_⟩
  -- the segments of both decode to those of the one decoded path
  obtain ⟨d, hd⟩ := Option.isSome_iff_exists.mp (decode_isSome.mpr h.wellFormed)
  have hsplit := (splitOn_decode_of_pathToken htokens (hdecode.trans hd)).trans
    (h.splitOn_decode hd).symm
  have hcons : p = slash :: p.tail := by
    cases p with
    | nil => exact absurd hrooted (by simp)
    | cons c p => rw [Option.some.inj hrooted]; rfl
  have htail : p.splitOn slash = [] :: p.tail.splitOn slash := by
    conv => lhs; rw [hcons]
    exact List.splitOn_append_cons_self_of_not_mem List.not_mem_nil _
  rw [htail, h.splitOn_cons, List.map_cons, List.map_cons] at hsplit
  have hsegments := (List.cons.inj hsplit).2
  intro s hs
  have hmem : Percent.decode s ∈ (q.tail.splitOn slash).map Percent.decode :=
    hsegments ▸ List.mem_map_of_mem hs
  obtain ⟨s', hs', he⟩ := List.mem_map.mp hmem
  rw [segmentOk_congr he.symm]
  exact h.segments s' hs'

/-! ## All spellings -/

/-- A digit, in both cases. -/
def digitCases (c : UInt8) : List UInt8 := [c, toAsciiLowercase c]

/-- A digit is in one of the cases of its upper case. -/
theorem mem_digitCases (c : UInt8) : c ∈ digitCases (toAsciiUppercase c) := by
  unfold digitCases
  cases hc : isAsciiLowercase c with
  | false =>
      rw [toAsciiUppercase_of_not_lower hc]
      exact List.mem_cons_self
  | true =>
      have hrange : 0x61 ≤ c.toNat ∧ c.toNat ≤ 0x7A := by
        simpa [isAsciiLowercase, UInt8.le_iff_toNat_le] using hc
      have hle : (0x20 : UInt8) ≤ c := by
        rw [UInt8.le_iff_toNat_le]
        show 32 ≤ c.toNat
        omega
      have hsub : (c - 0x20).toNat = c.toNat - 32 := UInt8.toNat_sub_of_le _ _ hle
      have hupper : isAsciiUppercase (c - 0x20) = true := by
        simp only [isAsciiUppercase, Bool.and_eq_true, decide_eq_true_eq, UInt8.le_iff_toNat_le, hsub]
        show 65 ≤ c.toNat - 32 ∧ c.toNat - 32 ≤ 90
        omega
      have hlower : toAsciiLowercase (toAsciiUppercase c) = c := by
        unfold toAsciiUppercase
        rw [if_pos hc]
        unfold toAsciiLowercase
        rw [if_pos hupper, UInt8.sub_add_cancel]
      rw [hlower]
      exact List.mem_cons_of_mem _ List.mem_cons_self

instance (t : Token) : Decidable t.Hex :=
  match t with
  | .lit _ => inferInstanceAs (Decidable True)
  | .esc _ _ => inferInstanceAs (Decidable (_ ∧ _))

/-- The byte as it is, and its escape with the digits in either case. -/
def candidates (t : Token) : List Token :=
  .lit t.value :: match signedToken t with
    | .lit _ => []
    | .esc h l => (digitCases h).flatMap fun h => (digitCases l).map fun l => .esc h l

/-- The tokens a path may have in place of `t`. -/
def tokenSpellings (t : Token) : List Token :=
  (candidates t).filter fun u =>
    decide u.Hex && pathToken u && decide (signedToken u = signedToken t)

theorem mem_candidates {t u : Token} (ht : t.Hex) (hu : u.Hex)
    (h : signedToken u = signedToken t) : u ∈ candidates t := by
  unfold candidates
  cases u with
  | lit c =>
      have hvalue : c = t.value := value_of_signedToken (t := .lit c) hu ht h
      rw [hvalue]
      exact List.mem_cons_self
  | esc a b =>
      refine List.mem_cons_of_mem _ ?_
      rw [← h]
      exact List.mem_flatMap.mpr ⟨a, mem_digitCases a,
        List.mem_map.mpr ⟨b, mem_digitCases b, rfl⟩⟩

theorem mem_tokenSpellings {t u : Token} (ht : t.Hex) :
    u ∈ tokenSpellings t ↔ u.Hex ∧ pathToken u = true ∧ signedToken u = signedToken t := by
  unfold tokenSpellings
  rw [List.mem_filter]
  simp only [Bool.and_eq_true, decide_eq_true_eq]
  refine ⟨fun h => ⟨h.2.1.1, h.2.1.2, h.2.2⟩, fun h => ⟨mem_candidates ht h.1 h.2.2, ?_⟩⟩
  exact ⟨⟨h.1, h.2.1⟩, h.2.2⟩

/-- The spellings of a path. -/
def spellings (p : Bytes) : List Bytes := ((scan p).map tokenSpellings).sections.map unscan

/-- A choice of a spelling for each token. -/
theorem forall₂_tokenSpellings {ts us : List Token} (ht : ∀ t ∈ ts, t.Hex) :
    List.Forall₂ (· ∈ ·) us (ts.map tokenSpellings)
      ↔ (∀ u ∈ us, u.Hex ∧ pathToken u = true) ∧ us.map signedToken = ts.map signedToken := by
  induction ts generalizing us with
  | nil =>
      cases us with
      | nil => simp
      | cons u us => simp
  | cons t ts ih =>
      cases us with
      | nil => simp
      | cons u us =>
          rw [List.map_cons, List.forall₂_cons, mem_tokenSpellings (ht t List.mem_cons_self),
            ih fun x hx => ht x (List.mem_cons_of_mem _ hx), List.map_cons, List.map_cons,
            List.forall_mem_cons, List.cons_eq_cons]
          refine ⟨?_, ?_⟩
          · intro h
            exact ⟨⟨⟨h.1.1, h.1.2.1⟩, h.2.1⟩, h.1.2.2, h.2.2⟩
          · intro h
            exact ⟨⟨h.1.1.1, h.1.1.2, h.2.1⟩, h.1.2, h.2.2⟩

/-- **The spellings of a path** are the texts that are signed as it is. -/
theorem mem_spellings {p q : Bytes} :
    p ∈ spellings q ↔ (∀ t ∈ scan p, pathToken t = true) ∧ canonicalPath p = canonicalPath q := by
  unfold spellings
  rw [List.mem_map, canonicalPath_eq_iff]
  refine ⟨?_, ?_⟩
  · intro hcase
    obtain ⟨us, hus, rfl⟩ := hcase
    obtain ⟨hall, hsame⟩ := (forall₂_tokenSpellings (scan_hex q)).mp (List.mem_sections.mp hus)
    have hscan : scan (unscan us) = us :=
      scan_unscan fun u hu => ⟨(hall u hu).1, wf_of_pathToken (hall u hu).2⟩
    rw [hscan]
    exact ⟨fun u hu => (hall u hu).2, hsame⟩
  · intro hcase
    refine ⟨scan p, List.mem_sections.mpr ?_, unscan_scan p⟩
    exact (forall₂_tokenSpellings (scan_hex q)).mpr
      ⟨fun u hu => ⟨scan_hex p u hu, hcase.1 u hu⟩, hcase.2⟩

end SigV4.Spec
