import SigV4.Proof.Path

/-!
# Separators that are not slashes

`validate_raw_path` looks for dot segments between slashes and rejects the escape of a
backslash, but lets a backslash through that is written as itself. A server that takes
both for separators can then find a dot segment in an accepted path. It does so exactly
when a backslash, inside a segment, sets one apart.
-/

namespace SigV4

open Outcome Ascii Percent Spec

/-- The ways to write `.`. -/
def dotSpellings : List Bytes := [bytes ".", bytes "%2e", bytes "%2E"]

/-- The ways to write `.` or `..`. -/
def dotSegmentSpellings : List Bytes :=
  dotSpellings ++ dotSpellings.flatMap fun a => dotSpellings.map (a ++ ·)

/-- A backslash of the segment sets a dot segment apart. -/
def HidesDots (segment : Bytes) : Prop :=
  backslash ∈ segment ∧ ∃ piece ∈ segment.splitOn backslash, piece ∈ dotSegmentSpellings

/-! ## The spellings -/

/-- A token that stands for a dot is spelled in one of three ways. -/
theorem raw_mem_dotSpellings {t : Token} (hhex : t.Hex) (hv : t.value = dot) :
    t.raw ∈ dotSpellings := by
  cases t with
  | lit c =>
      obtain rfl : c = dot := hv
      exact List.mem_cons_self
  | esc h l =>
      have hhi : ∀ c : UInt8, isAsciiHexdigit c = true → hexVal c = 2 → c = 0x32 := by
        decide +kernel
      have hlo : ∀ c : UInt8, isAsciiHexdigit c = true → hexVal c = 14 → c = 0x65 ∨ c = 0x45 := by
        decide +kernel
      have hval : ∀ a b : Fin 16, UInt8.ofNat a <<< 4 ||| UInt8.ofNat b = dot →
          UInt8.ofNat a = 2 ∧ UInt8.ofNat b = 14 := by
        decide
      have hlt : ∀ c : UInt8, isAsciiHexdigit c = true → (hexVal c).toNat < 16 := fun c hc =>
        UInt8.lt_iff_toNat_lt.mp (hexVal_lt c hc)
      -- the value of the two digits is 2 and 14
      obtain ⟨hh, hl⟩ := hhex
      have hdigits := hval ⟨_, hlt h hh⟩ ⟨_, hlt l hl⟩
      simp only [UInt8.ofNat_toNat] at hdigits
      obtain ⟨h2, h14⟩ := hdigits hv
      obtain rfl := hhi h hh h2
      rcases hlo l hl h14 with rfl | rfl
      · exact List.mem_cons_of_mem _ List.mem_cons_self
      · exact List.mem_cons_of_mem _ (List.mem_cons_of_mem _ List.mem_cons_self)

/-- **The spellings are all there are.** -/
theorem decode_dots_iff {s : Bytes} :
    (Percent.decode s = some [dot] ∨ Percent.decode s = some [dot, dot])
      ↔ s ∈ dotSegmentSpellings := by
  have hraw : ∀ t ∈ scan s, t.value = dot → t.raw ∈ dotSpellings :=
    fun t ht hv => raw_mem_dotSpellings (scan_hex s t ht) hv
  have hs := unscan_scan s
  refine ⟨?_, ?_⟩
  · intro h
    rcases h with h | h
    · obtain ⟨_, hvals⟩ := decode_eq_some.mp h
      obtain ⟨t, hscan, hv⟩ := List.map_eq_singleton_iff.mp hvals
      rw [hscan] at hraw hs
      rw [← hs, unscan_cons, unscan_nil, List.append_nil]
      exact List.mem_append_left _ (hraw t List.mem_cons_self hv)
    · obtain ⟨_, hvals⟩ := decode_eq_some.mp h
      obtain ⟨t, ts, hscan, hv, hvals⟩ := List.map_eq_cons_iff.mp hvals
      obtain ⟨u, rfl, hu⟩ := List.map_eq_singleton_iff.mp hvals
      rw [hscan] at hraw hs
      rw [← hs, unscan_cons, unscan_cons, unscan_nil, List.append_nil]
      refine List.mem_append_right _ (List.mem_flatMap.mpr ⟨t.raw, ?_, ?_⟩)
      · exact hraw t List.mem_cons_self hv
      · exact List.mem_map_of_mem (hraw u (List.mem_cons_of_mem _ List.mem_cons_self) hu)
  · intro h
    have hall : ∀ s ∈ dotSegmentSpellings,
        Percent.decode s = some [dot] ∨ Percent.decode s = some [dot, dot] := by
      decide
    exact hall s h

/-! ## What an accepted path hides -/

/-- The fields between separators of both kinds are the pieces of the segments. -/
theorem splitOnP_isSeparator (v : Bytes) :
    v.splitOnP isSeparator = (v.splitOn slash).flatMap (·.splitOn backslash) :=
  splitOnP_or (· == slash) (· == backslash) v

/-- A segment of a valid path is no dot segment itself. -/
theorem segment_not_mem {p : Bytes} (h : ValidPath p) {s : Bytes} (hs : s ∈ p.splitOn slash) :
    s ∉ dotSegmentSpellings := by
  intro hdots
  rw [h.splitOn_cons] at hs
  rcases List.mem_cons.mp hs with rfl | hs
  · exact absurd hdots (by decide)
  · have hok := h.segments s hs
    unfold segmentOk at hok
    rcases decode_dots_iff.mpr hdots with hd | hd
    · rw [hd] at hok
      exact absurd hok (by decide)
    · rw [hd] at hok
      exact absurd hok (by decide)

/--
**When an accepted path hides no dot segment.** Decoded once and split at both separators, it
has no field `.` or `..` exactly when no backslash of a segment sets one apart.
-/
theorem no_dots_iff {path : Bytes} (h : validateRawPath path = ok ()) :
    ∃ d, percentDecode path = ok d
      ∧ ((∀ field ∈ d.splitOnP isSeparator, field ≠ [dot] ∧ field ≠ [dot, dot])
        ↔ ∀ segment ∈ path.splitOn slash, ¬HidesDots segment) := by
  have hvalid := validateRawPath_eq_ok.mp h
  obtain ⟨d, hd⟩ := Option.isSome_iff_exists.mp (decode_isSome.mpr hvalid.wellFormed)
  have hfields := hvalid.splitOnP_decode hd fun _ hb => hb
  rw [splitOnP_isSeparator path] at hfields
  refine ⟨d, percentDecode_of_decode hd, ?_, ?_⟩
  · rintro hno segment hseg ⟨_, piece, hpiece, hdots⟩
    have hmem : piece ∈ (path.splitOn slash).flatMap (·.splitOn backslash) :=
      List.mem_flatMap.mpr ⟨segment, hseg, hpiece⟩
    have hdec : Percent.decode piece ∈ (d.splitOnP isSeparator).map some :=
      hfields ▸ List.mem_map_of_mem hmem
    obtain ⟨field, hfield, he⟩ := List.mem_map.mp hdec
    obtain ⟨h1, h2⟩ := hno field hfield
    rcases decode_dots_iff.mpr hdots with hd | hd
    · exact h1 (Option.some.inj (he.trans hd))
    · exact h2 (Option.some.inj (he.trans hd))
  · intro hnone field hfield
    have hdec : some field ∈ ((path.splitOn slash).flatMap (·.splitOn backslash)).map
        Percent.decode := hfields ▸ List.mem_map_of_mem hfield
    obtain ⟨piece, hpiece, he⟩ := List.mem_map.mp hdec
    obtain ⟨segment, hseg, hin⟩ := List.mem_flatMap.mp hpiece
    have hspell : piece ∉ dotSegmentSpellings := by
      intro hdots
      by_cases hb : backslash ∈ segment
      · exact hnone segment hseg ⟨hb, piece, hin, hdots⟩
      · -- without a backslash the piece is the segment, which has been checked
        rw [List.splitOn_eq_singleton hb] at hin
        obtain rfl := List.mem_singleton.mp hin
        exact segment_not_mem hvalid hseg hdots
    refine ⟨?_, ?_⟩
    · rintro rfl
      exact hspell (decode_dots_iff.mp (Or.inl he))
    · rintro rfl
      exact hspell (decode_dots_iff.mp (Or.inr he))

theorem no_dots_iff_sample :
    ∃ d, percentDecode (bytes "/a\\b/%2e%2e%2e") = ok d
      ∧ ((∀ field ∈ d.splitOnP isSeparator, field ≠ [dot] ∧ field ≠ [dot, dot])
        ↔ ∀ segment ∈ (bytes "/a\\b/%2e%2e%2e").splitOn slash, ¬HidesDots segment) :=
  no_dots_iff (by rfl)

/-- Signed, a backslash is its escape: one signature covers both spellings, of which only the
escape is rejected. -/
theorem canonicalUri_backslash {ε : Type} {a : Bytes} (ha : WellFormed a) (b : Bytes) :
    canonicalUriFromValidPath (ε := ε) (a ++ backslash :: b)
      = canonicalUriFromValidPath (a ++ percent :: 0x35 :: 0x43 :: b) := by
  have hne : backslash ≠ percent := by decide
  have htoken : canonicalToken (.lit backslash) = canonicalToken (.esc 0x35 0x43) := by decide
  rw [canonicalUriFromValidPath_eq, canonicalUriFromValidPath_eq]
  unfold canonicalPath
  rw [scan_append _ ha, scan_append _ ha, scan_ne hne, scan_esc (by decide) (by decide),
    List.flatMap_append, List.flatMap_append, List.flatMap_cons, List.flatMap_cons, htoken]

/-- A path that is accepted, and has the field `..` when it is split at both separators. -/
theorem hidden_dots :
    validateRawPath (bytes "/bucket/..\\secret") = ok ()
      ∧ ∃ d, percentDecode (bytes "/bucket/..\\secret") = ok d
        ∧ ∃ field ∈ d.splitOnP isSeparator, field = [dot, dot] :=
  ⟨by rfl, bytes "/bucket/..\\secret", by rfl, [dot, dot], by decide,
    rfl⟩

end SigV4
