import SigV4.Spec.Path

/-!
# The grammar of a URI, in its bytes

`ValidPath` reads a path as tokens. Here the same paths are described by what may stand
next to what, with no reading of the whole: which bytes there are, what follows a `%`,
and what a segment decodes to. The two descriptions agree (`validPath_iff`,
`validUri_iff`).
-/

namespace SigV4.Spec

open Ascii Percent

/-- The bytes of a path. -/
structure PathGrammar (p : Bytes) : Prop where
  /-- No `/` follows a `/`. -/
  noDoubleSlash : ∀ a b, p ≠ a ++ slash :: slash :: b
  /-- There is no control byte and no space. -/
  printable : ∀ c ∈ p, 0x20 < c ∧ c ≠ del
  /-- Two hex digits follow every `%`. -/
  complete : ∀ a b, p = a ++ percent :: b → hexPair b = true
  /-- No escape denotes a separator. -/
  separators : ∀ a h l b, p = a ++ percent :: h :: l :: b →
    Token.value (.esc h l) ≠ slash ∧ Token.value (.esc h l) ≠ backslash
  /-- No segment is a dot segment. -/
  segments : ∀ s ∈ p.splitOn slash,
    Percent.decode s ≠ some [dot] ∧ Percent.decode s ≠ some [dot, dot]

/-- The bytes of a URI. -/
structure UriGrammar (u : Bytes) : Prop where
  rooted : u.head? = some slash
  clean : ∀ b ∈ u, b ∉ [cr, lf, tab, space, hash]
  path : PathGrammar (u.takeWhile (· != question))

/-- What the grammar says of the bytes is what a valid path says of its tokens. -/
theorem PathGrammar.pathToken {p : Bytes} (h : PathGrammar p) :
    ∀ t ∈ scan p, pathToken t = true := by
  have hwf := wellFormed_iff.mpr h.complete
  intro t ht
  cases t with
  | lit c =>
      obtain ⟨hlow, hdel⟩ := h.printable c (mem_of_lit_mem_scan ht)
      have hne : (c != percent) = true := List.all_eq_true.mp hwf (.lit c) ht
      simp only [Spec.pathToken, Bool.and_eq_true, bne_iff_ne, decide_eq_true_eq]
      exact ⟨⟨hlow, hdel⟩, by simpa using hne⟩
  | esc x y =>
      obtain ⟨a, b, hp⟩ := (esc_mem_scan_iff hwf).mp ht
      obtain ⟨hslash, hback⟩ := h.separators a x y b hp
      simp only [Spec.pathToken, Bool.and_eq_true, bne_iff_ne]
      exact ⟨hslash, hback⟩

/-- A byte of a path whose tokens are good is printable. -/
theorem printable_of_pathToken {p : Bytes} (h : ∀ t ∈ scan p, pathToken t = true) :
    ∀ c ∈ p, 0x20 < c ∧ c ≠ del := by
  have hdigit : ∀ c : UInt8, isAsciiHexdigit c = true → 0x20 < c ∧ c ≠ del := by decide +kernel
  intro c hc
  rw [← unscan_scan p] at hc
  obtain ⟨t, ht, hct⟩ := List.mem_flatMap.mp hc
  cases t with
  | lit b =>
      obtain rfl := List.mem_singleton.mp hct
      have hok := h _ ht
      simp only [Spec.pathToken, Bool.and_eq_true, bne_iff_ne, decide_eq_true_eq] at hok
      exact hok.1
  | esc x y =>
      have hhex := scan_hex p _ ht
      simp only [Token.raw, List.mem_cons, List.not_mem_nil, or_false] at hct
      rcases hct with rfl | rfl | rfl
      · decide
      · exact hdigit _ hhex.1
      · exact hdigit _ hhex.2

theorem ValidPath.grammar {p : Bytes} (h : ValidPath p) : PathGrammar p where
  noDoubleSlash := h.noDoubleSlash
  printable := printable_of_pathToken h.tokens
  complete := wellFormed_iff.mp h.wellFormed
  separators := by
    intro a x y b hp
    -- in a well-formed path every `%` starts a token
    have hok := h.tokens _ ((esc_mem_scan_iff h.wellFormed).mpr ⟨a, b, hp⟩)
    simp only [Spec.pathToken, Bool.and_eq_true, bne_iff_ne] at hok
    exact hok
  segments := by
    intro s hs
    rw [h.splitOn_cons] at hs
    rcases List.mem_cons.mp hs with rfl | hs
    · exact ⟨by decide, by decide⟩
    · have hok := h.segments s hs
      unfold segmentOk at hok
      cases hd : Percent.decode s with
      | none => exact ⟨by simp, by simp⟩
      | some d =>
          rw [hd] at hok
          simp only [Bool.and_eq_true, bne_iff_ne] at hok
          exact ⟨fun he => hok.1 (Option.some.inj he), fun he => hok.2 (Option.some.inj he)⟩

/-- **The valid paths are the rooted ones that the grammar describes.** -/
theorem validPath_iff {p : Bytes} : ValidPath p ↔ p.head? = some slash ∧ PathGrammar p := by
  refine ⟨?_, ?_⟩
  · intro h
    exact ⟨h.rooted, h.grammar⟩
  · intro hcase
    obtain ⟨hrooted, h⟩ := hcase
    -- with no segment asked for, the path decodes field by field
    have hwf := wellFormed_iff.mpr h.complete
    obtain ⟨d, hd⟩ := Option.isSome_iff_exists.mp (decode_isSome.mpr hwf)
    have hfields := splitOn_decode_of_pathToken h.pathToken hd
    refine ⟨hrooted, h.noDoubleSlash, h.pathToken, fun s hs => ?_⟩
    have hmem : s ∈ p.splitOn slash := by
      cases p with
      | nil => exact absurd hrooted (by simp)
      | cons c p =>
          obtain rfl := Option.some.inj hrooted
          rw [show (slash :: p).splitOn slash = [] :: p.splitOn slash from
            List.splitOn_append_cons_self_of_not_mem List.not_mem_nil p]
          exact List.mem_cons_of_mem _ hs
    have hdec : Percent.decode s ∈ (d.splitOn slash).map some :=
      hfields ▸ List.mem_map_of_mem hmem
    obtain ⟨e, _, he⟩ := List.mem_map.mp hdec
    obtain ⟨h1, h2⟩ := h.segments s hmem
    rw [← he] at h1 h2
    unfold segmentOk
    rw [← he]
    simp only [Bool.and_eq_true, bne_iff_ne]
    exact ⟨fun hc => h1 (congrArg some hc), fun hc => h2 (congrArg some hc)⟩

/-- The path of a rooted URI is rooted. -/
theorem head?_uriPath {u : Bytes} (h : u.head? = some slash) :
    (uriPath u).head? = some slash := by
  cases u with
  | nil => exact absurd h (by simp)
  | cons c u =>
      obtain rfl := Option.some.inj h
      rfl

/-- **The served URIs are the ones that the grammar describes.** -/
theorem validUri_iff {u : Bytes} : ValidUri u ↔ UriGrammar u := by
  refine ⟨?_, ?_⟩
  · intro h
    exact ⟨h.rooted, h.clean, h.path.grammar⟩
  · intro h
    exact ⟨h.rooted, h.clean, validPath_iff.mpr ⟨head?_uriPath h.rooted, h.path⟩⟩

end SigV4.Spec
