import SigV4.Spec.Pieces

/-!
# The reference canonicalization

What the canonical query string of a query is, piece by piece: which pieces there may be,
which of them are written, how, and in what order. The order is described and not
computed: any sorted arrangement will do, and there is one.
-/

namespace SigV4.Spec

open Ascii Percent

/-- A piece that may stand in a query. -/
structure GoodPiece (piece : Bytes) : Prop where
  ne_nil : piece ≠ []
  /-- Two hex digits follow every `%` of the name. -/
  name : ∀ a b, pieceName piece = a ++ percent :: b → hexPair b = true
  /-- Two hex digits follow every `%` of the value. -/
  value : ∀ a b, pieceValue piece = a ++ percent :: b → hexPair b = true
  /-- There is a name. -/
  named : Percent.decode (pieceName piece) ≠ some []
  /-- The value of a signing parameter is text. -/
  text : ∀ n v, Percent.decode (pieceName piece) = some n → isKnown n = true →
    Percent.decode (pieceValue piece) = some v → Utf8.Valid v

/-- The decoded pairs of the pieces, the signature left out. -/
def signedPieces (raw : Bytes) : List Pair :=
  ((pieces raw).filterMap decodePiece).filter (·.1 != Known.signature.name)

/-- The pieces that give a name. -/
def piecesNamed (k : Known) (raw : Bytes) : List Bytes :=
  (pieces raw).filter fun piece => Percent.decode (pieceName piece) == some k.name

/-- `encode(name)=encode(value)` over the signed pieces, sorted by name and then by value. -/
def IsCanonicalOutput (raw out : Bytes) : Prop :=
  ∃ l : List Pair, l.Perm ((signedPieces raw).map encodePair) ∧ l.Pairwise PairLe
    ∧ out = [amp].intercalate (l.map writePair)

/-! ## Pieces and pairs -/

/-- **A piece is good** when it decodes to a pair the verifier goes on with. -/
theorem goodPiece_iff {piece : Bytes} :
    GoodPiece piece
      ↔ ∃ p, decodePiece piece = some p ∧ p.1 ≠ [] ∧ (isKnown p.1 = true → Utf8.Valid p.2) := by
  refine ⟨?_, ?_⟩
  · intro h
    obtain ⟨n, hn⟩ := Option.isSome_iff_exists.mp (decode_isSome.mpr (wellFormed_iff.mpr h.name))
    obtain ⟨v, hv⟩ := Option.isSome_iff_exists.mp (decode_isSome.mpr (wellFormed_iff.mpr h.value))
    refine ⟨(n, v), decodePiece_eq_some.mpr ⟨hn, hv⟩, ?_, fun hk => h.text n v hn hk hv⟩
    rintro rfl
    exact h.named hn
  · intro hc
    obtain ⟨⟨n, v⟩, hp, hne, htext⟩ := hc
    obtain ⟨hn, hv⟩ := decodePiece_eq_some.mp hp
    dsimp only at hn hv hne htext
    refine ⟨?_, wellFormed_iff.mp (decode_eq_some.mp hn).1,
      wellFormed_iff.mp (decode_eq_some.mp hv).1, ?_, ?_⟩
    · rintro rfl
      exact hne (Option.some.inj hn).symm
    · intro hnil
      exact hne (Option.some.inj (hn.symm.trans hnil))
    · intro n' v' hn' hk hv'
      obtain rfl := Option.some.inj (hn.symm.trans hn')
      obtain rfl := Option.some.inj (hv.symm.trans hv')
      exact htext hk

theorem exists_map_some {α β : Type} {f : α → Option β} {P : β → Prop} : ∀ {l : List α},
    (∀ a ∈ l, ∃ b, f a = some b ∧ P b) → ∃ r : List β, l.map f = r.map some ∧ ∀ b ∈ r, P b
  | [], _ => ⟨[], rfl, fun _ hb => absurd hb List.not_mem_nil⟩
  | a :: l, h => by
      obtain ⟨b, hb, hP⟩ := h a List.mem_cons_self
      obtain ⟨r, hr, hall⟩ := exists_map_some fun x hx => h x (List.mem_cons_of_mem _ hx)
      refine ⟨b :: r, by rw [List.map_cons, List.map_cons, hb, hr], fun x hx => ?_⟩
      rcases List.mem_cons.mp hx with rfl | hx
      · exact hP
      · exact hall x hx

/-- **A query is accepted** when all of its pieces are good. -/
theorem accepted_iff {raw : Bytes} :
    (∃ ps, accepted raw = some ps) ↔ ∀ piece ∈ pieces raw, GoodPiece piece := by
  refine ⟨?_, ?_⟩
  · rintro ⟨ps, h⟩ piece hpiece
    obtain ⟨hps, hacc⟩ := accepted_eq_some.mp h
    have hmem : decodePiece piece ∈ ps.map some :=
      pairs_eq_some_iff.mp hps ▸ List.mem_map_of_mem hpiece
    obtain ⟨p, hp, he⟩ := List.mem_map.mp hmem
    exact goodPiece_iff.mpr ⟨p, he.symm, hacc p hp⟩
  · intro h
    obtain ⟨ps, hps, hacc⟩ := exists_map_some fun piece hpiece => goodPiece_iff.mp (h piece hpiece)
    exact ⟨ps, accepted_eq_some.mpr ⟨pairs_eq_some_iff.mpr hps, hacc⟩⟩

section

variable {raw : Bytes} {ps : List Pair}

theorem signedPieces_eq (h : pairs raw = some ps) : signedPieces raw = signed ps := by
  have hmap := pairs_eq_some_iff.mp h
  have hfilter : (pieces raw).filterMap decodePiece = ps := by
    -- every piece decodes, so no piece is dropped
    have hid := congrArg (List.filterMap id) hmap
    rwa [List.filterMap_map, List.filterMap_map, Function.id_comp, Function.id_comp,
      List.filterMap_some] at hid
  unfold signedPieces
  rw [hfilter]
  rfl

/-- **The canonical query string** is the reference's. -/
theorem canonicalString_isCanonicalOutput (h : pairs raw = some ps) :
    IsCanonicalOutput raw (canonicalString ps) := by
  refine ⟨sortedPairs ps, ?_, List.pairwise_insertionSort PairLe _, rfl⟩
  rw [signedPieces_eq h]
  exact List.perm_insertionSort PairLe _

/-- The values of a name are those of the pieces that give it. -/
theorem values_piecesNamed (k : Known) (h : pairs raw = some ps) :
    (piecesNamed k raw).map (fun piece => Percent.decode (pieceValue piece))
      = (values k ps).map some := by
  have hgen : ∀ (l : List Bytes) (ps : List Pair), l.map decodePiece = ps.map some →
      (l.filter fun piece => Percent.decode (pieceName piece) == some k.name).map
        (fun piece => Percent.decode (pieceValue piece)) = (values k ps).map some := by
    intro l
    -- induction on the pieces, each with the pair it decodes to
    induction l with
    | nil =>
        intro ps hps
        obtain rfl := List.map_eq_nil_iff.mp hps.symm
        rfl
    | cons piece l ih =>
        intro ps hps
        obtain ⟨p, ps, rfl, hp, hrest⟩ := List.map_eq_cons_iff.mp hps.symm
        obtain ⟨hn, hv⟩ := decodePiece_eq_some.mp hp.symm
        have ih := ih ps hrest.symm
        unfold values at ih ⊢
        rw [List.filter_cons, List.filter_cons, hn,
          show (some p.1 == some k.name) = (p.1 == k.name) from rfl]
        cases p.1 == k.name with
        | true =>
            rw [if_pos rfl, if_pos rfl, List.map_cons, List.map_cons, List.map_cons, hv, ih]
        | false =>
            rw [if_neg Bool.false_ne_true, if_neg Bool.false_ne_true]
            exact ih
  exact hgen (pieces raw) ps (pairs_eq_some_iff.mp h)

end

end SigV4.Spec
