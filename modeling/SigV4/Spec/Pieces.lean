import SigV4.Spec.Query

/-!
# Queries, piece by piece

The pieces of a query, and queries written from pairs: as long as no separator is left in
the text that is written, reading gives the pairs back. So a canonical query string
determines the pairs it was written from.
-/

namespace SigV4.Spec

open Ascii Percent

/-- The pieces of a query. -/
def pieces (raw : Bytes) : List Bytes := if raw = [] then [] else raw.splitOn amp

theorem mapM_eq_some_iff {α β : Type} {f : α → Option β} : ∀ {l : List α} {r : List β},
    l.mapM f = some r ↔ l.map f = r.map some
  | [], r => by
      refine ⟨?_, ?_⟩
      · intro h
        obtain rfl := Option.some.inj h
        rfl
      · intro h
        rw [List.map_eq_nil_iff.mp h.symm]
        rfl
  | a :: l, r => by
      rw [List.mapM_cons, List.map_cons]
      refine ⟨?_, ?_⟩
      · intro h
        obtain ⟨b, hb, h⟩ := Option.bind_eq_some_iff.mp h
        obtain ⟨bs, hbs, h⟩ := Option.bind_eq_some_iff.mp h
        obtain rfl := Option.some.inj h
        rw [hb, mapM_eq_some_iff.mp hbs, List.map_cons]
      · intro h
        obtain ⟨b, bs, rfl, hb, hbs⟩ := List.map_eq_cons_iff.mp h.symm
        rw [← hb, mapM_eq_some_iff.mpr hbs.symm]
        rfl

theorem pairs_eq_some_iff {raw : Bytes} {ps : List Pair} :
    pairs raw = some ps ↔ (pieces raw).map decodePiece = ps.map some := by
  unfold pairs pieces
  by_cases h : raw = []
  · rw [if_pos h, if_pos h]
    exact mapM_eq_some_iff (l := [])
  · rw [if_neg h, if_neg h]
    exact mapM_eq_some_iff

theorem decodePiece_eq_some {piece : Bytes} {p : Pair} :
    decodePiece piece = some p ↔ Percent.decode (pieceName piece) = some p.1
      ∧ Percent.decode (pieceValue piece) = some p.2 := by
  unfold decodePiece
  cases hn : Percent.decode (pieceName piece) with
  | none => simp
  | some n =>
      cases hv : Percent.decode (pieceValue piece) with
      | none => simp
      | some v => simp [Prod.ext_iff]

/-! ## Writing -/

/-- Encoded pairs, joined. -/
def joinPairs (es : List Pair) : Bytes := [amp].intercalate (es.map writePair)

/-- Text that may stand in a written pair. -/
def Separate (v : Bytes) : Prop := amp ∉ v ∧ equals ∉ v

theorem pieces_joinPairs {es : List Pair} (h : ∀ e ∈ es, Separate e.1 ∧ Separate e.2) :
    pieces (joinPairs es) = es.map writePair := by
  cases es with
  | nil => rfl
  | cons e es =>
      have hne : joinPairs (e :: es) ≠ [] := by
        unfold joinPairs
        rw [List.map_cons, intercalate_eq_flatMap]
        unfold writePair
        simp
      unfold pieces
      rw [if_neg hne]
      refine List.splitOn_intercalate amp ?_ (by simp)
      intro v hv
      obtain ⟨d, hd, rfl⟩ := List.mem_map.mp hv
      obtain ⟨hname, hvalue⟩ := h d hd
      intro hmem
      rcases List.mem_append.mp hmem with hmem | hmem
      · exact hname.1 hmem
      · rcases List.mem_cons.mp hmem with hmem | hmem
        · exact absurd hmem (by decide)
        · exact hvalue.1 hmem

theorem pieceName_writePair {e : Pair} (h : Separate e.1) : pieceName (writePair e) = e.1 :=
  field_append_cons h.2

theorem pieceValue_writePair {e : Pair} (h : Separate e.1) : pieceValue (writePair e) = e.2 := by
  show (writePair e).drop ((pieceName (writePair e)).length + 1) = _
  rw [pieceName_writePair h]
  unfold writePair
  simp

theorem separate_encode (v : Bytes) : Separate (encode v) :=
  ⟨not_mem_encode rfl v, not_mem_encode rfl v⟩

theorem decodePiece_writePair {e p : Pair} (hsep : Separate e.1)
    (hdec : Percent.decode e.1 = some p.1 ∧ Percent.decode e.2 = some p.2) :
    decodePiece (writePair e) = some p := by
  rw [decodePiece_eq_some, pieceName_writePair hsep, pieceValue_writePair hsep]
  exact hdec

/-- **Reading undoes writing**, in any encoding that escapes the separators. -/
theorem pairs_joinPairs {f : Pair → Pair} (hsep : ∀ p, Separate (f p).1 ∧ Separate (f p).2)
    (hdec : ∀ p, Percent.decode (f p).1 = some p.1 ∧ Percent.decode (f p).2 = some p.2)
    (ps : List Pair) : pairs (joinPairs (ps.map f)) = some ps := by
  have hpieces : pieces (joinPairs (ps.map f)) = (ps.map f).map writePair := by
    refine pieces_joinPairs fun e he => ?_
    obtain ⟨p, _, rfl⟩ := List.mem_map.mp he
    exact hsep p
  rw [pairs_eq_some_iff, hpieces, List.map_map, List.map_map]
  exact List.map_congr_left fun p _ => decodePiece_writePair (hsep p).1 (hdec p)

theorem separate_encodePair (p : Pair) :
    Separate (encodePair p).1 ∧ Separate (encodePair p).2 :=
  ⟨separate_encode p.1, separate_encode p.2⟩

theorem decode_encodePair (p : Pair) : Percent.decode (encodePair p).1 = some p.1
    ∧ Percent.decode (encodePair p).2 = some p.2 :=
  ⟨decode_encode p.1, decode_encode p.2⟩

theorem decodePiece_encodePair (p : Pair) : decodePiece (writePair (encodePair p)) = some p :=
  decodePiece_writePair (separate_encode p.1) (decode_encodePair p)

/-! ## The canonical query string determines the pairs -/

/-- The pieces of a canonical query string are the encoded pairs. -/
theorem pieces_canonicalString (ps : List Pair) :
    pieces (canonicalString ps) = (sortedPairs ps).map writePair := by
  show pieces (joinPairs (sortedPairs ps)) = _
  refine pieces_joinPairs fun e he => ?_
  obtain ⟨p, _, rfl⟩ := mem_sortedPairs.mp he
  exact separate_encodePair p

/-- The pieces decode to the signed pairs, in some order. -/
theorem decoded_canonicalString (ps : List Pair) :
    ((pieces (canonicalString ps)).map decodePiece).Perm ((signed ps).map some) := by
  have hdecoded : (((signed ps).map encodePair).map writePair).map decodePiece
      = (signed ps).map some := by
    rw [List.map_map, List.map_map]
    exact List.map_congr_left fun p _ => decodePiece_encodePair p
  rw [pieces_canonicalString, ← hdecoded]
  exact ((List.perm_insertionSort PairLe _).map writePair).map decodePiece

/-- **Joining loses nothing**: one canonical query string, one multiset of signed pairs. -/
theorem canonicalString_injective {ps qs : List Pair}
    (h : canonicalString ps = canonicalString qs) : (signed ps).Perm (signed qs) := by
  have hps := decoded_canonicalString ps
  rw [h] at hps
  exact (List.map_perm_map_iff (Option.some_injective Pair)).mp
    (hps.symm.trans (decoded_canonicalString qs))

end SigV4.Spec
