import SigV4.Lib.Form
import SigV4.Spec.Reference

/-!
# What an origin reads

An origin that takes a query for form data decodes each name and value with a `+` for a
space. `originPairs` is what it reads, piece by piece, beside the pairs that are signed.
-/

namespace SigV4.Spec

open Ascii Percent

/-- The pair an origin reads from a piece. -/
def formPiece (piece : Bytes) : Option Pair := do
  let name ← Form.decode (pieceName piece)
  let value ← Form.decode (pieceValue piece)
  some (name, value)

/-- The pairs an origin reads from a query, the signature left out. -/
def originPairs (raw : Bytes) : List Pair :=
  ((pieces raw).filterMap formPiece).filter (·.1 != Known.signature.name)

/-- The signature's name has no `+`: an origin knows it when the verifier does. -/
theorem formPiece_signature {piece : Bytes} {p : Pair} (h : decodePiece piece = some p)
    (hp : p.1 = Known.signature.name) :
    ∀ f, formPiece piece = some f → f.1 = Known.signature.name := by
  obtain ⟨hname, _⟩ := decodePiece_eq_some.mp h
  have hplain : plus ∉ p.1 := by
    rw [hp]
    decide
  intro f hf
  unfold formPiece at hf
  rw [Form.decode_eq_of_plus_not_mem hname hplain] at hf
  obtain ⟨n, hn, hf⟩ := Option.bind_eq_some_iff.mp hf
  obtain ⟨v, _, hf⟩ := Option.bind_eq_some_iff.mp hf
  rw [← Option.some.inj hf, ← Option.some.inj hn, hp]

/-- **Where the signed pieces read alike**, the origin reads the signed pairs. -/
theorem originPairs_eq {raw : Bytes} {ps : List Pair} (h : pairs raw = some ps)
    (halike : ∀ piece ∈ pieces raw, ∀ p, decodePiece piece = some p →
      p.1 ≠ Known.signature.name → formPiece piece = some p) :
    originPairs raw = signed ps := by
  have hgen : ∀ (l : List Bytes) (ps : List Pair), l.map decodePiece = ps.map some →
      (∀ piece ∈ l, ∀ p, decodePiece piece = some p →
        p.1 ≠ Known.signature.name → formPiece piece = some p) →
      (l.filterMap formPiece).filter (·.1 != Known.signature.name) = signed ps := by
    intro l
    -- induction on the pieces, each with the pair it decodes to
    induction l with
    | nil =>
        intro ps hps _
        obtain rfl := List.map_eq_nil_iff.mp hps.symm
        rfl
    | cons piece l ih =>
        intro ps hps hall
        obtain ⟨p, ps, rfl, hp, hrest⟩ := List.map_eq_cons_iff.mp hps.symm
        have ih := ih ps hrest.symm fun x hx => hall x (List.mem_cons_of_mem _ hx)
        unfold signed at ih ⊢
        by_cases hsig : p.1 = Known.signature.name
        · have hdrop : (p.1 != Known.signature.name) = false := by rw [hsig]; rfl
          rw [List.filter_cons, hdrop, if_neg Bool.false_ne_true, ← ih]
          cases hf : formPiece piece with
          | none => rw [List.filterMap_cons_none hf]
          | some f =>
              have hf' : (f.1 != Known.signature.name) = false := by
                rw [formPiece_signature hp.symm hsig f hf]
                rfl
              rw [List.filterMap_cons_some hf, List.filter_cons, hf', if_neg Bool.false_ne_true]
        · have hkeep : (p.1 != Known.signature.name) = true := bne_iff_ne.mpr hsig
          have hf := hall piece List.mem_cons_self p hp.symm hsig
          rw [List.filterMap_cons_some hf, List.filter_cons, List.filter_cons, hkeep, if_pos rfl,
            if_pos rfl, ih]
  exact hgen (pieces raw) ps (pairs_eq_some_iff.mp h) halike

theorem formPiece_of_plus_not_mem {piece : Bytes} {p : Pair} (h : decodePiece piece = some p)
    (hname : plus ∉ p.1) (hvalue : plus ∉ p.2) : formPiece piece = some p := by
  obtain ⟨hn, hv⟩ := decodePiece_eq_some.mp h
  unfold formPiece
  rw [Form.decode_eq_of_plus_not_mem hn hname, Form.decode_eq_of_plus_not_mem hv hvalue]
  rfl

theorem formPiece_of_literal_not_mem {piece : Bytes} (h : plus ∉ piece) :
    formPiece piece = decodePiece piece := by
  have hname : plus ∉ pieceName piece := fun hp => h ((List.takeWhile_sublist _).subset hp)
  have hvalue : plus ∉ pieceValue piece := fun hp => h (List.mem_of_mem_drop hp)
  unfold formPiece decodePiece
  rw [Form.decode_of_not_mem hname, Form.decode_of_not_mem hvalue]

/-! ## Queries written with a `+` as it is -/

theorem separate_looseEncode (v : Bytes) : Separate (Form.looseEncode v) := by
  refine ⟨?_, ?_⟩
  · intro h
    rcases Form.mem_looseEncode h with h | h
    · exact absurd h (by decide)
    · exact absurd h (by decide)
  · intro h
    rcases Form.mem_looseEncode h with h | h
    · exact absurd h (by decide)
    · exact absurd h (by decide)

theorem formPiece_encodePair (p : Pair) : formPiece (writePair (encodePair p)) = some p := by
  unfold formPiece
  rw [pieceName_writePair (separate_encode p.1), pieceValue_writePair (separate_encode p.1)]
  show (do
    let name ← Form.decode (encode p.1)
    let value ← Form.decode (encode p.2)
    some (name, value)) = _
  rw [Form.decode_encode, Form.decode_encode]
  rfl

/-- A pair with each `+` left as it is. -/
def loosePair (p : Pair) : Pair := (Form.looseEncode p.1, Form.looseEncode p.2)

theorem formPiece_loosePair (p : Pair) :
    formPiece (writePair (loosePair p)) = some (Form.unplus p.1, Form.unplus p.2) := by
  unfold formPiece
  rw [pieceName_writePair (separate_looseEncode p.1), pieceValue_writePair (separate_looseEncode p.1)]
  show (do
    let name ← Form.decode (Form.looseEncode p.1)
    let value ← Form.decode (Form.looseEncode p.2)
    some (name, value)) = _
  rw [Form.decode_looseEncode, Form.decode_looseEncode]
  rfl

/-- The pairs of a query, with each `+` left as it is. -/
def looseQuery (ps : List Pair) : Bytes := joinPairs (ps.map loosePair)

theorem pieces_looseQuery (ps : List Pair) :
    pieces (looseQuery ps) = ps.map fun p => writePair (loosePair p) := by
  unfold looseQuery
  rw [pieces_joinPairs, List.map_map]
  · rfl
  · intro e he
    obtain ⟨p, _, rfl⟩ := List.mem_map.mp he
    exact ⟨separate_looseEncode p.1, separate_looseEncode p.2⟩

/-- The verifier reads the pairs. -/
theorem pairs_looseQuery (ps : List Pair) : pairs (looseQuery ps) = some ps := by
  refine pairs_joinPairs (f := loosePair) (fun p => ?_) (fun p => ?_) ps
  · exact ⟨separate_looseEncode p.1, separate_looseEncode p.2⟩
  · exact ⟨Form.percentDecode_looseEncode p.1, Form.percentDecode_looseEncode p.2⟩

/-- The origin reads no `+`. -/
theorem plus_not_mem_originPairs_looseQuery {ps : List Pair} {f : Pair}
    (h : f ∈ originPairs (looseQuery ps)) : plus ∉ f.1 ∧ plus ∉ f.2 := by
  obtain ⟨hf, _⟩ := List.mem_filter.mp h
  rw [pieces_looseQuery] at hf
  obtain ⟨piece, hpiece, hf⟩ := List.mem_filterMap.mp hf
  obtain ⟨p, _, rfl⟩ := List.mem_map.mp hpiece
  rw [formPiece_loosePair] at hf
  rw [← Option.some.inj hf]
  exact ⟨Form.plus_not_mem_unplus p.1, Form.plus_not_mem_unplus p.2⟩

end SigV4.Spec
