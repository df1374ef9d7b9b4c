import SigV4.Proof.Query
import SigV4.Spec.Presigner
import SigV4.Spec.Reference

/-!
# The query that is signed

`canonical_query` computes the reference canonicalization, in one pass and with its fast
path, and fills the six slots with what the query gives their names. What it outputs is a
normal form: canonicalising it changes nothing, and it can be read back, so it determines
the pairs a signature is about.
-/

namespace SigV4

open Outcome Ascii Percent Spec

/-- How often a name has been stored. -/
def SigV4Query.count (q : SigV4Query) : Known → Nat
  | .algorithm => q.algorithmCount
  | .credential => q.credentialCount
  | .date => q.dateCount
  | .expires => q.expiresCount
  | .signedHeaders => q.signedHeadersCount
  | .signature => q.signatureCount

/-- What has been stored for a name. -/
def SigV4Query.slot (q : SigV4Query) : Known → Str
  | .algorithm => q.algorithm
  | .credential => q.credential
  | .date => q.date
  | .expires => q.expires
  | .signedHeaders => q.signedHeaders
  | .signature => q.signature

theorem count_ofPairs (k : Known) (ps : List Pair) :
    (SigV4Query.ofPairs ps).count k = (values k ps).length := by
  cases k <;> rfl

theorem slot_ofPairs (k : Known) (ps : List Pair) :
    (SigV4Query.ofPairs ps).slot k = lastValue k ps := by
  cases k <;> rfl

theorem canonicalQuery_eq_ok {raw out : Bytes} {q : SigV4Query} :
    canonicalQuery raw = ok (out, q)
      ↔ ∃ ps, accepted raw = some ps ∧ canonicalString ps = out ∧ .ofPairs ps = q := by
  rw [canonicalQuery_eq]
  cases accepted raw with
  | none => simp
  | some ps => simp

/-! ## The reference -/

/-- A value that is stored once is the value of the piece that gives it. -/
theorem slot_of_count_one {raw : Bytes} {ps : List Pair} (h : accepted raw = some ps) {k : Known}
    (hone : (values k ps).length = 1) {piece : Bytes} (hpiece : piece ∈ piecesNamed k raw) :
    Percent.decode (pieceValue piece) = some (lastValue k ps).bytes := by
  obtain ⟨hps, hacc⟩ := accepted_eq_some.mp h
  have hvalues := values_piecesNamed k hps
  obtain ⟨v, hv⟩ := List.length_eq_one_iff.mp hone
  -- the name is a signing name, so an accepted value is text and is stored as it is
  have htext : Utf8.Valid v := by
    have hmem : v ∈ values k ps := by rw [hv]; exact List.mem_cons_self
    obtain ⟨p, hp, rfl⟩ := List.mem_map.mp hmem
    obtain ⟨hp, hk⟩ := List.mem_filter.mp hp
    exact (hacc p hp).2 (isKnown_iff.mpr ⟨k, (eq_of_beq hk).symm⟩)
  have hlast : (lastValue k ps).bytes = v := by
    have hstr : Str.fromUtf8 v = some ⟨v, htext⟩ := dif_pos htext
    unfold lastValue
    rw [hv, List.getLast?_singleton, Option.bind_some, hstr, Option.getD_some]
  have hmem : Percent.decode (pieceValue piece) ∈ (values k ps).map some :=
    hvalues ▸ List.mem_map_of_mem hpiece
  rw [hv, List.map_singleton] at hmem
  rw [List.mem_singleton.mp hmem, hlast]

/--
**`canonical_query` is the reference canonicalization.** It accepts a query when it is empty
or all of its pieces are good. It outputs the signed pieces, encoded and sorted; and for each
of the six names it counts the pieces that give it and, where one does, keeps its value.
-/
theorem canonicalQuery_reference (raw : Bytes) :
    ((∃ out q, canonicalQuery raw = ok (out, q))
        ↔ raw = [] ∨ ∀ piece ∈ raw.splitOn amp, GoodPiece piece)
      ∧ ∀ out q, canonicalQuery raw = ok (out, q) →
          IsCanonicalOutput raw out
            ∧ ∀ k : Known, q.count k = (piecesNamed k raw).length
              ∧ (q.count k = 1 → ∀ piece ∈ piecesNamed k raw,
                  Percent.decode (pieceValue piece) = some (q.slot k).bytes) := by
  refine ⟨?_, ?_⟩
  · have hgood : (raw = [] ∨ ∀ piece ∈ raw.splitOn amp, GoodPiece piece)
        ↔ ∀ piece ∈ pieces raw, GoodPiece piece := by
      unfold pieces
      by_cases h : raw = []
      · simp [h]
      · simp [h]
    rw [hgood, ← accepted_iff]
    refine ⟨?_, ?_⟩
    · intro hc
      obtain ⟨out, q, h⟩ := hc
      obtain ⟨ps, hps, _⟩ := canonicalQuery_eq_ok.mp h
      exact ⟨ps, hps⟩
    · intro hc
      obtain ⟨ps, hps⟩ := hc
      exact ⟨_, _, canonicalQuery_eq_ok.mpr ⟨ps, hps, rfl, rfl⟩⟩
  · intro out q h
    obtain ⟨ps, hps, rfl, rfl⟩ := canonicalQuery_eq_ok.mp h
    have hpairs := (accepted_eq_some.mp hps).1
    refine ⟨canonicalString_isCanonicalOutput hpairs, fun k => ?_⟩
    rw [count_ofPairs, slot_ofPairs]
    refine ⟨?_, fun hone piece hpiece => slot_of_count_one hps hone hpiece⟩
    have hlen := congrArg List.length (values_piecesNamed k hpairs)
    rw [List.length_map, List.length_map] at hlen
    exact hlen.symm

theorem canonicalQuery_reference_sample :
    IsCanonicalOutput (bytes "b=%7e&a&X-Amz-Signature=0&a==") (bytes "a=&a=%3D&b=~") := by
  have hout : Prod.fst <$> canonicalQuery (bytes "b=%7e&a&X-Amz-Signature=0&a==")
      = ok (bytes "a=&a=%3D&b=~") := by
    rfl
  obtain ⟨⟨out, q⟩, hq, rfl⟩ := map_eq_ok.mp hout
  exact ((canonicalQuery_reference _).2 _ q hq).1

/-! ## The normal form -/

/-- The signed pairs, in the order they are written. -/
def writtenPairs (ps : List Pair) : List Pair :=
  (signed ps).insertionSort fun a b => PairLe (encodePair a) (encodePair b)

theorem writtenPairs_perm (ps : List Pair) : (writtenPairs ps).Perm (signed ps) :=
  List.perm_insertionSort _ _

theorem map_writtenPairs (ps : List Pair) : (writtenPairs ps).map encodePair = sortedPairs ps :=
  List.map_insertionSort _ PairLe encodePair _ fun _ _ _ _ => Iff.rfl

/-- **The canonical query string can be read back.** -/
theorem pairs_canonicalString (ps : List Pair) :
    pairs (canonicalString ps) = some (writtenPairs ps) := by
  have hwrite : canonicalString ps = writeQuery (writtenPairs ps) := by
    unfold canonicalString writeQuery
    rw [← map_writtenPairs, List.map_map]
    rfl
  rw [hwrite, pairs_writeQuery]

theorem signed_writtenPairs (ps : List Pair) : signed (writtenPairs ps) = writtenPairs ps := by
  refine List.filter_eq_self.mpr fun p hp => ?_
  exact (List.mem_filter.mp ((writtenPairs_perm ps).mem_iff.mp hp)).2

/-- **Canonicalising twice is canonicalising once.** -/
theorem canonicalString_writtenPairs (ps : List Pair) :
    canonicalString (writtenPairs ps) = canonicalString ps := by
  have hsorted : sortedPairs (writtenPairs ps) = sortedPairs ps := by
    -- sorted lists with the same elements are equal
    refine insertionSort_eq_iff.mpr ?_
    rw [signed_writtenPairs]
    exact (writtenPairs_perm ps).map encodePair
  unfold canonicalString
  rw [hsorted]

theorem acceptable_writtenPairs {ps : List Pair} (h : Acceptable ps) :
    Acceptable (writtenPairs ps) := by
  intro p hp
  exact h p (List.mem_filter.mp ((writtenPairs_perm ps).mem_iff.mp hp)).1

/--
**The canonical query is a normal form.** It is accepted and is its own canonical query; read
back, it gives exactly the decoded pairs that are signed; and two queries with one canonical
query have the same of these pairs.
-/
theorem canonicalQuery_normal_form {raw out : Bytes} {q : SigV4Query}
    (h : canonicalQuery raw = ok (out, q)) :
    (∃ q', canonicalQuery out = ok (out, q'))
      ∧ (∃ ps, pairs out = some ps ∧ ps.Perm (signedPieces raw))
      ∧ ∀ raw' q', canonicalQuery raw' = ok (out, q') →
          (signedPieces raw').Perm (signedPieces raw) := by
  obtain ⟨ps, hps, rfl, rfl⟩ := canonicalQuery_eq_ok.mp h
  obtain ⟨hpairs, hacc⟩ := accepted_eq_some.mp hps
  rw [signedPieces_eq hpairs]
  refine ⟨⟨.ofPairs (writtenPairs ps), ?_⟩, ⟨writtenPairs ps, pairs_canonicalString ps, ?_⟩, ?_⟩
  · refine canonicalQuery_eq_ok.mpr ⟨writtenPairs ps, ?_, canonicalString_writtenPairs ps, rfl⟩
    exact accepted_eq_some.mpr ⟨pairs_canonicalString ps, acceptable_writtenPairs hacc⟩
  · exact writtenPairs_perm ps
  · intro raw' q' h'
    obtain ⟨ps', hps', hsame, _⟩ := canonicalQuery_eq_ok.mp h'
    rw [signedPieces_eq (accepted_eq_some.mp hps').1]
    exact canonicalString_injective hsame

theorem canonicalQuery_normal_form_sample :
    ∃ ps, pairs (bytes "a=&a=%3D&b=~") = some ps
      ∧ ps.Perm (signedPieces (bytes "b=%7e&a&X-Amz-Signature=0&a==")) := by
  have hout : Prod.fst <$> canonicalQuery (bytes "b=%7e&a&X-Amz-Signature=0&a==")
      = ok (bytes "a=&a=%3D&b=~") := by
    rfl
  obtain ⟨⟨out, q⟩, hq, rfl⟩ := map_eq_ok.mp hout
  exact (canonicalQuery_normal_form hq).2.1

end SigV4
