import SigV4.Property.CanonicalQuery
import SigV4.Spec.Origin

/-!
# What a signature means to an origin

The canonical query re-encodes what it has percent-decoded, so `+` and `%2B` are signed
alike. To an origin that reads form data they are a space and a plus. A query has one
meaning there, whatever its spelling, exactly when nothing signed in it holds a `+`.
-/

namespace SigV4

open Outcome Ascii Percent Spec

/-- No piece other than the signature holds a `+` that is not escaped. -/
def NoLiteralPlus (raw : Bytes) : Prop :=
  ∀ piece ∈ pieces raw, Percent.decode (pieceName piece) ≠ some Known.signature.name → plus ∉ piece

/-- Without a literal `+` the origin reads what is signed. -/
theorem originPairs_of_noLiteralPlus {raw : Bytes} {ps : List Pair} (h : pairs raw = some ps)
    (hplus : NoLiteralPlus raw) : originPairs raw = signed ps := by
  refine originPairs_eq h fun piece hpiece p hp hsig => ?_
  have hname := (decodePiece_eq_some.mp hp).1
  rw [formPiece_of_literal_not_mem (hplus piece hpiece ?_), hp]
  intro hn
  exact hsig (Option.some.inj (hname.symm.trans hn))

/-- Without a `+` in what is signed the origin reads it, however it is spelled. -/
theorem originPairs_of_plus_not_mem {raw : Bytes} {ps : List Pair} (h : pairs raw = some ps)
    (hplus : ∀ p ∈ signed ps, plus ∉ p.1 ∧ plus ∉ p.2) : originPairs raw = signed ps := by
  refine originPairs_eq h fun piece hpiece p hp hsig => ?_
  have hmem : p ∈ signed ps := by
    refine List.mem_filter.mpr ⟨?_, bne_iff_ne.mpr hsig⟩
    have hsome : some p ∈ ps.map some :=
      pairs_eq_some_iff.mp h ▸ hp ▸ List.mem_map_of_mem hpiece
    obtain ⟨q, hq, he⟩ := List.mem_map.mp hsome
    exact Option.some.inj he ▸ hq
  exact formPiece_of_plus_not_mem hp (hplus p hmem).1 (hplus p hmem).2

/-- The canonical query itself is read as what is signed. -/
theorem originPairs_canonicalString (ps : List Pair) :
    originPairs (canonicalString ps) = writtenPairs ps := by
  rw [originPairs_eq (pairs_canonicalString ps) ?_, signed_writtenPairs]
  intro piece hpiece p hp _
  rw [pieces_canonicalString] at hpiece
  obtain ⟨e, he, rfl⟩ := List.mem_map.mp hpiece
  obtain ⟨p', _, rfl⟩ := mem_sortedPairs.mp he
  rw [formPiece_encodePair, ← hp, decodePiece_encodePair]

/--
**When a signed query has one meaning.** An accepted query and every accepted query of the
same canonical form mean the same to an origin that reads form data, exactly when no name and
no value that is signed holds a `+` once it is percent-decoded. And two queries of one
canonical form mean the same when neither holds a literal `+` outside its signature.
-/
theorem canonicalQuery_origin_iff {raw out : Bytes} {q : SigV4Query}
    (h : canonicalQuery raw = ok (out, q)) :
    ((∀ raw' q', canonicalQuery raw' = ok (out, q') →
        (originPairs raw').Perm (originPairs raw))
      ↔ ∀ p ∈ signedPieces raw, plus ∉ p.1 ∧ plus ∉ p.2)
      ∧ ∀ raw' q', canonicalQuery raw' = ok (out, q') → NoLiteralPlus raw → NoLiteralPlus raw' →
        (originPairs raw').Perm (originPairs raw) := by
  obtain ⟨ps, hps, rfl, rfl⟩ := canonicalQuery_eq_ok.mp h
  obtain ⟨hpairs, hacc⟩ := accepted_eq_some.mp hps
  rw [signedPieces_eq hpairs]
  refine ⟨⟨?_, ?_⟩, ?_⟩
  · intro hone p hp
    -- the canonical query keeps every `+` escaped, the loose one keeps none
    have hescaped := hone (canonicalString ps) (.ofPairs (writtenPairs ps))
      (canonicalQuery_eq_ok.mpr ⟨writtenPairs ps,
        accepted_eq_some.mpr ⟨pairs_canonicalString ps, acceptable_writtenPairs hacc⟩,
        canonicalString_writtenPairs ps, rfl⟩)
    have hloose := hone (looseQuery (writtenPairs ps)) (.ofPairs (writtenPairs ps))
      (canonicalQuery_eq_ok.mpr ⟨writtenPairs ps,
        accepted_eq_some.mpr ⟨pairs_looseQuery (writtenPairs ps), acceptable_writtenPairs hacc⟩,
        canonicalString_writtenPairs ps, rfl⟩)
    rw [originPairs_canonicalString] at hescaped
    have hmem : p ∈ writtenPairs ps := (writtenPairs_perm ps).mem_iff.mpr hp
    exact plus_not_mem_originPairs_looseQuery
      (hloose.mem_iff.mpr (hescaped.mem_iff.mp hmem))
  · intro hplus raw' q' h'
    obtain ⟨ps', hps', hsame, _⟩ := canonicalQuery_eq_ok.mp h'
    have hperm := canonicalString_injective hsame
    rw [originPairs_of_plus_not_mem hpairs hplus,
      originPairs_of_plus_not_mem (accepted_eq_some.mp hps').1
        fun p hp => hplus p (hperm.mem_iff.mp hp)]
    exact hperm
  · intro raw' q' h' hraw hraw'
    obtain ⟨ps', hps', hsame, _⟩ := canonicalQuery_eq_ok.mp h'
    rw [originPairs_of_noLiteralPlus hpairs hraw,
      originPairs_of_noLiteralPlus (accepted_eq_some.mp hps').1 hraw']
    exact canonicalString_injective hsame

theorem canonicalQuery_origin_iff_sample :
    ¬∀ raw' q', canonicalQuery raw' = ok (bytes "a=%2B", q') →
      (originPairs raw').Perm (originPairs (bytes "a=+")) := by
  have hout : Prod.fst <$> canonicalQuery (bytes "a=+") = ok (bytes "a=%2B") := by
    rfl
  obtain ⟨⟨out, q⟩, hq, rfl⟩ := map_eq_ok.mp hout
  intro hone
  have hmem : (bytes "a", bytes "+") ∈ signedPieces (bytes "a=+") := by decide
  have hplain := (canonicalQuery_origin_iff hq).1.mp hone _ hmem
  exact hplain.2 (by decide)

/-- `a=+` and `a=%2B` have one canonical form, and an origin reads a space and a plus. -/
theorem canonicalQuery_respelled :
    ¬∀ raw raw' out q q', canonicalQuery raw = ok (out, q) → canonicalQuery raw' = ok (out, q') →
      (originPairs raw').Perm (originPairs raw) := by
  have hliteral : Prod.fst <$> canonicalQuery (bytes "a=+") = ok (bytes "a=%2B") := by
    rfl
  have hescaped : Prod.fst <$> canonicalQuery (bytes "a=%2B") = ok (bytes "a=%2B") := by
    rfl
  obtain ⟨⟨_, q⟩, hq, rfl⟩ := map_eq_ok.mp hliteral
  obtain ⟨⟨out, q'⟩, hq', hout⟩ := map_eq_ok.mp hescaped
  intro hall
  have hperm := hall _ (bytes "a=%2B") _ q q' hq (by rw [hq', ← hout])
  have hread : originPairs (bytes "a=%2B") = [(bytes "a", bytes "+")] := by decide
  have hread' : originPairs (bytes "a=+") = [(bytes "a", bytes " ")] := by decide
  rw [hread, hread', List.singleton_perm_singleton] at hperm
  exact absurd hperm (by decide)

end SigV4
