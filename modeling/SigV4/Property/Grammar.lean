import SigV4.Proof.Path
import SigV4.Spec.Grammar

/-!
# The URIs that are accepted

`split_original_uri` accepts what the grammar of the bytes describes, no more and no less,
and cuts it at its first `?`. What it hands on may be decoded before it is split into
segments or after: the segments are the same.
-/

namespace SigV4

open Outcome Ascii Percent Spec

/-- A URI is its path, or its path, a `?` and its query. -/
theorem uri_eq (u : Bytes) :
    (u = uriPath u ∧ uriQuery u = []) ∨ u = uriPath u ++ question :: uriQuery u := by
  rcases field_spec question u with ⟨_, hf⟩ | hs
  · refine Or.inl ⟨hf.symm, ?_⟩
    unfold uriQuery
    rw [hf]
    exact List.drop_eq_nil_of_le (Nat.le_succ _)
  · exact Or.inr hs

/--
**`split_original_uri` accepts exactly its grammar.** The path is what stands before the
first `?` and the query what follows it; the path passes `validate_raw_path`; and decoding
it commutes with splitting it at `/`.
-/
theorem splitOriginalUri_grammar (u : Bytes) :
    ((∃ path query, splitOriginalUri u = ok (path, query)) ↔ UriGrammar u)
      ∧ ∀ path query, splitOriginalUri u = ok (path, query) →
          path = u.takeWhile (· != question)
            ∧ ((u = path ∧ query = []) ∨ u = path ++ question :: query)
            ∧ validateRawPath path = ok ()
            ∧ ∃ d, percentDecode path = ok d
              ∧ (path.splitOn slash).map percentDecode = (d.splitOn slash).map ok := by
  refine ⟨?_, ?_⟩
  · rw [← validUri_iff]
    refine ⟨?_, ?_⟩
    · intro hc
      obtain ⟨path, query, h⟩ := hc
      exact (splitOriginalUri_eq_ok.mp h).1
    · intro h
      exact ⟨_, _, splitOriginalUri_eq_ok.mpr ⟨h, rfl, rfl⟩⟩
  · intro path query h
    obtain ⟨hvalid, rfl, rfl⟩ := splitOriginalUri_eq_ok.mp h
    obtain ⟨d, hd⟩ := Option.isSome_iff_exists.mp (decode_isSome.mpr hvalid.path.wellFormed)
    exact ⟨rfl, uri_eq u, validateRawPath_ok hvalid.path, d, percentDecode_of_decode hd,
      map_percentDecode (hvalid.path.splitOn_decode hd)⟩

theorem splitOriginalUri_grammar_sample :
    ∃ d, percentDecode (bytes "/a%20b/c%2e") = ok d
      ∧ ((bytes "/a%20b/c%2e").splitOn slash).map percentDecode = (d.splitOn slash).map ok :=
  ((splitOriginalUri_grammar (bytes "/a%20b/c%2e?x=%2F/../")).2 (bytes "/a%20b/c%2e")
    (bytes "x=%2F/../") (by rfl)).2.2.2

end SigV4
