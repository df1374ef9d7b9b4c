import SigV4.Proof.Escape

/-!
# Three scanners, one reading

The source reads percent escapes in three loops that do not share code. They reject the
same strings, those where the scan comes to a `%` without its two digits; and on the others
`canonicalize_query_component` is `percent_decode` followed by encoding. Its fast path
hands the input back twice, as encoded and as decoded, and that is right because unreserved
text decodes and encodes to itself.
-/

namespace SigV4

open Outcome Ascii Percent

/-- The scan of `raw` comes to a `%` that two hex digits do not follow. -/
def Malformed (raw : Bytes) : Prop := ∃ rest, Reaches raw (percent :: rest) ∧ hexPair rest = false

theorem malformed_iff {raw : Bytes} : Malformed raw ↔ ¬WellFormed raw := by
  unfold Malformed
  rw [wellFormed_iff_reaches]
  push Not
  simp only [Bool.not_eq_true]

theorem decode_eq_none {raw : Bytes} : Percent.decode raw = none ↔ Malformed raw := by
  rw [malformed_iff, ← decode_isSome, Bool.not_eq_true, Option.isSome_eq_false_iff,
    Option.isNone_iff_eq_none]

theorem percentDecode_exit {raw : Bytes} : percentDecode raw = exit ⟨⟩ ↔ Malformed raw := by
  rw [← decode_eq_none, percentDecode_eq]
  cases Percent.decode raw <;> simp

theorem queryComponentNeedsSlowPath_exit {raw : Bytes} :
    queryComponentNeedsSlowPath raw = exit ⟨⟩ ↔ Malformed raw := by
  rw [malformed_iff, queryComponentNeedsSlowPath_eq]
  by_cases h : WellFormed raw <;> simp [h]

theorem canonicalizeQueryComponent_exit {raw : Bytes} {wantDecoded : Bool} :
    canonicalizeQueryComponent raw wantDecoded = exit ⟨⟩ ↔ Malformed raw := by
  rw [← decode_eq_none, canonicalizeQueryComponent_eq]
  cases Percent.decode raw <;> simp

theorem percentDecode_eq_ok {raw d : Bytes} :
    percentDecode raw = ok d ↔ Percent.decode raw = some d := by
  rw [percentDecode_eq]
  cases Percent.decode raw <;> simp

theorem canonicalizeQueryComponent_of_decode {raw d : Bytes} (h : Percent.decode raw = some d)
    (wantDecoded : Bool) :
    canonicalizeQueryComponent raw wantDecoded
      = ok (encode d, if wantDecoded then some d else none) := by
  rw [canonicalizeQueryComponent_eq, h]
  rfl

/-- What the test for the fast path asks is whether the input is unreserved text. -/
theorem queryComponentNeedsSlowPath_of_decode {raw d : Bytes} (h : Percent.decode raw = some d) :
    queryComponentNeedsSlowPath raw = ok (!raw.all unreserved) := by
  rw [queryComponentNeedsSlowPath_eq, if_pos (decode_eq_some.mp h).1]

/--
**The decoders agree**, for every byte string and whether or not the decoded form is asked
for. The three of them refuse the same strings. Otherwise all three succeed: the encoded
form is the encoding of what `percent_decode` gives, the decoded form is what it gives, the
encoded form decodes to the same bytes, and canonicalising the encoded form changes nothing.
Whether the fast path was taken does not appear.
-/
theorem decoders_agree (raw : Bytes) (wantDecoded : Bool) :
    (canonicalizeQueryComponent raw wantDecoded = exit ⟨⟩ ↔ Malformed raw)
      ∧ (queryComponentNeedsSlowPath raw = exit ⟨⟩ ↔ Malformed raw)
      ∧ (percentDecode raw = exit ⟨⟩ ↔ Malformed raw)
      ∧ (Malformed raw ∨ ∃ d slow, percentDecode raw = ok d
        ∧ queryComponentNeedsSlowPath raw = ok slow
        ∧ canonicalizeQueryComponent raw wantDecoded
          = ok (encode d, if wantDecoded then some d else none)
        ∧ percentDecode (encode d) = ok d
        ∧ ∀ again, canonicalizeQueryComponent (encode d) again
          = ok (encode d, if again then some d else none)) := by
  refine ⟨canonicalizeQueryComponent_exit, queryComponentNeedsSlowPath_exit, percentDecode_exit,
    ?_⟩
  rw [malformed_iff]
  by_cases hwf : WellFormed raw
  · obtain ⟨d, hd⟩ := Option.isSome_iff_exists.mp (decode_isSome.mpr hwf)
    refine Or.inr ⟨d, !raw.all unreserved, percentDecode_eq_ok.mpr hd,
      queryComponentNeedsSlowPath_of_decode hd,
      canonicalizeQueryComponent_of_decode hd wantDecoded,
      percentDecode_eq_ok.mpr (decode_encode d), ?_⟩
    exact canonicalizeQueryComponent_of_decode (decode_encode d)
  · exact Or.inl hwf

end SigV4
