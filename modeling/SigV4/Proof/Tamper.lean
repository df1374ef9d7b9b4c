import SigV4.Proof.Presign

/-!
# Tampering with a written URI

A URI is cut into the parameters that it was joined from. So the helpers that take a parameter out
of the text, or give it another value, do that to the parameters.
-/

namespace SigV4.Presigner

open Outcome Ascii Percent Spec

variable {ε : Type} {path : Str} {params : List RawQueryParam} {q : RawQueryParam}

/-- The parameters can be told apart again. -/
structure Separates (q : RawQueryParam) : Prop where
  cut : equals ∉ q.name.bytes
  amp : amp ∉ q.write

theorem separates_of_spells {ps : List Pair} (h : List.Forall₂ RawQueryParam.Spells params ps) :
    ∀ q ∈ params, Separates q := by
  intro q hq
  obtain ⟨p, _, hspells⟩ := exists_mem_of_forall₂ h q hq
  exact ⟨hspells.cut, amp_not_mem_write h q hq⟩

/-- `format!("{}={}", name, value)`. -/
def RawQueryParam.text (q : RawQueryParam) : Str := format [q.name, .lit "=", q.value]

theorem text_bytes (q : RawQueryParam) : q.text.bytes = q.write := by
  unfold RawQueryParam.text
  rw [format_bytes]
  simp only [List.flatMap_cons, List.flatMap_nil, List.append_nil]
  rfl

theorem cutParam_text (h : Separates q) : cutParam q.text = some (q.name, q.value) :=
  Str.splitOnce_eq_some.mpr ⟨text_bytes q, h.cut⟩

theorem cutUri_writtenUri (h : question ∉ path.bytes) (params : List RawQueryParam) :
    cutUri (writtenUri path params) = some (path, joinRawQuery params) :=
  Str.splitOnce_eq_some.mpr ⟨writtenUri_bytes path params, h⟩

theorem partsOf_joinRawQuery (hne : params ≠ []) (h : ∀ q ∈ params, Separates q) :
    partsOf (joinRawQuery params) = params.map RawQueryParam.text := by
  have hinjective : Function.Injective Str.bytes := fun s t => Str.ext
  refine List.map_injective_iff.mpr hinjective ?_
  unfold partsOf
  rw [Str.split_map_bytes, splitOn_joinRawQuery hne fun q hq => (h q hq).amp, List.map_map]
  exact List.map_congr_left fun q _ => (text_bytes q).symm

section Written

variable (hquestion : question ∉ path.bytes) (hne : params ≠ []) (h : ∀ q ∈ params, Separates q)
include hquestion hne h

/-- **Removing** takes the parameters of this name out. -/
theorem removeQueryParam_writtenUri (key : Str) :
    removeQueryParam (writtenUri path params) key
      = writtenUri path (params.filter fun q => q.name != key) := by
  unfold removeQueryParam
  rw [cutUri_writtenUri hquestion]
  dsimp only
  rw [partsOf_joinRawQuery hne h, List.filter_map]
  have hfilter : params.filter ((fun part => (cutParam part).map Prod.fst != some key)
      ∘ RawQueryParam.text) = params.filter fun q => q.name != key := by
    refine List.filter_congr fun q hq => ?_
    show ((cutParam q.text).map Prod.fst != some key) = (q.name != key)
    rw [cutParam_text (h q hq)]
    simp [bne]
  rw [hfilter]
  rfl

/-- **Replacing** gives the parameters of this name another value. -/
theorem replaceQueryParam_writtenUri (key rawValue : Str) :
    replaceQueryParam (writtenUri path params) key rawValue
      = writtenUri path (params.map fun q => if q.name == key then qp key rawValue else q) := by
  unfold replaceQueryParam
  rw [cutUri_writtenUri hquestion]
  dsimp only
  rw [partsOf_joinRawQuery hne h, List.map_map]
  refine congrArg (fun parts => format [path, .lit "?", join (.lit "&") parts]) ?_
  rw [List.map_map]
  refine List.map_congr_left fun q hq => ?_
  rw [Function.comp_apply, Function.comp_apply, cutParam_text (h q hq)]
  dsimp only
  split <;> rfl

end Written

/-- **Tampering** changes the first digit of the first signature that is not empty. -/
theorem tamperParts_text {pre : List RawQueryParam} {sig : Str} {b c : UInt8} {rest : Bytes}
    (hpre : ∀ q ∈ pre, Separates q ∧ q.name ≠ .lit "X-Amz-Signature")
    (hsig : Separates (qp (.lit "X-Amz-Signature") sig)) (hbytes : sig.bytes = b :: c :: rest)
    (hc : c < 0x80) : ∃ text : Str, text.bytes = (if b == zero then 0x31 else zero) :: c :: rest
      ∧ tamperParts (ε := ε) ((pre ++ [qp (.lit "X-Amz-Signature") sig]).map RawQueryParam.text)
        = ok text := by
  induction pre with
  | nil =>
      have hnonempty : (!sig.isEmpty) = true := by
        unfold Str.isEmpty
        rw [hbytes]
        rfl
      obtain ⟨tail, htail, htailBytes⟩ := Str.sliceFrom_of_ascii (ε := ε) (s := sig) (i := 1)
        (by rw [hbytes]; rfl) hc
      have hfirst : index (ε := ε) sig.bytes 0 = ok b := index_of_some (by rw [hbytes]; rfl)
      refine ⟨format [if b == zero then .lit "1" else .lit "0", tail], ?_, ?_⟩
      · rw [format_bytes]
        simp only [List.flatMap_cons, List.flatMap_nil, List.append_nil, htailBytes, hbytes]
        cases b == zero <;> rfl
      · rw [List.nil_append, List.map_singleton, tamperParts, cutParam_text hsig]
        show (if (Str.lit "X-Amz-Signature" == .lit "X-Amz-Signature" && !sig.isEmpty) = true
          then _ else _) = _
        rw [beq_self_eq_true, hnonempty, Bool.and_self, if_pos rfl]
        show (index sig.bytes 0 >>= _) = _
        rw [hfirst, ok_bind]
        show (sig.sliceFrom 1 >>= _) = _
        rw [htail, ok_bind]
  | cons q pre ih =>
      obtain ⟨⟨hcut, hname⟩, hrest⟩ := List.forall_mem_cons.mp hpre
      obtain ⟨text, htext, htamper⟩ := ih hrest
      refine ⟨text, htext, ?_⟩
      rw [List.cons_append, List.map_cons, tamperParts, cutParam_text hcut]
      show (if (q.name == .lit "X-Amz-Signature" && !q.value.isEmpty) = true then _ else _) = _
      rw [beq_eq_false_iff_ne.mpr hname, Bool.false_and, if_neg Bool.false_ne_true]
      exact htamper

end SigV4.Presigner
