import SigV4.Lib.Hex
import SigV4.Verifier.Escape

/-!
# What the scanners compute

Each of the three scanners over percent escapes, and the byte helpers under them,
as one equation: `percent_decode` is `Percent.decode`, and
`canonicalize_query_component` is decoding followed by encoding. The fast path that
returns its input is invisible, because a component without escapes or reserved
bytes is its own encoding.

None of the equations has a panic on its right side, so each is also the proof
that its indices are in range and its loop ends.
-/

namespace SigV4

open Outcome Ascii Percent

variable {ε : Type}

/-! ## Byte helpers -/

theorem isUnreserved_eq (c : UInt8) : isUnreserved c = unreserved c := by
  unfold isUnreserved unreserved
  simp only [Bool.or_assoc]

theorem fromHex_eq {c : UInt8} (h : isHex c = true) : fromHex (ε := ε) c = ok (hexVal c) := by
  have hle : ∀ c : UInt8, isAsciiHexdigit c = true → (if isAsciiDigit c then zero ≤ c
      else if 0x61 ≤ c && c ≤ 0x66 then lowerA ≤ c ∧ (c - lowerA).toNat + 10 < 256
      else upperA ≤ c ∧ (c - upperA).toNat + 10 < 256) := by
    decide +kernel
  have hc := hle c h
  unfold fromHex hexVal
  rw [show (decide (0x30 ≤ c) && decide (c ≤ 0x39)) = isAsciiDigit c from rfl]
  split at hc
  · rename_i hd
    rw [if_pos hd, if_pos hd, subU8, if_pos hc]
  · rename_i hd
    rw [if_neg hd, if_neg hd]
    split at hc
    · rename_i hl
      rw [if_pos hl, if_pos hl, subU8, if_pos hc.1, ok_bind, addU8,
        if_pos (show (c - lowerA).toNat + (10 : UInt8).toNat < 256 from hc.2)]
    · rename_i hl
      rw [if_neg hl, if_neg hl, subU8, if_pos hc.1, ok_bind, addU8,
        if_pos (show (c - upperA).toNat + (10 : UInt8).toNat < 256 from hc.2)]

theorem upperHex_eq (c : UInt8) : upperHex c = toAsciiUppercase c := by
  unfold upperHex
  cases h : isAsciiLowercase c with
  | true => rw [if_pos rfl]
  | false => rw [if_neg (by simp), toAsciiUppercase_of_not_lower h]

theorem hexUpper_eq {n : UInt8} (h : n < 16) : hexUpper (ε := ε) n = ok (hexDigit n) := by
  have hall : ∀ n : UInt8, n < 16 → (bytes "0123456789ABCDEF")[n.toNat]? = some (hexDigit n) :=
    forall_lt_sixteen (by decide)
  exact index_of_some (hall n h)

theorem hexLower_eq {n : UInt8} (h : n < 16) : hexLower (ε := ε) n = ok (Hex.digit n) := by
  have hall : ∀ n : UInt8, n < 16 → (bytes "0123456789abcdef")[n.toNat]? = some (Hex.digit n) :=
    forall_lt_sixteen (by decide)
  exact index_of_some (hall n h)

theorem writeEscapedByte_eq (out : Bytes) (c : UInt8) :
    writeEscapedByte (ε := ε) out c = ok (out ++ escape c) := by
  unfold writeEscapedByte
  rw [hexUpper_eq (shift_lt c), ok_bind, hexUpper_eq (mask_lt c), ok_bind]
  rfl

theorem appendHexLower_eq (out bs : Bytes) :
    appendHexLower (ε := ε) out bs = ok (out ++ Hex.encode bs) := by
  unfold appendHexLower
  rw [foldlM_ok (g := fun (out : Bytes) (b : UInt8) => out ++ Hex.pair b)]
  · rw [List.foldl_eq_foldr_reverse]
    induction bs generalizing out with
    | nil => simp
    | cons b bs ih =>
        have := ih (out ++ Hex.pair b)
        rw [← List.foldl_eq_foldr_reverse] at this ⊢
        rw [List.foldl_cons, this, Hex.encode_cons, List.append_assoc]
  · intro out b _
    rw [hexLower_eq (shift_lt b), ok_bind, hexLower_eq (mask_lt b), ok_bind]
    rfl

/-- The test for a complete escape looks at the two bytes after the `%`. -/
theorem escapeAt_eq (v : Bytes) (i : Nat) :
    escapeAt (ε := ε) v i = ok (hexPair (v.drop (i + 1))) := by
  have hlen : (v.drop (i + 1)).length = v.length - (i + 1) := List.length_drop
  unfold escapeAt
  match hd : v.drop (i + 1) with
  | [] =>
      rw [hd] at hlen
      rw [if_neg (by simp only [List.length_nil] at hlen; omega)]; rfl
  | [a] =>
      rw [hd] at hlen
      rw [if_neg (by simp only [List.length_cons, List.length_nil] at hlen; omega)]; rfl
  | a :: b :: rest =>
      rw [hd] at hlen
      have h1 : v[i + 1]? = some a := by
        have := congrArg (·[0]?) hd
        simpa using this
      have h2 : v[i + 2]? = some b := by
        have := congrArg (·[1]?) hd
        simpa [Nat.add_assoc] using this
      rw [if_pos (by simp only [List.length_cons] at hlen; omega), index_of_some h1, ok_bind]
      show (if isHex a = true then _ else _) = ok (isHex a && isHex b)
      cases isHex a with
      | true => rw [if_pos rfl, index_of_some h2, ok_bind, Bool.true_and]
      | false => rfl

theorem index_of_drop {v rest : Bytes} {i : Nat} {c : UInt8} (h : v.drop i = c :: rest) :
    index (ε := ε) v i = ok c := by
  refine index_of_some ?_
  have := congrArg (·[0]?) h
  simpa using this

theorem drop_succ_of_drop {v rest : Bytes} {i : Nat} {c : UInt8} (h : v.drop i = c :: rest) :
    v.drop (i + 1) = rest := by
  have := congrArg (List.drop 1) h
  rw [List.drop_drop] at this
  exact this

theorem lt_of_drop {v rest : Bytes} {i : Nat} {c : UInt8} (h : v.drop i = c :: rest) :
    i < v.length := by
  have := congrArg List.length h
  rw [List.length_drop, List.length_cons] at this
  omega

theorem escapedByte_eq {v rest : Bytes} {i : Nat} {c h l : UInt8}
    (hd : v.drop i = c :: h :: l :: rest) (hh : isAsciiHexdigit h = true)
    (hl : isAsciiHexdigit l = true) :
    escapedByte (ε := ε) v i = ok (hexVal h <<< 4 ||| hexVal l) := by
  have hd1 := drop_succ_of_drop hd
  have hd2 := drop_succ_of_drop hd1
  unfold escapedByte
  rw [index_of_drop hd1, ok_bind, fromHex_eq hh, ok_bind, index_of_drop hd2, ok_bind,
    fromHex_eq hl, ok_bind]

/-! ## Scanners -/

theorem ne_percent_of_wf {c : UInt8} : Token.wf (.lit c) = true ↔ c ≠ percent := by
  simp [Token.wf]

/-- A `%` that opens no escape. -/
theorem eq_percent_of_not_wf {c : UInt8} (h : Token.wf (.lit c) = false) : c = percent := by
  simpa [Token.wf] using h

theorem foldl_append_map {α : Type} (f : α → UInt8) :
    ∀ (l : List α) (out : Bytes), l.foldl (fun out a => out ++ [f a]) out = out ++ l.map f
  | [], out => by simp
  | a :: l, out => by
      rw [List.foldl_cons, foldl_append_map f l, List.map_cons, List.append_assoc]; rfl

/-- **`percent_decode` decodes.** -/
theorem percentDecode_eq (v : Bytes) : percentDecode v = ofOption ⟨⟩ (Percent.decode v) := by
  have hg : ∀ (out : Bytes) (t : Token), (fun (out : Bytes) (t : Token) =>
      if t.wf then ok (out ++ [t.value]) else exit (⟨⟩ : UriError)) out t
        = if t.wf then ok (out ++ [t.value]) else exit ⟨⟩ := fun _ _ => rfl
  have hloop := scanLoop_eq (v := v) (B := percentDecodeBody v) (f := id)
    (g := fun (out : Bytes) (t : Token) =>
      if t.wf then ok (out ++ [t.value]) else exit (⟨⟩ : UriError))
    (fun i out h l rest hd hh hl => by
      have hp : hexPair (v.drop (i + 1)) = true := by
        rw [drop_succ_of_drop hd]; simp [hexPair, hh, hl]
      unfold percentDecodeBody
      dsimp only
      rw [if_pos (lt_of_drop hd), index_of_drop hd, ok_bind, if_neg (by simp), escapeAt_eq,
        ok_bind, hp, if_neg (by simp), escapedByte_eq hd hh hl]
      rfl)
    (fun i out c rest hd hc => by
      unfold percentDecodeBody
      dsimp only
      rw [if_pos (lt_of_drop hd), index_of_drop hd, ok_bind]
      cases hw : Token.wf (.lit c) with
      | true => rw [if_pos (by simpa using ne_percent_of_wf.mp hw)]; rfl
      | false =>
          have hcp := eq_percent_of_not_wf hw
          rw [if_neg (by simp [hcp]), escapeAt_eq, ok_bind, drop_succ_of_drop hd, hc hcp]
          rfl)
    (fun i out hi => by
      unfold percentDecodeBody
      dsimp only
      rw [if_neg (by omega)]; rfl)
    (v.length + 1) 0 [] (by omega)
  unfold percentDecode
  rw [hloop, List.drop_zero, foldlM_guard hg, foldl_append_map, Percent.decode]
  by_cases hwf : WellFormed v
  · rw [if_pos hwf, if_pos (show (scan v).all Token.wf = true from hwf)]; rfl
  · rw [if_neg hwf, if_neg (show ¬(scan v).all Token.wf = true from hwf)]; rfl

theorem percentDecode_of_decode {v d : Bytes} (h : Percent.decode v = some d) :
    percentDecode v = ok d := by
  rw [percentDecode_eq, h, ofOption_some]

/-- `percent_decode`, field by field. -/
theorem map_percentDecode {l r : List Bytes} (h : l.map Percent.decode = r.map some) :
    l.map percentDecode = r.map ok := by
  have hfun : percentDecode = fun s => ofOption ⟨⟩ (Percent.decode s) := funext percentDecode_eq
  have hcomp : l.map percentDecode = (l.map Percent.decode).map (ofOption ⟨⟩) := by
    rw [hfun, List.map_map]
    rfl
  rw [hcomp, h, List.map_map]
  rfl

/-- The test for the fast path: malformed escapes leave, and what is left asks for the
slow path exactly when it has an escape or a reserved byte. -/
theorem queryComponentNeedsSlowPath_eq (raw : Bytes) :
    queryComponentNeedsSlowPath raw
      = if WellFormed raw then ok (!raw.all unreserved) else exit ⟨⟩ := by
  have hg : ∀ (slow : Bool) (t : Token), (fun (slow : Bool) (t : Token) =>
      if t.wf then ok (slow || !t.raw.all unreserved) else exit (⟨⟩ : UriError)) slow t
        = if t.wf then ok (slow || !t.raw.all unreserved) else exit ⟨⟩ := fun _ _ => rfl
  have hloop := scanLoop_eq (v := raw) (B := queryComponentNeedsSlowPathBody raw) (f := id)
    (g := fun (slow : Bool) (t : Token) =>
      if t.wf then ok (slow || !t.raw.all unreserved) else exit (⟨⟩ : UriError))
    (fun i slow h l rest hd hh hl => by
      have hp : hexPair (raw.drop (i + 1)) = true := by
        rw [drop_succ_of_drop hd]; simp [hexPair, hh, hl]
      have hpc : unreserved percent = false := rfl
      unfold queryComponentNeedsSlowPathBody
      dsimp only
      rw [if_pos (lt_of_drop hd), index_of_drop hd, ok_bind, if_pos (by simp), escapeAt_eq,
        ok_bind, hp, if_neg (by simp)]
      simp [Token.wf, Token.raw, hpc])
    (fun i slow c rest hd hc => by
      unfold queryComponentNeedsSlowPathBody
      dsimp only
      rw [if_pos (lt_of_drop hd), index_of_drop hd, ok_bind]
      cases hw : Token.wf (.lit c) with
      | true =>
          rw [if_neg (by simpa using ne_percent_of_wf.mp hw), isUnreserved_eq]
          cases hu : unreserved c <;> simp [Token.raw, hu]
      | false =>
          have hcp := eq_percent_of_not_wf hw
          rw [if_pos (by simp [hcp]), escapeAt_eq, ok_bind, drop_succ_of_drop hd, hc hcp]
          rfl)
    (fun i slow hi => by
      unfold queryComponentNeedsSlowPathBody
      dsimp only
      rw [if_neg (by omega)]; rfl)
    (raw.length + 1) 0 false (by omega)
  have hfold : ∀ (l : List Token) (slow : Bool),
      l.foldl (fun slow t => slow || !t.raw.all unreserved) slow
        = (slow || !(unscan l).all unreserved) := by
    intro l
    induction l with
    | nil => simp
    | cons t l ih =>
        intro slow
        rw [List.foldl_cons, ih, unscan_cons, List.all_append, Bool.not_and, Bool.or_assoc]
  unfold queryComponentNeedsSlowPath
  rw [hloop, List.drop_zero, foldlM_guard hg, hfold, unscan_scan]
  by_cases hwf : WellFormed raw
  · rw [if_pos hwf, if_pos (show (scan raw).all Token.wf = true from hwf)]; rfl
  · rw [if_neg hwf, if_neg (show ¬(scan raw).all Token.wf = true from hwf)]; rfl

/-- Unreserved text has no escapes to undo and nothing to escape. -/
theorem decode_of_unreserved {raw : Bytes} (h : raw.all unreserved = true) :
    Percent.decode raw = some raw := by
  refine decode_of_not_mem ?_
  intro hm
  have := List.all_eq_true.mp h percent hm
  exact absurd this (by decide)

theorem encode_of_unreserved {raw : Bytes} (h : raw.all unreserved = true) :
    Percent.encode raw = raw := by
  induction raw with
  | nil => rfl
  | cons c raw ih =>
      rw [List.all_cons, Bool.and_eq_true] at h
      rw [encode_cons, ih h.2, encodeByte, if_pos h.1]; rfl

/-- One byte, appended to what is encoded and to what is decoded. -/
def pushComponent : Bytes × Option Bytes → Token → Bytes × Option Bytes
  | (encoded, decoded), t => (encoded ++ encodeByte t.value, decoded.map (· ++ [t.value]))

theorem foldl_pushComponent : ∀ (l : List Token) (encoded : Bytes) (decoded : Option Bytes),
    l.foldl pushComponent (encoded, decoded)
      = (encoded ++ encode (l.map Token.value), decoded.map (· ++ l.map Token.value))
  | [], encoded, decoded => by cases decoded <;> simp
  | t :: l, encoded, decoded => by
      rw [List.foldl_cons, pushComponent, foldl_pushComponent l]
      cases decoded <;> simp

/-- One byte through the tail of the loop body, whether it needs an escape or not. -/
theorem pushComponent_eq (encoded : Bytes) (decoded : Option Bytes) (i : Nat) (b : UInt8) :
    (if isUnreserved b then
        (ok (.again (i, encoded ++ [b], decoded.map (· ++ [b]))) :
          Outcome UriError (Pass (Nat × Bytes × Option Bytes) (Bytes × Option Bytes)))
      else do
        let encoded ← writeEscapedByte encoded b
        ok (.again (i, encoded, decoded.map (· ++ [b]))))
      = ok (.again (i, encoded ++ encodeByte b, decoded.map (· ++ [b]))) := by
  rw [isUnreserved_eq, writeEscapedByte_eq]
  unfold encodeByte
  cases unreserved b <;> rfl

/-- **`canonicalize_query_component` decodes and encodes again.** -/
theorem canonicalizeQueryComponent_eq (raw : Bytes) (wantDecoded : Bool) :
    canonicalizeQueryComponent raw wantDecoded
      = ofOption ⟨⟩ ((Percent.decode raw).map fun d =>
          (encode d, if wantDecoded then some d else none)) := by
  have hg : ∀ (t : Bytes × Option Bytes) (a : Token),
      (fun (t : Bytes × Option Bytes) (a : Token) =>
        if a.wf then ok (pushComponent t a) else exit (⟨⟩ : UriError)) t a
        = if a.wf then ok (pushComponent t a) else exit ⟨⟩ := fun _ _ => rfl
  have hloop := scanLoop_eq (v := raw) (B := canonicalizeQueryComponentBody raw) (f := id)
    (g := fun (t : Bytes × Option Bytes) (a : Token) =>
      if a.wf then ok (pushComponent t a) else exit (⟨⟩ : UriError))
    (fun i t h l rest hd hh hl => by
      have hp : hexPair (raw.drop (i + 1)) = true := by
        rw [drop_succ_of_drop hd]; simp [hexPair, hh, hl]
      unfold canonicalizeQueryComponentBody
      dsimp only
      rw [if_pos (lt_of_drop hd), index_of_drop hd, ok_bind, if_pos (by simp), escapeAt_eq,
        ok_bind, hp, if_neg (by simp), escapedByte_eq hd hh hl, ok_bind, ok_bind]
      exact pushComponent_eq _ _ _ _)
    (fun i t c rest hd hc => by
      unfold canonicalizeQueryComponentBody
      dsimp only
      rw [if_pos (lt_of_drop hd), index_of_drop hd, ok_bind]
      cases hw : Token.wf (.lit c) with
      | true =>
          rw [if_neg (by simpa using ne_percent_of_wf.mp hw), ok_bind]
          exact pushComponent_eq _ _ _ _
      | false =>
          have hcp := eq_percent_of_not_wf hw
          rw [if_pos (by simp [hcp]), escapeAt_eq, ok_bind, drop_succ_of_drop hd, hc hcp]
          rfl)
    (fun i t hi => by
      unfold canonicalizeQueryComponentBody
      dsimp only
      rw [if_neg (by omega)]; rfl)
    (raw.length + 1) 0 ([], if wantDecoded then some [] else none) (by omega)
  unfold canonicalizeQueryComponent
  rw [queryComponentNeedsSlowPath_eq]
  by_cases hwf : WellFormed raw
  · rw [if_pos hwf, ok_bind]
    cases hu : raw.all unreserved with
    | true =>
        -- the fast path
        rw [decode_of_unreserved hu, Option.map_some, encode_of_unreserved hu]
        rfl
    | false =>
        have hall : (scan raw).all Token.wf = true := hwf
        rw [if_neg (by simp), hloop, List.drop_zero, foldlM_guard hg, if_pos hall,
          foldl_pushComponent, Percent.decode, if_pos hwf]
        cases wantDecoded <;> rfl
  · rw [if_neg hwf, Percent.decode, if_neg hwf]; rfl

end SigV4
