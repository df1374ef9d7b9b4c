import SigV4.Lib.Str

/-!
# Trimmed text

Trimming twice is trimming once, and ASCII case does not matter to it: what is trimmed
stays trimmed in lower case, because no letter is white space in either case.
-/

namespace SigV4

open Outcome Utf8

/-! ## Lists -/

/-- A list without the elements at either end that satisfy `p`. -/
def trimList {α : Type} (p : α → Bool) (l : List α) : List α := (l.dropWhile p).rdropWhile p

theorem dropWhile_of_isPrefix {α : Type} {p : α → Bool} {l m : List α} (h : m <+: l)
    (hl : l.dropWhile p = l) : m.dropWhile p = m := by
  obtain ⟨t, rfl⟩ := h
  cases m with
  | nil => rfl
  | cons a m =>
      rw [List.cons_append, List.dropWhile_cons] at hl
      split at hl
      · -- a list is no part of its tail
        have hle := (List.dropWhile_suffix p (l := m ++ t)).length_le
        rw [hl, List.length_cons] at hle
        omega
      · rename_i ha
        rw [List.dropWhile_cons, if_neg ha]

theorem trimList_trimList {α : Type} (p : α → Bool) (l : List α) :
    trimList p (trimList p l) = trimList p l := by
  unfold trimList
  rw [dropWhile_of_isPrefix (List.rdropWhile_prefix p _) (List.dropWhile_idempotent p l),
    List.rdropWhile_idempotent]

theorem trimList_map {α : Type} {p : α → Bool} {g : α → α} (hg : ∀ a, p (g a) = p a) (l : List α) :
    trimList p (l.map g) = (trimList p l).map g := by
  have hp : p ∘ g = p := funext hg
  unfold trimList List.rdropWhile
  rw [List.dropWhile_map, ← List.map_reverse, List.dropWhile_map, ← List.map_reverse, hp]

/-! ## Text -/

namespace Str

theorem chars_eq {s : Str} {cs : List Char} (h : s.bytes = encode cs) : s.chars = cs := by
  have hdec : decode s.bytes = some cs := by rw [h, decode_encode]
  unfold chars
  simp only [hdec, Option.get_some]

theorem encode_chars (s : Str) : encode s.chars = s.bytes := by
  obtain ⟨cs, hcs⟩ := valid_iff.mp s.valid
  rw [chars_eq hcs.symm, hcs]

theorem trim_bytes (s : Str) : s.trim.bytes = encode (trimList isWhitespace s.chars) := rfl

theorem chars_trim (s : Str) : s.trim.chars = trimList isWhitespace s.chars :=
  chars_eq (trim_bytes s)

/-- **Trimming twice is trimming once.** -/
theorem trim_trim (s : Str) : s.trim.trim = s.trim := by
  refine ext ?_
  rw [trim_bytes, chars_trim, trimList_trimList, trim_bytes]

/-! ## Lower case -/

/-- A letter in lower case. -/
def lowerChar (c : Char) : Char :=
  if 65 ≤ c.toNat ∧ c.toNat ≤ 90 then Char.ofNat (c.toNat + 32) else c

theorem toNat_ofNat_ascii {n : Nat} (h : n < 128) : (Char.ofNat n).toNat = n :=
  val_ofNat (by unfold Nat.isValidChar; omega)

theorem utf8EncodeChar_ascii {n : Nat} (h : n < 128) :
    String.utf8EncodeChar (Char.ofNat n) = [UInt8.ofNat n] := by
  have hv := val_ofNat (n := n) (by unfold Nat.isValidChar; omega)
  simp only [String.utf8EncodeChar, hv]
  rw [if_pos (by omega)]

/-- A character with an ASCII byte in it has the number of that byte. -/
theorem toNat_of_mem_ascii {c : Char} {x : UInt8} (hx : x < 0x80)
    (h : x ∈ String.utf8EncodeChar c) : c.toNat = x.toNat := by
  have hlt : x.toNat < 128 := UInt8.lt_iff_toNat_lt.mp hx
  have hc : encode [c] = encode [Char.ofNat x.toNat] := by
    rw [encode_cons, encode_nil, eq_singleton_of_mem_ascii hx h, encode_cons, encode_nil,
      utf8EncodeChar_ascii hlt, UInt8.ofNat_toNat]
  have hdec := decode_encode [c]
  rw [hc, decode_encode] at hdec
  rw [← List.singleton_inj.mp (Option.some.inj hdec), toNat_ofNat_ascii hlt]

theorem isAsciiUppercase_iff {b : UInt8} :
    isAsciiUppercase b = true ↔ 65 ≤ b.toNat ∧ b.toNat ≤ 90 := by
  simp [isAsciiUppercase, UInt8.le_iff_toNat_le]

/-- A character in lower case is its bytes in lower case. -/
theorem utf8EncodeChar_lowerChar (c : Char) :
    String.utf8EncodeChar (lowerChar c)
      = (String.utf8EncodeChar c).map SigV4.toAsciiLowercase := by
  unfold lowerChar
  split
  · rename_i h
    have hc : Char.ofNat c.toNat = c := ofNat_val c
    have hn : (UInt8.ofNat c.toNat).toNat = c.toNat := by
      rw [UInt8.toNat_ofNat']
      omega
    have hupper : isAsciiUppercase (UInt8.ofNat c.toNat) = true := by
      rw [isAsciiUppercase_iff, hn]
      exact h
    have hlower : SigV4.toAsciiLowercase (UInt8.ofNat c.toNat) = UInt8.ofNat (c.toNat + 32) := by
      unfold SigV4.toAsciiLowercase
      rw [if_pos hupper, UInt8.ofNat_add]
      rfl
    rw [utf8EncodeChar_ascii (by omega), ← hlower]
    conv => rhs; rw [← hc, utf8EncodeChar_ascii (by omega)]
    rfl
  · rename_i h
    have hid : (String.utf8EncodeChar c).map SigV4.toAsciiLowercase
        = (String.utf8EncodeChar c).map id := by
      refine List.map_congr_left fun b hb => ?_
      by_cases hlt : b < 0x80
      · have hnot : isAsciiUppercase b = false := by
          rw [Bool.eq_false_iff]
          intro hu
          rw [isAsciiUppercase_iff, ← toNat_of_mem_ascii hlt hb] at hu
          exact h hu
        exact toAsciiLowercase_of_not_upper hnot
      · exact toAsciiLowercase_hi b hlt
    rw [hid, List.map_id]

theorem encode_map_lowerChar (cs : List Char) :
    encode (cs.map lowerChar) = (encode cs).map SigV4.toAsciiLowercase := by
  induction cs with
  | nil => rfl
  | cons c cs ih =>
      rw [List.map_cons, encode_cons, encode_cons, List.map_append, utf8EncodeChar_lowerChar, ih]

theorem chars_toAsciiLowercase (s : Str) : s.toAsciiLowercase.chars = s.chars.map lowerChar := by
  refine chars_eq ?_
  rw [encode_map_lowerChar, encode_chars]
  rfl

/-- No letter is white space. -/
theorem isWhitespace_lowerChar (c : Char) : isWhitespace (lowerChar c) = isWhitespace c := by
  have hletter : ∀ c : Char, 65 ≤ c.toNat → c.toNat ≤ 122 → isWhitespace c = false := by
    intro c h1 h2
    simp only [isWhitespace, Bool.or_eq_false_iff, Bool.and_eq_false_iff, decide_eq_false_iff_not,
      beq_eq_false_iff_ne]
    omega
  unfold lowerChar
  split
  · rename_i h
    rw [hletter c h.1 (by omega), hletter]
    · rw [toNat_ofNat_ascii (by omega)]
      omega
    · rw [toNat_ofNat_ascii (by omega)]
      omega
  · rfl

/-- **What is trimmed stays trimmed in lower case.** -/
theorem trim_toAsciiLowercase_trim (s : Str) :
    s.trim.toAsciiLowercase.trim = s.trim.toAsciiLowercase := by
  refine ext ?_
  rw [trim_bytes, chars_toAsciiLowercase, chars_trim, trimList_map isWhitespace_lowerChar,
    trimList_trimList, encode_map_lowerChar]
  rfl

/-- **Lower case twice is lower case once.** -/
theorem toAsciiLowercase_toAsciiLowercase (s : Str) :
    s.toAsciiLowercase.toAsciiLowercase = s.toAsciiLowercase := by
  have hbyte : ∀ b : UInt8,
      SigV4.toAsciiLowercase (SigV4.toAsciiLowercase b) = SigV4.toAsciiLowercase b := by
    intro b
    cases hu : isAsciiUppercase b with
    | false => rw [toAsciiLowercase_of_not_upper hu, toAsciiLowercase_of_not_upper hu]
    | true =>
        have hrange := isAsciiUppercase_iff.mp hu
        have hlower : SigV4.toAsciiLowercase b = b + 0x20 := by
          unfold SigV4.toAsciiLowercase
          rw [if_pos hu]
        have hsum : (b + 0x20).toNat = b.toNat + 32 := by
          rw [UInt8.toNat_add]
          show (b.toNat + 32) % 256 = b.toNat + 32
          omega
        rw [hlower]
        refine toAsciiLowercase_of_not_upper ?_
        rw [Bool.eq_false_iff, ne_eq, isAsciiUppercase_iff, hsum]
        omega
  refine ext ?_
  rw [toAsciiLowercase_bytes, toAsciiLowercase_bytes, List.map_map]
  exact List.map_congr_left fun b _ => hbyte b

end Str

end SigV4
