import SigV4.Lib.Bytes

/-!
# Decimal text

Numbers written in decimal digits: at a fixed width, as dates write them, and without
leading zeros. `number` reads either back.
-/

namespace SigV4.Decimal

/-- The value of a digit. -/
def digitValue (b : UInt8) : Nat := b.toNat - 0x30

/-- The digit of a value below ten. -/
def digit (n : Nat) : UInt8 := UInt8.ofNat (0x30 + n)

/-- The number a string of digits stands for. -/
def number (v : Bytes) : Nat := v.foldl (fun out b => out * 10 + digitValue b) 0

theorem isAsciiDigit_iff {b : UInt8} :
    isAsciiDigit b = true ↔ 0x30 ≤ b.toNat ∧ b.toNat ≤ 0x39 := by
  simp [isAsciiDigit, UInt8.le_iff_toNat_le]

theorem digit_toNat {n : Nat} (h : n < 10) : (digit n).toNat = 0x30 + n := by
  unfold digit
  simp only [UInt8.toNat_ofNat']
  omega

theorem isAsciiDigit_digit {n : Nat} (h : n < 10) : isAsciiDigit (digit n) = true := by
  rw [isAsciiDigit_iff, digit_toNat h]
  omega

theorem digitValue_digit {n : Nat} (h : n < 10) : digitValue (digit n) = n := by
  unfold digitValue
  rw [digit_toNat h]
  omega

theorem digitValue_lt {b : UInt8} (h : isAsciiDigit b = true) : digitValue b < 10 := by
  have := isAsciiDigit_iff.mp h
  unfold digitValue
  omega

theorem digit_digitValue {b : UInt8} (h : isAsciiDigit b = true) : digit (digitValue b) = b := by
  have hb := isAsciiDigit_iff.mp h
  refine UInt8.toNat_inj.mp ?_
  rw [digit_toNat (digitValue_lt h)]
  unfold digitValue
  omega

theorem zero_le_digit {b : UInt8} (h : isAsciiDigit b = true) : Ascii.zero ≤ b := by
  rw [UInt8.le_iff_toNat_le]
  exact (isAsciiDigit_iff.mp h).1

/-- `b - b'0'` does not overflow at a digit. -/
theorem subU8_digit {ε : Type} {b : UInt8} (h : isAsciiDigit b = true) :
    subU8 (ε := ε) b Ascii.zero = Outcome.ok (b - Ascii.zero) := by
  unfold subU8
  exact if_pos (zero_le_digit h)

theorem toNat_sub_zero {b : UInt8} (h : isAsciiDigit b = true) :
    (b - Ascii.zero).toNat = digitValue b := by
  rw [UInt8.toNat_sub_of_le _ _ (zero_le_digit h)]
  rfl

@[simp] theorem number_nil : number [] = 0 := rfl

theorem number_snoc (v : Bytes) (b : UInt8) : number (v ++ [b]) = number v * 10 + digitValue b := by
  unfold number
  rw [List.foldl_append]
  rfl

theorem number_lt {v : Bytes} (h : v.all isAsciiDigit = true) : number v < 10 ^ v.length := by
  induction v using List.reverseRecOn with
  | nil => simp
  | append_singleton v b ih =>
      rw [List.all_append, Bool.and_eq_true] at h
      have hv := ih h.1
      have hb := digitValue_lt (b := b) (by simpa using h.2)
      rw [number_snoc, List.length_append, List.length_singleton, Nat.pow_succ]
      omega

/-! ## Fixed width -/

/-- The last `w` digits of a number. -/
def fixed : Nat → Nat → Bytes
  | 0, _ => []
  | w + 1, n => fixed w (n / 10) ++ [digit (n % 10)]

theorem fixed_length : ∀ w n, (fixed w n).length = w
  | 0, _ => rfl
  | w + 1, n => by rw [fixed, List.length_append, fixed_length w]; rfl

theorem fixed_digits : ∀ w n, (fixed w n).all isAsciiDigit = true
  | 0, _ => rfl
  | w + 1, n => by
      rw [fixed, List.all_append, fixed_digits w]
      simp [isAsciiDigit_digit (Nat.mod_lt n (by omega : 10 > 0))]

theorem number_fixed : ∀ {w n : Nat}, n < 10 ^ w → number (fixed w n) = n
  | 0, n, h => by
      rw [Nat.pow_zero] at h
      show 0 = n
      omega
  | w + 1, n, h => by
      rw [Nat.pow_succ] at h
      rw [fixed, number_snoc, number_fixed (by omega),
        digitValue_digit (Nat.mod_lt n (by omega : 10 > 0))]
      omega

/-- **Digits are their number at their own width.** -/
theorem fixed_number {v : Bytes} (h : v.all isAsciiDigit = true) :
    fixed v.length (number v) = v := by
  induction v using List.reverseRecOn with
  | nil => rfl
  | append_singleton v b ih =>
      rw [List.all_append, Bool.and_eq_true] at h
      have hb : isAsciiDigit b = true := by simpa using h.2
      have hlt := digitValue_lt hb
      rw [number_snoc, List.length_append, List.length_singleton, fixed,
        show (number v * 10 + digitValue b) / 10 = number v by omega,
        show (number v * 10 + digitValue b) % 10 = digitValue b by omega, ih h.1,
        digit_digitValue hb]

theorem fixed_injective {w m n : Nat} (hm : m < 10 ^ w) (hn : n < 10 ^ w)
    (h : fixed w m = fixed w n) : m = n := by
  rw [← number_fixed hm, h, number_fixed hn]

/-- **Digits of one width compare as their numbers.** -/
theorem fixed_lt_iff : ∀ {w m n : Nat}, m < 10 ^ w → n < 10 ^ w →
    (fixed w m < fixed w n ↔ m < n)
  | 0, m, n, hm, hn => by
      rw [Nat.pow_zero] at hm hn
      have hnil : ¬fixed 0 m < fixed 0 n := List.lt_irrefl []
      exact ⟨fun h => absurd h hnil, fun h => by omega⟩
  | w + 1, m, n, hm, hn => by
      rw [Nat.pow_succ] at hm hn
      have hm' : m / 10 < 10 ^ w := by omega
      have hn' : n / 10 < 10 ^ w := by omega
      have hlen : (fixed w (m / 10)).length = (fixed w (n / 10)).length := by
        rw [fixed_length, fixed_length]
      have hlast : [digit (m % 10)] < [digit (n % 10)] ↔ m % 10 < n % 10 := by
        have hmd := digit_toNat (Nat.mod_lt m (by omega : 10 > 0))
        have hnd := digit_toNat (Nat.mod_lt n (by omega : 10 > 0))
        rw [List.cons_lt_cons_iff, UInt8.lt_iff_toNat_lt, hmd, hnd]
        simp
      have heq : fixed w (m / 10) = fixed w (n / 10) ↔ m / 10 = n / 10 :=
        ⟨fixed_injective hm' hn', fun h => by rw [h]⟩
      rw [fixed, fixed, append_lt_append_iff _ _ hlen, fixed_lt_iff hm' hn', heq, hlast]
      omega

/-! ## Without leading zeros -/

/-- The digits of a number, at most `fuel + 1` of them. -/
def writeFuel : Nat → Nat → Bytes
  | 0, n => [digit (n % 10)]
  | fuel + 1, n => if n < 10 then [digit n] else writeFuel fuel (n / 10) ++ [digit (n % 10)]

/-- The digits of a number. -/
def write (n : Nat) : Bytes := writeFuel n n

theorem writeFuel_digits : ∀ fuel n, (writeFuel fuel n).all isAsciiDigit = true
  | 0, n => by simp [writeFuel, isAsciiDigit_digit (Nat.mod_lt n (by omega : 10 > 0))]
  | fuel + 1, n => by
      rw [writeFuel]
      split
      · rename_i h
        simp [isAsciiDigit_digit h]
      · rw [List.all_append, writeFuel_digits fuel]
        simp [isAsciiDigit_digit (Nat.mod_lt n (by omega : 10 > 0))]

theorem number_writeFuel : ∀ {fuel n : Nat}, n ≤ fuel → number (writeFuel fuel n) = n
  | 0, n, h => by
      obtain rfl : n = 0 := by omega
      rfl
  | fuel + 1, n, h => by
      rw [writeFuel]
      split
      · rename_i hn
        show 0 * 10 + digitValue (digit n) = n
        rw [digitValue_digit hn]
        omega
      · rw [number_snoc, number_writeFuel (by omega),
          digitValue_digit (Nat.mod_lt n (by omega : 10 > 0))]
        omega

theorem write_digits (n : Nat) : (write n).all isAsciiDigit = true := writeFuel_digits n n

theorem number_write (n : Nat) : number (write n) = n := number_writeFuel (Nat.le_refl n)

theorem write_ne_nil (n : Nat) : write n ≠ [] := by
  unfold write
  cases n with
  | zero => exact List.cons_ne_nil _ _
  | succ n =>
      rw [writeFuel]
      split
      · exact List.cons_ne_nil _ _
      · exact List.append_ne_nil_of_right_ne_nil _ (List.cons_ne_nil _ _)

/-- Digits are ASCII. -/
theorem digits_ascii {v : Bytes} (h : v.all isAsciiDigit = true) : ∀ b ∈ v, b < 0x80 := by
  intro b hb
  have := isAsciiDigit_iff.mp (List.all_eq_true.mp h b hb)
  rw [UInt8.lt_iff_toNat_lt]
  show b.toNat < 128
  omega

end SigV4.Decimal
