import SigV4.Lib.Percent

/-!
# Hexadecimal text

Byte strings written as two digits a byte: written in lower case, read in either.
-/

namespace SigV4.Hex

open Ascii

/-- The lower-case digit of a value below sixteen. -/
def digit (n : UInt8) : UInt8 := if n < 10 then 0x30 + n else 0x61 + (n - 10)

/-- The two digits of a byte. -/
def pair (b : UInt8) : Bytes := [digit (b >>> 4), digit (b &&& 0x0F)]

/-- Two digits a byte. -/
def encode (v : Bytes) : Bytes := v.flatMap pair

@[simp] theorem encode_nil : encode [] = [] := rfl

theorem encode_cons (b : UInt8) (v : Bytes) : encode (b :: v) = pair b ++ encode v := rfl

/-- The byte two digits stand for. -/
def value (h l : UInt8) : UInt8 := Percent.hexVal h <<< 4 ||| Percent.hexVal l

/-- Two digits a byte, read back; `none` at anything else. -/
def decode : Bytes → Option Bytes
  | [] => some []
  | [_] => none
  | h :: l :: rest =>
    if isAsciiHexdigit h && isAsciiHexdigit l then (decode rest).map (value h l :: ·) else none

theorem isAsciiHexdigit_digit : ∀ n : UInt8, n < 16 → isAsciiHexdigit (digit n) = true :=
  Percent.forall_lt_sixteen (by decide)

theorem value_pair : ∀ b : UInt8, value (digit (b >>> 4)) (digit (b &&& 0x0F)) = b := by
  decide +kernel

/-- **Reading undoes writing.** -/
theorem decode_encode (v : Bytes) : decode (encode v) = some v := by
  induction v with
  | nil => rfl
  | cons b v ih =>
      have hh := isAsciiHexdigit_digit _ (Percent.shift_lt b)
      have hl := isAsciiHexdigit_digit _ (Percent.mask_lt b)
      rw [encode_cons, pair, List.cons_append, List.cons_append, List.nil_append, decode, hh, hl,
        Bool.and_self, if_pos rfl, ih, value_pair]
      rfl

theorem encode_injective {v w : Bytes} (h : encode v = encode w) : v = w := by
  have hv := decode_encode v
  rw [h, decode_encode] at hv
  exact (Option.some.inj hv).symm

theorem encode_length (v : Bytes) : (encode v).length = 2 * v.length := by
  induction v with
  | nil => rfl
  | cons b v ih =>
      rw [encode_cons, List.length_append, ih, List.length_cons]
      show 2 + 2 * v.length = 2 * (v.length + 1)
      omega

/-- Decoding goes two digits at a time, from either end. -/
theorem decode_snoc : ∀ (v : Bytes) (h l : UInt8), v.length % 2 = 0 →
    decode (v ++ [h, l]) = (decode v).bind fun d =>
      if isAsciiHexdigit h && isAsciiHexdigit l then some (d ++ [value h l]) else none
  | [], h, l, _ => by
      show decode [h, l] = _
      unfold decode
      cases isAsciiHexdigit h && isAsciiHexdigit l <;> rfl
  | [_], _, _, hlen => by
      simp at hlen
  | a :: b :: v, h, l, hlen => by
      have hlen' : v.length % 2 = 0 := by
        simp only [List.length_cons] at hlen
        omega
      rw [List.cons_append, List.cons_append, decode, decode, decode_snoc v h l hlen']
      cases isAsciiHexdigit a && isAsciiHexdigit b with
      | true =>
          rw [if_pos rfl, if_pos rfl]
          cases decode v with
          | none => rfl
          | some d =>
              cases isAsciiHexdigit h && isAsciiHexdigit l <;> rfl
      | false => rfl

theorem decode_length : ∀ {v d : Bytes}, decode v = some d → v.length = 2 * d.length
  | [], d, h => by
      rw [← Option.some.inj h]; rfl
  | [_], d, h => absurd h (by simp [decode])
  | a :: b :: v, d, h => by
      rw [decode] at h
      split at h
      · obtain ⟨e, he, rfl⟩ := Option.map_eq_some_iff.mp h
        have := decode_length he
        simp only [List.length_cons]
        omega
      · exact absurd h (by simp)

theorem digit_lt : ∀ n : UInt8, n < 16 → digit n < 0x80 :=
  Percent.forall_lt_sixteen (by decide)

/-- Written digits are ASCII. -/
theorem encode_ascii (v : Bytes) : ∀ b ∈ encode v, b < 0x80 := by
  intro b hb
  obtain ⟨a, _, ha⟩ := List.mem_flatMap.mp hb
  simp only [pair, List.mem_cons, List.not_mem_nil, or_false] at ha
  rcases ha with rfl | rfl
  · exact digit_lt _ (Percent.shift_lt a)
  · exact digit_lt _ (Percent.mask_lt a)

/-! ## Letter case -/

/-- Upper case makes no digit of what is none. -/
theorem isAsciiHexdigit_toAsciiUppercase (c : UInt8) :
    isAsciiHexdigit (toAsciiUppercase c) = isAsciiHexdigit c := by
  cases hc : isAsciiLowercase c with
  | false => rw [toAsciiUppercase_of_not_lower hc]
  | true =>
      unfold toAsciiUppercase
      rw [hc, if_pos rfl]
      unfold isAsciiLowercase at hc
      unfold isAsciiHexdigit isAsciiDigit
      have hle : (0x20 : UInt8) ≤ c := by
        simp only [Bool.and_eq_true, decide_eq_true_eq, UInt8.le_iff_toNat_le] at hc ⊢
        simp at hc ⊢
        omega
      rw [Bool.eq_iff_iff]
      simp only [Bool.and_eq_true, Bool.or_eq_true, decide_eq_true_eq, UInt8.le_iff_toNat_le,
        UInt8.toNat_sub_of_le _ _ hle] at hc ⊢
      simp at hc ⊢
      omega

/-- A byte gives back the two halves it is made of. -/
theorem halves {a b : UInt8} (ha : a < 16) (hb : b < 16) :
    (a <<< 4 ||| b) >>> 4 = a ∧ (a <<< 4 ||| b) &&& 0x0F = b := by
  have hall : ∀ a : UInt8, a < 16 → ∀ b : UInt8, b < 16 →
      (a <<< 4 ||| b) >>> 4 = a ∧ (a <<< 4 ||| b) &&& 0x0F = b :=
    Percent.forall_lt_sixteen fun n => Percent.forall_lt_sixteen (by revert n; decide)
  exact hall a ha b hb

/-- Two digits stand for a byte in one way, up to their case. -/
theorem value_injective {h l h' l' : UInt8} (hh : isAsciiHexdigit h = true)
    (hl : isAsciiHexdigit l = true) (hh' : isAsciiHexdigit h' = true)
    (hl' : isAsciiHexdigit l' = true) (heq : value h l = value h' l') :
    toAsciiUppercase h = toAsciiUppercase h' ∧ toAsciiUppercase l = toAsciiUppercase l' := by
  obtain ⟨h1, h2⟩ := halves (Percent.hexVal_lt h hh) (Percent.hexVal_lt l hl)
  obtain ⟨h1', h2'⟩ := halves (Percent.hexVal_lt h' hh') (Percent.hexVal_lt l' hl')
  have heq : Percent.hexVal h <<< 4 ||| Percent.hexVal l
      = Percent.hexVal h' <<< 4 ||| Percent.hexVal l' := heq
  rw [heq, h1'] at h1
  rw [heq, h2'] at h2
  rw [← Percent.hexDigit_hexVal h hh, ← Percent.hexDigit_hexVal h' hh', h1,
    ← Percent.hexDigit_hexVal l hl, ← Percent.hexDigit_hexVal l' hl', h2]
  exact ⟨rfl, rfl⟩

theorem decode_map_toAsciiUppercase : ∀ v : Bytes, decode (v.map toAsciiUppercase) = decode v
  | [] => rfl
  | [_] => rfl
  | h :: l :: rest => by
      rw [List.map_cons, List.map_cons, decode, decode, isAsciiHexdigit_toAsciiUppercase,
        isAsciiHexdigit_toAsciiUppercase, decode_map_toAsciiUppercase rest]
      cases hc : isAsciiHexdigit h && isAsciiHexdigit l with
      | false => rfl
      | true =>
          obtain ⟨hh, hl⟩ := Bool.and_eq_true_iff.mp hc
          unfold value
          rw [Percent.hexVal_toAsciiUppercase h hh, Percent.hexVal_toAsciiUppercase l hl]

theorem decode_cons_cons {h l : UInt8} {rest d : Bytes} (hd : decode (h :: l :: rest) = some d) :
    isAsciiHexdigit h = true ∧ isAsciiHexdigit l = true
      ∧ ∃ e, decode rest = some e ∧ d = value h l :: e := by
  rw [decode] at hd
  cases hc : isAsciiHexdigit h && isAsciiHexdigit l with
  | false =>
      rw [hc, if_neg Bool.false_ne_true] at hd
      exact absurd hd.symm (Option.some_ne_none d)
  | true =>
      rw [hc, if_pos rfl] at hd
      obtain ⟨e, he, rfl⟩ := Option.map_eq_some_iff.mp hd
      obtain ⟨hh, hl⟩ := Bool.and_eq_true_iff.mp hc
      exact ⟨hh, hl, e, he, rfl⟩

theorem decode_injective : ∀ {v w d : Bytes}, decode v = some d → decode w = some d →
    w.map toAsciiUppercase = v.map toAsciiUppercase
  | [], w, d, hv, hw => by
      have hlen := decode_length hw
      rw [← Option.some.inj hv] at hlen
      rw [List.eq_nil_of_length_eq_zero hlen]
  | [_], _, _, hv, _ => absurd hv.symm (Option.some_ne_none _)
  | h :: l :: rest, w, d, hv, hw => by
      obtain ⟨hh, hl, e, he, rfl⟩ := decode_cons_cons hv
      cases w with
      | nil => exact absurd (Option.some.inj hw).symm (List.cons_ne_nil _ _)
      | cons h' w =>
          cases w with
          | nil => exact absurd hw.symm (Option.some_ne_none _)
          | cons l' rest' =>
              obtain ⟨hh', hl', e', he', heq⟩ := decode_cons_cons hw
              obtain ⟨hvalue, rfl⟩ := List.cons.inj heq
              obtain ⟨h1, h2⟩ := value_injective hh' hl' hh hl hvalue.symm
              simp only [List.map_cons, h1, h2, decode_injective he he']

/-- **What is read is the digits, up to their case.** -/
theorem decode_eq_some_iff {v w d : Bytes} (hv : decode v = some d) :
    decode w = some d ↔ w.map toAsciiUppercase = v.map toAsciiUppercase := by
  refine ⟨decode_injective hv, ?_⟩
  intro h
  rw [← decode_map_toAsciiUppercase, h, decode_map_toAsciiUppercase, hv]

end SigV4.Hex
