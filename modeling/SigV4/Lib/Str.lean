import SigV4.Lib.Utf8

/-!
# `str`

`&str` and `String` as byte strings that carry the proof that they are UTF-8.
Each operation comes with one lemma that says what it does to the bytes; what
follows reasons about bytes only.
-/

namespace SigV4

open Outcome Utf8

variable {ε : Type}

/-- The bytes of a literal are UTF-8. -/
theorem valid_bytes (s : String) : Valid (bytes s) := by
  obtain ⟨m, hm⟩ := s.isValidUTF8
  refine valid_iff.mpr ⟨m, ?_⟩
  show encode m = s.toByteArray.data.toList
  rw [hm, List.utf8Encode, List.toList_data_toByteArray]
  rfl

/-- `&str`. -/
structure Str where
  bytes : Bytes
  valid : Valid bytes
  deriving DecidableEq

namespace Str

@[ext] theorem ext {s t : Str} (h : s.bytes = t.bytes) : s = t := by
  cases s; cases t; subst h; rfl

theorem eq_iff {s t : Str} : s = t ↔ s.bytes = t.bytes := ⟨congrArg bytes, ext⟩

/-- A string literal. -/
def lit (s : String) : Str := ⟨SigV4.bytes s, valid_bytes s⟩

@[simp] theorem lit_bytes (s : String) : (lit s).bytes = SigV4.bytes s := rfl

/-- `str::from_utf8(v).ok()`. -/
def fromUtf8 (v : Bytes) : Option Str := if h : Valid v then some ⟨v, h⟩ else none

theorem fromUtf8_eq_some {v : Bytes} {s : Str} : fromUtf8 v = some s ↔ s.bytes = v := by
  unfold fromUtf8
  split
  · rename_i h
    rw [Option.some.injEq, eq_iff, eq_comm]
  · rename_i h
    refine ⟨?_, ?_⟩
    · intro hc; exact absurd hc (by simp)
    · rintro rfl; exact absurd s.valid h

theorem fromUtf8_of_valid {v : Bytes} (h : Valid v) : fromUtf8 v = some ⟨v, h⟩ := by
  unfold fromUtf8; rw [dif_pos h]

theorem fromUtf8_bytes (s : Str) : fromUtf8 s.bytes = some s := fromUtf8_of_valid s.valid

/-- `""`. -/
def empty : Str := ⟨[], rfl⟩

def isEmpty (s : Str) : Bool := s.bytes.isEmpty

theorem isEmpty_iff {s : Str} : s.isEmpty = true ↔ s.bytes = [] := List.isEmpty_iff

/-- `s.len()`: the number of bytes. -/
def len (s : Str) : Nat := s.bytes.length

/-- `s.contains(c)` for an ASCII character. -/
def contains (s : Str) (c : UInt8) : Bool := s.bytes.contains c

def append (s t : Str) : Str := ⟨s.bytes ++ t.bytes, valid_append s.valid t.valid⟩

/-- `s.push(c)`. -/
def push (s : Str) (c : Char) : Str :=
  ⟨s.bytes ++ encode [c], valid_append s.valid (valid_encode [c])⟩

/-! ## Characters -/

/-- `s.chars()`. -/
def chars (s : Str) : List Char := (decode s.bytes).get s.valid

/-- The string of a list of characters. -/
def ofChars (cs : List Char) : Str := ⟨encode cs, valid_encode cs⟩

/-- `char::is_whitespace`: the Unicode property White_Space. -/
def isWhitespace (c : Char) : Bool :=
  let n := c.toNat
  (0x09 ≤ n && n ≤ 0x0D) || n == 0x20 || n == 0x85 || n == 0xA0 || n == 0x1680
    || (0x2000 ≤ n && n ≤ 0x200A) || n == 0x2028 || n == 0x2029 || n == 0x202F || n == 0x205F
    || n == 0x3000

/-- `s.trim()`. -/
def trim (s : Str) : Str :=
  ofChars ((s.chars.dropWhile isWhitespace).rdropWhile isWhitespace)

/-! ## ASCII case -/

/-- A byte map that keeps ASCII ASCII and everything else as it is keeps UTF-8. -/
theorem valid_map {f : UInt8 → UInt8} (hlo : ∀ b, b < 0x80 → f b < 0x80)
    (hhi : ∀ b, ¬b < 0x80 → f b = b) {v : Bytes} (hv : Valid v) : Valid (v.map f) := by
  obtain ⟨cs, rfl⟩ := valid_iff.mp hv
  induction cs with
  | nil => rfl
  | cons c cs ih =>
      rw [encode_cons, List.map_append]
      refine valid_append ?_ (ih (valid_encode cs))
      by_cases h : ∃ x ∈ String.utf8EncodeChar c, x < 0x80
      · obtain ⟨x, hx, hlt⟩ := h
        rw [eq_singleton_of_mem_ascii hlt hx]
        refine valid_of_ascii ?_
        intro b hb
        rw [List.map_singleton, List.mem_singleton] at hb
        subst hb; exact hlo x hlt
      · have hmap : (String.utf8EncodeChar c).map f = String.utf8EncodeChar c := by
          conv => rhs; rw [← List.map_id (String.utf8EncodeChar c)]
          refine List.map_congr_left ?_
          intro b hb
          exact hhi b (fun hlt => h ⟨b, hb, hlt⟩)
        rw [hmap]
        exact valid_iff.mpr ⟨[c], by simp⟩

/-- Changing the case keeps a byte on its side of ASCII. -/
theorem ascii_case : ∀ b : UInt8,
    (b < 0x80 → SigV4.toAsciiUppercase b < 0x80 ∧ SigV4.toAsciiLowercase b < 0x80)
      ∧ (¬b < 0x80 → SigV4.toAsciiUppercase b = b ∧ SigV4.toAsciiLowercase b = b) := by
  decide +kernel

theorem toAsciiUppercase_lt (b : UInt8) (h : b < 0x80) : SigV4.toAsciiUppercase b < 0x80 :=
  ((ascii_case b).1 h).1

theorem toAsciiUppercase_hi (b : UInt8) (h : ¬b < 0x80) : SigV4.toAsciiUppercase b = b :=
  ((ascii_case b).2 h).1

theorem toAsciiLowercase_lt (b : UInt8) (h : b < 0x80) : SigV4.toAsciiLowercase b < 0x80 :=
  ((ascii_case b).1 h).2

theorem toAsciiLowercase_hi (b : UInt8) (h : ¬b < 0x80) : SigV4.toAsciiLowercase b = b :=
  ((ascii_case b).2 h).2

/-- `s.to_ascii_uppercase()`. -/
def toAsciiUppercase (s : Str) : Str :=
  ⟨s.bytes.map SigV4.toAsciiUppercase, valid_map toAsciiUppercase_lt toAsciiUppercase_hi s.valid⟩

/-- `s.to_ascii_lowercase()`. -/
def toAsciiLowercase (s : Str) : Str :=
  ⟨s.bytes.map SigV4.toAsciiLowercase, valid_map toAsciiLowercase_lt toAsciiLowercase_hi s.valid⟩

@[simp] theorem toAsciiUppercase_bytes (s : Str) :
    s.toAsciiUppercase.bytes = s.bytes.map SigV4.toAsciiUppercase := rfl

@[simp] theorem toAsciiLowercase_bytes (s : Str) :
    s.toAsciiLowercase.bytes = s.bytes.map SigV4.toAsciiLowercase := rfl

/-! ## Splitting at an ASCII byte -/

theorem valid_of_mem_splitOn {x : UInt8} (hx : x < 0x80) {v : Bytes} (hv : Valid v) :
    ∀ p ∈ v.splitOn x, Valid p := by
  induction hn : v.length using Nat.strongRecOn generalizing v with
  | ind n ih =>
    intro p hp
    by_cases hm : x ∈ v
    · rw [splitOn_field hm] at hp
      obtain ⟨cs, hcs⟩ := valid_iff.mp hv
      rcases field_spec x v with ⟨hno, _⟩ | hs
      · exact absurd hm hno
      · obtain ⟨ha, hb⟩ := valid_split hx cs (hcs.trans hs)
        rcases List.mem_cons.mp hp with rfl | hp
        · exact ha
        · have hlt : (v.drop ((field x v).length + 1)).length < n := by
            have : 0 < v.length := List.length_pos_of_mem hm
            rw [List.length_drop]; omega
          exact ih _ hlt hb rfl p hp
    · rw [List.splitOn_eq_singleton hm, List.mem_singleton] at hp
      subst hp; exact hv

/-- `s.split(x)` for an ASCII character. -/
def split (s : Str) (x : UInt8) (hx : x < 0x80) : List Str :=
  (s.bytes.splitOn x).pmap Str.mk (valid_of_mem_splitOn hx s.valid)

theorem split_map_bytes (s : Str) {x : UInt8} (hx : x < 0x80) :
    (s.split x hx).map bytes = s.bytes.splitOn x := by
  unfold split
  rw [List.map_pmap]
  simp

theorem valid_field {x : UInt8} (hx : x < 0x80) {v : Bytes} (hv : Valid v) :
    Valid (field x v) ∧ (x ∈ v → Valid (v.drop ((field x v).length + 1))) := by
  rcases field_spec x v with ⟨hno, hf⟩ | hs
  · rw [hf]; exact ⟨hv, fun hm => absurd hm hno⟩
  · obtain ⟨cs, hcs⟩ := valid_iff.mp hv
    obtain ⟨ha, hb⟩ := valid_split hx cs (hcs.trans hs)
    exact ⟨ha, fun _ => hb⟩

/-- `s.split_once(x)` for an ASCII character. -/
def splitOnce (s : Str) (x : UInt8) (hx : x < 0x80) : Option (Str × Str) :=
  if h : x ∈ s.bytes then
    some (⟨field x s.bytes, (valid_field hx s.valid).1⟩,
      ⟨s.bytes.drop ((field x s.bytes).length + 1), (valid_field hx s.valid).2 h⟩)
  else none

/-- Cutting once at the first separator, read back. -/
theorem splitOnce_eq_some {s a b : Str} {x : UInt8} {hx : x < 0x80} :
    s.splitOnce x hx = some (a, b) ↔ s.bytes = a.bytes ++ x :: b.bytes ∧ x ∉ a.bytes := by
  unfold splitOnce
  refine ⟨?_, ?_⟩
  · intro h
    split at h
    · rename_i hm
      obtain ⟨ha, hb⟩ := Prod.mk.inj (Option.some.inj h)
      subst ha; subst hb
      refine ⟨?_, not_mem_field x s.bytes⟩
      rcases field_spec x s.bytes with ⟨hno, _⟩ | hs
      · exact absurd hm hno
      · exact hs
    · exact absurd h (by simp)
  · intro hcase
    obtain ⟨hs, hno⟩ := hcase
    have hm : x ∈ s.bytes := by rw [hs]; simp
    have hf : field x s.bytes = a.bytes := by rw [hs]; exact field_append_cons hno
    rw [dif_pos hm]
    have hd : s.bytes.drop ((field x s.bytes).length + 1) = b.bytes := by
      rw [hf, hs]; simp
    exact congrArg some (Prod.ext (Str.ext hf) (Str.ext hd))

/-! ## Slices -/

theorem valid_cut_bytes (s : Str) {i : Nat} (h : charBoundary s.bytes i = true) :
    Valid (s.bytes.take i) ∧ Valid (s.bytes.drop i) := by
  obtain ⟨cs, hcs⟩ := valid_iff.mp s.valid
  rw [← hcs] at h ⊢
  exact valid_cut cs i h

/-- `&s[i..]`. -/
def sliceFrom (s : Str) (i : Nat) : Outcome ε Str :=
  if h : charBoundary s.bytes i = true then ok ⟨s.bytes.drop i, (s.valid_cut_bytes h).2⟩
  else panic .charBoundary

/-- `&s[..i]`. -/
def sliceTo (s : Str) (i : Nat) : Outcome ε Str :=
  if h : charBoundary s.bytes i = true then ok ⟨s.bytes.take i, (s.valid_cut_bytes h).1⟩
  else panic .charBoundary

/-- An offset with an ASCII byte at it is a character boundary. -/
theorem charBoundary_of_ascii {v : Bytes} {i : Nat} {c : UInt8} (h : v[i]? = some c)
    (hc : c < 0x80) : charBoundary v i = true := by
  have hcont : continuation c = false := by
    cases hb : continuation c with
    | false => rfl
    | true =>
        have := (continuation_iff.mp hb).1
        rw [UInt8.lt_iff_toNat_lt] at hc
        have hc' : c.toNat < 0x80 := hc
        omega
  unfold charBoundary
  simp [h, hcont]

theorem sliceFrom_of_ascii {s : Str} {i : Nat} {c : UInt8} (h : s.bytes[i]? = some c)
    (hc : c < 0x80) :
    ∃ t : Str, sliceFrom (ε := ε) s i = ok t ∧ t.bytes = s.bytes.drop i := by
  unfold sliceFrom
  rw [dif_pos (charBoundary_of_ascii h hc)]
  exact ⟨_, rfl, rfl⟩

theorem sliceTo_of_ascii {s : Str} {i : Nat} {c : UInt8} (h : s.bytes[i]? = some c)
    (hc : c < 0x80) :
    ∃ t : Str, sliceTo (ε := ε) s i = ok t ∧ t.bytes = s.bytes.take i := by
  unfold sliceTo
  rw [dif_pos (charBoundary_of_ascii h hc)]
  exact ⟨_, rfl, rfl⟩

end Str

end SigV4
