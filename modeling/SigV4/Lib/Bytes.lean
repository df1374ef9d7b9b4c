import SigV4.Lib.Outcome
import Mathlib.Data.FinEnum
import Mathlib.Data.List.TakeWhile
import Mathlib.Tactic.Tauto

/-!
# Byte strings

`&[u8]` and `Vec<u8>` are lists of bytes. Indexing and slicing are checked: past
the end they panic. A `usize` index is a `Nat`, since a Rust slice holds at most
`isize::MAX` bytes and `i + 3` stays below `2^64`.

The second half is about fields. A scanner that looks for the next separator from
where it stands visits exactly the pieces of `splitOn`; `splitLoop_eq` says so
once for every such `while` loop.
-/

namespace SigV4

/-- `&[u8]`. -/
abbrev Bytes := List UInt8

/-- `b"..."`: the bytes of a literal. -/
def bytes (s : String) : Bytes := s.toUTF8.data.toList

namespace Ascii

abbrev tab : UInt8 := 0x09
abbrev lf : UInt8 := 0x0A
abbrev cr : UInt8 := 0x0D
abbrev space : UInt8 := 0x20
abbrev hash : UInt8 := 0x23
abbrev percent : UInt8 := 0x25
abbrev amp : UInt8 := 0x26
abbrev plus : UInt8 := 0x2B
abbrev hyphen : UInt8 := 0x2D
abbrev dot : UInt8 := 0x2E
abbrev slash : UInt8 := 0x2F
abbrev zero : UInt8 := 0x30
abbrev equals : UInt8 := 0x3D
abbrev question : UInt8 := 0x3F
abbrev upperA : UInt8 := 0x41
abbrev upperT : UInt8 := 0x54
abbrev upperZ : UInt8 := 0x5A
abbrev backslash : UInt8 := 0x5C
abbrev underscore : UInt8 := 0x5F
abbrev lowerA : UInt8 := 0x61
abbrev tilde : UInt8 := 0x7E
abbrev del : UInt8 := 0x7F

theorem slash_ne_percent : slash ≠ percent := by decide

end Ascii

/-! ## ASCII classes -/

/-- `u8::is_ascii_digit`. -/
def isAsciiDigit (c : UInt8) : Bool := 0x30 ≤ c && c ≤ 0x39

/-- `u8::is_ascii_lowercase`. -/
def isAsciiLowercase (c : UInt8) : Bool := 0x61 ≤ c && c ≤ 0x7A

/-- `u8::is_ascii_uppercase`. -/
def isAsciiUppercase (c : UInt8) : Bool := 0x41 ≤ c && c ≤ 0x5A

/-- `u8::is_ascii_alphanumeric`. -/
def isAsciiAlphanumeric (c : UInt8) : Bool :=
  isAsciiDigit c || isAsciiLowercase c || isAsciiUppercase c

/-- `u8::is_ascii_hexdigit`. -/
def isAsciiHexdigit (c : UInt8) : Bool :=
  isAsciiDigit c || (0x61 ≤ c && c ≤ 0x66) || (0x41 ≤ c && c ≤ 0x46)

/-- A byte that is no hex digit is none of them. -/
theorem hexdigit_ne {c d : UInt8} (hc : isAsciiHexdigit c = true) (hd : isAsciiHexdigit d = false) :
    c ≠ d := by
  intro h
  rw [h, hd] at hc
  exact Bool.noConfusion hc

/-- `u8::to_ascii_uppercase`. -/
def toAsciiUppercase (c : UInt8) : UInt8 := if isAsciiLowercase c then c - 0x20 else c

/-- `u8::to_ascii_lowercase`. -/
def toAsciiLowercase (c : UInt8) : UInt8 := if isAsciiUppercase c then c + 0x20 else c

theorem toAsciiUppercase_of_not_lower {c : UInt8} (h : isAsciiLowercase c = false) :
    toAsciiUppercase c = c := by
  unfold toAsciiUppercase; simp [h]

theorem toAsciiLowercase_of_not_upper {c : UInt8} (h : isAsciiUppercase c = false) :
    toAsciiLowercase c = c := by
  unfold toAsciiLowercase; simp [h]

/-! ## Order -/

/-- Byte strings compare byte by byte. -/
theorem compare_bytes_lt {a b : Bytes} : compare a b = .lt ↔ a < b := by
  induction a generalizing b with
  | nil => cases b <;> simp [compare, List.compareLex]
  | cons x a ih =>
      cases b with
      | nil => simp [compare, List.compareLex]
      | cons y b =>
          have hcons : compare (x :: a) (y :: b) = (compare x y).then (compare a b) :=
            List.compareLex_cons_cons
          rw [hcons, List.cons_lt_cons_iff, Ordering.then_eq_lt, Std.compare_eq_lt, ih,
            Std.LawfulEqOrd.compare_eq_iff_eq]

theorem compare_bytes_isLE {a b : Bytes} : (compare a b).isLE = true ↔ a ≤ b := by
  rw [Ordering.isLE_iff_eq_lt_or_eq_eq, compare_bytes_lt, Std.LawfulEqOrd.compare_eq_iff_eq]
  refine ⟨?_, ?_⟩
  · intro hcase
    rcases hcase with h | rfl
    · exact Std.le_of_lt h
    · exact List.le_refl a
  · intro h
    by_cases he : a = b
    · exact Or.inr he
    · exact Or.inl (Std.lt_of_le_of_ne h he)

/-- Byte strings of one length in front decide first. -/
theorem append_lt_append_iff : ∀ {a c : Bytes} (b d : Bytes), a.length = c.length →
    (a ++ b < c ++ d ↔ a < c ∨ (a = c ∧ b < d))
  | [], [], b, d, _ => by simp
  | [], _ :: _, _, _, h => absurd h (by simp)
  | _ :: _, [], _, _, h => absurd h (by simp)
  | x :: a, y :: c, b, d, h => by
      have ih := append_lt_append_iff b d (Nat.succ.inj h)
      rw [List.cons_append, List.cons_append, List.cons_lt_cons_iff, List.cons_lt_cons_iff, ih,
        List.cons.injEq]
      tauto

/-! ## Checked access -/

open Outcome

variable {ε ρ τ : Type}

/-- `v[i]`. -/
def index (v : Bytes) (i : Nat) : Outcome ε UInt8 :=
  match v[i]? with
  | some c => ok c
  | none => panic .index

/-- `&v[a..b]`. -/
def slice (v : Bytes) (a b : Nat) : Outcome ε Bytes :=
  if a ≤ b ∧ b ≤ v.length then ok ((v.drop a).take (b - a)) else panic .slice

/-- `a - b` on `u8`. -/
def subU8 (a b : UInt8) : Outcome ε UInt8 := if b ≤ a then ok (a - b) else panic .overflow

/-- `a + b` on `u8`. -/
def addU8 (a b : UInt8) : Outcome ε UInt8 :=
  if a.toNat + b.toNat < 256 then ok (a + b) else panic .overflow

theorem index_of_some {v : Bytes} {i : Nat} {c : UInt8} (h : v[i]? = some c) :
    index (ε := ε) v i = ok c := by
  unfold index; rw [h]

theorem slice_of_le {v : Bytes} {a b : Nat} (h : a ≤ b) (hb : b ≤ v.length) :
    slice (ε := ε) v a b = ok ((v.drop a).take (b - a)) := by
  unfold slice; rw [if_pos ⟨h, hb⟩]

theorem slice_to_end {v : Bytes} {a : Nat} (h : a ≤ v.length) :
    slice (ε := ε) v a v.length = ok (v.drop a) := by
  rw [slice_of_le h (Nat.le_refl _), List.take_of_length_le (by simp)]

/-- A position inside `v` has a byte, and the rest of `v` after it. -/
theorem drop_cons_of_lt {v : Bytes} {i : Nat} (h : i < v.length) :
    ∃ c, v[i]? = some c ∧ v.drop i = c :: v.drop (i + 1) :=
  ⟨v[i], List.getElem?_eq_getElem h, List.drop_eq_getElem_cons h⟩

/-! ## Fields -/

/-- The bytes up to the next separator. -/
def field (sep : UInt8) (v : Bytes) : Bytes := v.takeWhile (· != sep)

theorem not_mem_field (sep : UInt8) (v : Bytes) : sep ∉ field sep v := by
  intro h
  have := List.mem_takeWhile_imp h
  simp at this

theorem field_eq_of_not_mem {sep : UInt8} {v : Bytes} (h : sep ∉ v) : field sep v = v := by
  unfold field
  rw [List.takeWhile_eq_self_iff]
  intro x hx
  simp only [bne_iff_ne, ne_eq]
  exact fun he => h (he ▸ hx)

theorem field_append_cons {sep : UInt8} {a b : Bytes} (h : sep ∉ a) :
    field sep (a ++ sep :: b) = a := by
  unfold field
  rw [List.takeWhile_append_of_pos]
  · simp
  · intro x hx
    simp only [bne_iff_ne, ne_eq]
    exact fun he => h (he ▸ hx)

/-- Past its first field a byte string is over, or goes on with a separator. -/
theorem field_spec (sep : UInt8) (v : Bytes) :
    (sep ∉ v ∧ field sep v = v)
      ∨ (v = field sep v ++ sep :: v.drop ((field sep v).length + 1)) := by
  by_cases h : sep ∈ v
  · right
    obtain ⟨a, b, rfl, ha⟩ := List.eq_append_cons_of_mem h
    rw [field_append_cons ha]
    simp
  · exact Or.inl ⟨h, field_eq_of_not_mem h⟩

theorem field_length_le (sep : UInt8) (v : Bytes) : (field sep v).length ≤ v.length :=
  (List.takeWhile_sublist _).length_le

theorem splitOn_field {sep : UInt8} {v : Bytes} (h : sep ∈ v) :
    v.splitOn sep = field sep v :: (v.drop ((field sep v).length + 1)).splitOn sep := by
  rcases field_spec sep v with ⟨hn, _⟩ | hs
  · exact absurd h hn
  · conv => lhs; rw [hs]
    exact List.splitOn_append_cons_self_of_not_mem (not_mem_field sep v) _

/-- No field holds the separator. -/
theorem not_mem_of_mem_splitOn {sep : UInt8} : ∀ (n : Nat) {v : Bytes}, v.length ≤ n →
    ∀ s ∈ v.splitOn sep, sep ∉ s
  | n, v, hlen, s, hs => by
      by_cases h : sep ∈ v
      · rw [splitOn_field h] at hs
        rcases List.mem_cons.mp hs with rfl | hs
        · exact not_mem_field sep v
        · have hpos := List.length_pos_of_mem h
          have hdrop : (v.drop ((field sep v).length + 1)).length < v.length := by
            rw [List.length_drop]
            omega
          match n with
          | 0 => omega
          | n + 1 => exact not_mem_of_mem_splitOn n (by omega) s hs
      · rw [List.splitOn_eq_singleton h] at hs
        rw [List.mem_singleton.mp hs]
        exact h

/-- Splitting at two separators is splitting at one and then at the other. -/
theorem splitOnP_or (p q : UInt8 → Bool) (v : Bytes) :
    v.splitOnP (fun b => p b || q b) = (v.splitOnP p).flatMap (·.splitOnP q) := by
  induction v with
  | nil => rfl
  | cons c v ih =>
      obtain ⟨s, rest, hs⟩ := List.exists_cons_of_ne_nil (List.splitOnP_ne_nil p v)
      rw [List.splitOnP_cons_eq_if_modifyHead, List.splitOnP_cons_eq_if_modifyHead, ih, hs]
      cases hp : p c with
      | true => rfl
      | false =>
          have hsplit : (c :: s).splitOnP q
              = if q c then [] :: s.splitOnP q else (s.splitOnP q).modifyHead (c :: ·) :=
            List.splitOnP_cons_eq_if_modifyHead c s
          rw [Bool.false_or, if_neg Bool.false_ne_true, List.modifyHead_cons, List.flatMap_cons,
            List.flatMap_cons, hsplit]
          cases q c with
          | true => rfl
          | false =>
              -- both prepend to the first piece, and there is one
              obtain ⟨t, more, ht⟩ := List.exists_cons_of_ne_nil (List.splitOnP_ne_nil q s)
              rw [if_neg Bool.false_ne_true, if_neg Bool.false_ne_true, ht]
              rfl

theorem intercalate_eq_flatMap (x : UInt8) : ∀ (v : Bytes) (vs : List Bytes),
    [x].intercalate (v :: vs) = v ++ vs.flatMap (x :: ·)
  | v, [] => by simp
  | v, w :: vs => by
      rw [List.intercalate_cons_cons, intercalate_eq_flatMap x w vs, List.flatMap_cons]
      simp

/-- A byte of a joined text is a byte of a field, or the separator. -/
theorem mem_intercalate {x b : UInt8} {fields : List Bytes} (h : b ∈ [x].intercalate fields) :
    b = x ∨ ∃ v ∈ fields, b ∈ v := by
  cases fields with
  | nil => exact absurd h List.not_mem_nil
  | cons v vs =>
      rw [intercalate_eq_flatMap] at h
      rcases List.mem_append.mp h with h | h
      · exact Or.inr ⟨v, List.mem_cons_self, h⟩
      · obtain ⟨w, hw, h⟩ := List.mem_flatMap.mp h
        rcases List.mem_cons.mp h with h | h
        · exact Or.inl h
        · exact Or.inr ⟨w, List.mem_cons_of_mem _ hw, h⟩

/-- `v[start..].iter().position(|b| *b == sep).map(|rel| start + rel).unwrap_or(v.len())`. -/
def findFrom (v : Bytes) (start : Nat) (sep : UInt8) : Outcome ε Nat := do
  let tail ← slice v start v.length
  match tail.findIdx? (· == sep) with
  | some rel => ok (start + rel)
  | none => ok v.length

theorem findIdx?_field (sep : UInt8) (v : Bytes) :
    v.findIdx? (· == sep) = if sep ∈ v then some (field sep v).length else none := by
  induction v with
  | nil => rfl
  | cons c v ih =>
      rw [List.findIdx?_cons]
      by_cases hc : c = sep
      · subst hc; simp [field]
      · have hne : (c == sep) = false := by simpa using hc
        rw [hne, ih]
        by_cases hm : sep ∈ v
        · simp [hm, field, hc]
        · simp [hm, Ne.symm hc]

/-- The next separator stands where the current field ends. -/
theorem findFrom_eq {v : Bytes} {start : Nat} {sep : UInt8} (h : start ≤ v.length) :
    findFrom (ε := ε) v start sep = ok (start + (field sep (v.drop start)).length) := by
  unfold findFrom
  rw [slice_to_end h, ok_bind, findIdx?_field]
  by_cases hm : sep ∈ v.drop start
  · rw [if_pos hm]
  · rw [if_neg hm, field_eq_of_not_mem hm]
    simp only [List.length_drop]
    congr 1; omega

/--
**The rule for loops over fields.**

The state is where the next field starts, and an accumulator. `I` holds of the
starts the loop can stand on. If the body folds `g` over the field it stands on
and moves past the separator after it, the loop folds `g` over `splitOn`.
-/
theorem splitLoop_eq {v : Bytes} {x : UInt8} {B : Nat × τ → Outcome ε (Pass (Nat × τ) ρ)}
    {g : τ → Bytes → Outcome ε τ} {f : τ → ρ} {I : Nat → Prop}
    (hle : ∀ i, I i → i ≤ v.length)
    (hnext : ∀ i, I i → x ∈ v.drop i → I (i + (field x (v.drop i)).length + 1))
    (hbody : ∀ i t, I i → B (i, t) = (do
      let t' ← g t (field x (v.drop i))
      ok (.again (i + (field x (v.drop i)).length + 1, t'))))
    (hdone : ∀ i t, v.length < i → B (i, t) = ok (.leave (f t))) :
    ∀ (fuel i : Nat) (t : τ), I i → v.length + 1 - i < fuel →
      loop B fuel (i, t) = f <$> ((v.drop i).splitOn x).foldlM g t
  | 0, _, _, _, h => absurd h (Nat.not_lt_zero _)
  | fuel + 1, i, t, hI, hlt => by
      have hi := hle i hI
      rw [loop, hbody i t hI]
      by_cases hm : x ∈ v.drop i
      · -- a separator follows: the rest of the loop folds over the rest of the fields
        have ih := fun t' => splitLoop_eq hle hnext hbody hdone fuel
          (i + (field x (v.drop i)).length + 1) t' (hnext i hI hm) (by omega)
        rw [splitOn_field hm, List.foldlM_cons]
        cases g t (field x (v.drop i)) with
        | ok t' =>
            simp only [ok_bind]
            rw [ih t', List.drop_drop]
            congr 4
        | exit e => rfl
        | panic p => rfl
      · -- the last field: the next pass stands past the end
        rw [List.splitOn_eq_singleton hm, field_eq_of_not_mem hm]
        have hlen : (v.drop i).length = v.length - i := by simp
        cases fuel with
        | zero => omega
        | succ fuel =>
            simp only [List.foldlM_cons, List.foldlM_nil]
            cases g t (v.drop i) with
            | ok t' =>
                simp only [ok_bind, loop]
                rw [hdone _ t' (by omega)]; rfl
            | exit e => rfl
            | panic p => rfl

end SigV4
