import SigV4.Lib.Decimal
import SigV4.Lib.Str

/-!
# Duration text

A duration is written in groups: a number and its unit, where the last group may leave its
unit out and then counts seconds. `Written` carries that shape, and its value is an exact
sum, so that what the parser may overflow on has a meaning of its own.
-/

namespace SigV4.Spec

/-- A unit of time. -/
inductive TimeUnit where
  | second
  | minute
  | hour
  | day
  | week
  deriving DecidableEq, Repr

namespace TimeUnit

/-- The letter of a unit. -/
def letter : TimeUnit → UInt8
  | second => 0x73
  | minute => 0x6D
  | hour => 0x68
  | day => 0x64
  | week => 0x77

/-- The seconds of a unit. -/
def seconds : TimeUnit → Nat
  | second => 1
  | minute => 60
  | hour => 60 * 60
  | day => 24 * 60 * 60
  | week => 7 * 24 * 60 * 60

theorem seconds_pos (u : TimeUnit) : 1 ≤ u.seconds := by
  cases u <;> decide

theorem letter_not_digit (u : TimeUnit) : isAsciiDigit u.letter = false := by
  cases u <;> rfl

end TimeUnit

/-- A number in decimal digits, and its unit. -/
structure TimeGroup where
  digits : Bytes
  unit : Option TimeUnit
  nonempty : digits ≠ []
  decimal : digits.all isAsciiDigit = true

namespace TimeGroup

/-- How a group is written. -/
def text (g : TimeGroup) : Bytes := g.digits ++ (g.unit.map TimeUnit.letter).toList

/-- The seconds a group counts. -/
def seconds (g : TimeGroup) : Nat := Decimal.number g.digits * g.unit.elim 1 TimeUnit.seconds

theorem number_le_seconds (g : TimeGroup) : Decimal.number g.digits ≤ g.seconds := by
  have hpos : 1 ≤ g.unit.elim 1 TimeUnit.seconds := by
    cases g.unit with
    | none => exact Nat.le_refl 1
    | some u => exact u.seconds_pos
  exact Nat.le_mul_of_pos_right _ hpos

theorem text_length_pos (g : TimeGroup) : 0 < g.text.length :=
  List.length_pos_of_ne_nil (List.append_ne_nil_of_left_ne_nil g.nonempty _)

end TimeGroup

/-- What the front of a text can be: a group, digits without a unit, or no digit at all. -/
theorem front_cases (v : Bytes) :
    v = []
      ∨ (∃ g : TimeGroup, v = g.text ∧ g.unit = none)
      ∨ (∃ (g : TimeGroup) (rest : Bytes), v = g.text ++ rest ∧ g.unit ≠ none)
      ∨ (∃ (ds : Bytes) (u : UInt8) (rest : Bytes), v = ds ++ u :: rest ∧ ds ≠ []
        ∧ ds.all isAsciiDigit = true ∧ isAsciiDigit u = false ∧ ∀ t : TimeUnit, t.letter ≠ u)
      ∨ ∃ (c : UInt8) (rest : Bytes), v = c :: rest ∧ isAsciiDigit c = false := by
  cases v with
  | nil => exact Or.inl rfl
  | cons c v =>
      cases hc : isAsciiDigit c with
      | false => exact Or.inr (Or.inr (Or.inr (Or.inr ⟨c, v, rfl, hc⟩)))
      | true =>
          have hsplit : c :: v = (c :: v).takeWhile isAsciiDigit ++ (c :: v).dropWhile isAsciiDigit :=
            List.takeWhile_append_dropWhile.symm
          have hne : (c :: v).takeWhile isAsciiDigit ≠ [] := by
            rw [List.takeWhile_cons_of_pos hc]
            exact List.cons_ne_nil _ _
          have hds : ((c :: v).takeWhile isAsciiDigit).all isAsciiDigit = true := List.all_takeWhile
          cases hrest : (c :: v).dropWhile isAsciiDigit with
          | nil =>
              refine Or.inr (Or.inl ⟨⟨(c :: v).takeWhile isAsciiDigit, none, hne, hds⟩, ?_, rfl⟩)
              rw [hrest] at hsplit
              exact hsplit
          | cons u rest =>
              have hu : isAsciiDigit u = false := by
                have := List.head?_dropWhile_not isAsciiDigit (c :: v)
                rw [hrest] at this
                simpa using this
              rw [hrest] at hsplit
              by_cases ht : ∃ t : TimeUnit, t.letter = u
              · obtain ⟨t, rfl⟩ := ht
                refine Or.inr (Or.inr (Or.inl
                  ⟨⟨(c :: v).takeWhile isAsciiDigit, some t, hne, hds⟩, rest, ?_, by simp⟩))
                rw [TimeGroup.text, List.append_assoc]
                exact hsplit
              · exact Or.inr (Or.inr (Or.inr (Or.inl
                  ⟨_, u, rest, hsplit, hne, hds, hu, fun t h => ht ⟨t, h⟩⟩)))

/-- Only the last group leaves its unit out. -/
def OnlyLastBare : List TimeGroup → Prop
  | [] => True
  | [_] => True
  | g :: gs => g.unit ≠ none ∧ OnlyLastBare gs

theorem OnlyLastBare.tail {g : TimeGroup} {gs : List TimeGroup} (h : OnlyLastBare (g :: gs)) :
    OnlyLastBare gs := by
  cases gs with
  | nil => trivial
  | cons _ _ => exact h.2

theorem OnlyLastBare.cons {g : TimeGroup} {gs : List TimeGroup} (h : OnlyLastBare gs)
    (hg : g.unit ≠ none) : OnlyLastBare (g :: gs) := by
  cases gs with
  | nil => trivial
  | cons _ _ => exact ⟨hg, h⟩

/-- A group without a unit is the last one. -/
theorem OnlyLastBare.nil_of_bare {g : TimeGroup} {gs : List TimeGroup} (h : OnlyLastBare (g :: gs))
    (hg : g.unit = none) : gs = [] := by
  cases gs with
  | nil => rfl
  | cons _ _ => exact absurd hg h.1

/-- How groups are written. -/
def groupsText (gs : List TimeGroup) : Bytes := gs.flatMap TimeGroup.text

/-- The seconds groups count together. -/
def groupsSeconds : List TimeGroup → Nat
  | [] => 0
  | g :: gs => g.seconds + groupsSeconds gs

@[simp] theorem groupsText_cons (g : TimeGroup) (gs : List TimeGroup) :
    groupsText (g :: gs) = g.text ++ groupsText gs := rfl

@[simp] theorem groupsSeconds_cons (g : TimeGroup) (gs : List TimeGroup) :
    groupsSeconds (g :: gs) = g.seconds + groupsSeconds gs := rfl

theorem groups_length_le : ∀ gs : List TimeGroup, gs.length ≤ (groupsText gs).length
  | [] => Nat.le_refl 0
  | g :: gs => by
      have hpos := g.text_length_pos
      have ih := groups_length_le gs
      rw [groupsText_cons, List.length_cons, List.length_append]
      omega

/-- A duration as it is written. -/
structure Written where
  groups : List TimeGroup
  nonempty : groups ≠ []
  onlyLastBare : OnlyLastBare groups

namespace Written

def text (w : Written) : Bytes := groupsText w.groups

/-- The exact number of seconds. -/
def seconds (w : Written) : Nat := groupsSeconds w.groups

theorem text_ne_nil (w : Written) : w.text ≠ [] := by
  have hle := groups_length_le w.groups
  have hpos := List.length_pos_of_ne_nil w.nonempty
  exact List.ne_nil_of_length_pos (Nat.lt_of_lt_of_le hpos hle)

end Written

end SigV4.Spec
