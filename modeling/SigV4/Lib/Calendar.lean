import Mathlib.Logic.Function.Iterate
import Mathlib.Tactic.IntervalCases

/-!
# The Gregorian calendar

Days counted one year and one month at a time, from the first of January of year
zero. This is what a date means; the closed form is a lemma about it.
-/

namespace SigV4.Calendar

def leap (y : Nat) : Bool := y % 4 == 0 && (y % 100 != 0 || y % 400 == 0)

def yearLength (y : Nat) : Nat := if leap y then 366 else 365

/-- The days of a month, from 1 for January. -/
def monthLength (y m : Nat) : Nat :=
  if m = 2 then if leap y then 29 else 28
  else if m = 4 ∨ m = 6 ∨ m = 9 ∨ m = 11 then 30
  else 31

/-- The days of all years before `y`. -/
def daysBeforeYear : Nat → Nat
  | 0 => 0
  | y + 1 => daysBeforeYear y + yearLength y

/-- The days of the first `m` months of a year. -/
def daysOfMonths (y : Nat) : Nat → Nat
  | 0 => 0
  | m + 1 => daysOfMonths y m + monthLength y (m + 1)

/-- The days before a date. -/
def dayNumber (y m d : Nat) : Nat := daysBeforeYear y + daysOfMonths y (m - 1) + (d - 1)

/-- Seconds from the Unix epoch to a time of day on a date. -/
def epochSeconds (y m d hour minute second : Nat) : Int :=
  ((dayNumber y m d : Int) - dayNumber 1970 1 1) * 86400 + hour * 3600 + minute * 60 + second

/-- A date that exists. -/
def IsDate (y m d : Nat) : Prop := 1 ≤ m ∧ m ≤ 12 ∧ 1 ≤ d ∧ d ≤ monthLength y m

instance (y m d : Nat) : Decidable (IsDate y m d) :=
  inferInstanceAs (Decidable (1 ≤ m ∧ m ≤ 12 ∧ 1 ≤ d ∧ d ≤ monthLength y m))

theorem leap_iff {y : Nat} : leap y = true ↔ y % 4 = 0 ∧ (y % 100 ≠ 0 ∨ y % 400 = 0) := by
  simp [leap]

/-- How often a period begins in the years up to `y`. -/
theorem div_succ (y k : Nat) (hk : 0 < k) :
    (y + 1 + (k - 1)) / k = (y + (k - 1)) / k + if y % k = 0 then 1 else 0 := by
  have hstep : y + 1 + (k - 1) = y + k := by omega
  rw [hstep, Nat.add_div_right y hk]
  by_cases h : y % k = 0
  · obtain ⟨q, rfl⟩ := Nat.dvd_of_mod_eq_zero h
    rw [if_pos h, Nat.mul_div_cancel_left q hk, Nat.mul_add_div hk,
      Nat.div_eq_of_lt (by omega : k - 1 < k)]
  · have hdecomp := Nat.div_add_mod y k
    have hlt := Nat.mod_lt y hk
    rw [if_neg h]
    have hsplit : y + (k - 1) = k * (y / k + 1) + (y % k - 1) := by
      rw [Nat.mul_add, Nat.mul_one]
      omega
    rw [hsplit, Nat.mul_add_div hk, Nat.div_eq_of_lt (by omega : y % k - 1 < k)]

/-- The closed form. -/
theorem daysBeforeYear_eq (y : Nat) :
    daysBeforeYear y + (y + 99) / 100 = 365 * y + (y + 3) / 4 + (y + 399) / 400 := by
  induction y with
  | zero => rfl
  | succ y ih =>
      have h4 := div_succ y 4 (by omega)
      have h100 := div_succ y 100 (by omega)
      have h400 := div_succ y 400 (by omega)
      simp only [Nat.reduceSub] at h4 h100 h400
      rw [daysBeforeYear, h4, h100, h400, yearLength]
      by_cases h : leap y = true
      · have hl := leap_iff.mp h
        rw [if_pos h, if_pos hl.1]
        by_cases hy : y % 100 = 0
        · have hy' := hl.2.resolve_left fun hn => hn hy
          rw [if_pos hy, if_pos hy']
          omega
        · rw [if_neg hy, if_neg (by omega : ¬y % 400 = 0)]
          omega
      · have hl : ¬(y % 4 = 0 ∧ (y % 100 ≠ 0 ∨ y % 400 = 0)) := fun hc => h (leap_iff.mpr hc)
        rw [if_neg h]
        by_cases hy : y % 4 = 0
        · have hy100 : y % 100 = 0 := by omega
          rw [if_pos hy, if_pos hy100, if_neg (by omega : ¬y % 400 = 0)]
          omega
        · rw [if_neg hy, if_neg (by omega : ¬y % 100 = 0), if_neg (by omega : ¬y % 400 = 0)]
          omega

/-- The closed form at the end of a year. -/
theorem daysBeforeYear_succ (y : Nat) :
    daysBeforeYear (y + 1) + y / 100 = 365 * (y + 1) + y / 4 + y / 400 + 1 := by
  have h := daysBeforeYear_eq (y + 1)
  have h4 := Nat.add_div_right y (by omega : 0 < 4)
  have h100 := Nat.add_div_right y (by omega : 0 < 100)
  have h400 := Nat.add_div_right y (by omega : 0 < 400)
  rw [show y + 1 + 99 = y + 100 by omega, show y + 1 + 3 = y + 4 by omega,
    show y + 1 + 399 = y + 400 by omega, h4, h100, h400] at h
  omega

theorem one_le_monthLength (y m : Nat) : 1 ≤ monthLength y m := by
  unfold monthLength
  split
  · split <;> omega
  · split <;> omega

theorem monthLength_le (y m : Nat) : monthLength y m ≤ 31 := by
  unfold monthLength
  split
  · split <;> omega
  · split <;> omega

/-- The days before each month, by the month's own formula. -/
theorem daysOfMonths_eq (y : Nat) {m : Nat} (h1 : 1 ≤ m) (h12 : m ≤ 12) :
    daysOfMonths y (m - 1) = if m ≤ 2 then 31 * (m - 1)
      else (153 * (m - 3) + 2) / 5 + 59 + if leap y then 1 else 0 := by
  cases hl : leap y <;> interval_cases m <;> simp [daysOfMonths, monthLength, hl]

theorem dayNumber_epoch : dayNumber 1970 1 1 = 719528 := by
  have h := daysBeforeYear_eq 1970
  have hm : daysOfMonths 1970 (1 - 1) = 0 := rfl
  unfold dayNumber
  omega

/-! ## The order of dates -/

theorem daysOfMonths_mono (y : Nat) {m n : Nat} (h : m ≤ n) :
    daysOfMonths y m ≤ daysOfMonths y n := by
  induction h with
  | refl => exact Nat.le_refl _
  | step _ ih => exact Nat.le_trans ih (Nat.le_add_right _ _)

theorem daysBeforeYear_mono {y z : Nat} (h : y ≤ z) : daysBeforeYear y ≤ daysBeforeYear z := by
  induction h with
  | refl => exact Nat.le_refl _
  | step _ ih => exact Nat.le_trans ih (Nat.le_add_right _ _)

/-- The months make up the year. -/
theorem daysOfMonths_twelve (y : Nat) : daysOfMonths y 12 = yearLength y := by
  cases hl : leap y <;> simp [daysOfMonths, monthLength, yearLength, hl]

/-- A day of a month comes before the next month. -/
theorem daysOfMonths_add_lt {y m d : Nat} (h : IsDate y m d) :
    daysOfMonths y (m - 1) + (d - 1) < daysOfMonths y m := by
  obtain ⟨hm, _, hd, hle⟩ := h
  have hstep : daysOfMonths y (m - 1 + 1)
    = daysOfMonths y (m - 1) + monthLength y (m - 1 + 1) := rfl
  rw [Nat.sub_add_cancel hm] at hstep
  omega

/-- A day of a year comes before the next year. -/
theorem dayNumber_lt {y m d : Nat} (h : IsDate y m d) :
    dayNumber y m d < daysBeforeYear (y + 1) := by
  have hmonth := daysOfMonths_add_lt h
  have hyear := daysOfMonths_mono y h.2.1
  rw [daysOfMonths_twelve] at hyear
  have hnext : daysBeforeYear (y + 1) = daysBeforeYear y + yearLength y := rfl
  have hnum : dayNumber y m d = daysBeforeYear y + daysOfMonths y (m - 1) + (d - 1) := rfl
  omega

/-- Years, then months, then days. -/
def Before (y m d y' m' d' : Nat) : Prop :=
  y < y' ∨ (y = y' ∧ (m < m' ∨ (m = m' ∧ d < d')))

/-- **The earlier date has the smaller number.** -/
theorem dayNumber_lt_of_before {y m d y' m' d' : Nat} (h : IsDate y m d) (h' : IsDate y' m' d')
    (hb : Before y m d y' m' d') : dayNumber y m d < dayNumber y' m' d' := by
  have hnum : dayNumber y m d = daysBeforeYear y + daysOfMonths y (m - 1) + (d - 1) := rfl
  have hnum' : dayNumber y' m' d' = daysBeforeYear y' + daysOfMonths y' (m' - 1) + (d' - 1) := rfl
  rcases hb with hy | ⟨rfl, hm | ⟨rfl, hd⟩⟩
  · have hlast := dayNumber_lt h
    have hmono := daysBeforeYear_mono (Nat.succ_le_of_lt hy)
    rw [Nat.succ_eq_add_one] at hmono
    omega
  · have hmonth := daysOfMonths_add_lt h
    have hmono := daysOfMonths_mono y (Nat.le_sub_one_of_lt hm)
    omega
  · have hpos := h.2.2.1
    omega

theorem before_trichotomy (y m d y' m' d' : Nat) :
    Before y m d y' m' d' ∨ (y = y' ∧ m = m' ∧ d = d') ∨ Before y' m' d' y m d := by
  unfold Before
  omega

/-! ## The next day -/

/-- A date. -/
structure Date where
  year : Nat
  month : Nat
  day : Nat
  isDate : IsDate year month day

namespace Date

/-- The days before a date. -/
def number (t : Date) : Nat := dayNumber t.year t.month t.day

/-- The date after a date: the next day of the month, the first of the next month, or the
first of January. -/
def next (t : Date) : Date :=
  if hd : t.day < monthLength t.year t.month then
    ⟨t.year, t.month, t.day + 1, t.isDate.1, t.isDate.2.1, Nat.le_add_left 1 _, hd⟩
  else if hm : t.month < 12 then
    ⟨t.year, t.month + 1, 1, Nat.le_add_left 1 _, hm, Nat.le_refl 1, one_le_monthLength _ _⟩
  else
    ⟨t.year + 1, 1, 1, Nat.le_refl 1, by omega, Nat.le_refl 1, one_le_monthLength _ _⟩

/-- The first of January 1970. -/
def epoch : Date := ⟨1970, 1, 1, by decide⟩

/-- **A date is one day before the next.** -/
theorem number_next (t : Date) : t.next.number = t.number + 1 := by
  obtain ⟨hm, hm12, hd, hle⟩ := t.isDate
  have hstep : daysOfMonths t.year (t.month - 1 + 1)
    = daysOfMonths t.year (t.month - 1) + monthLength t.year (t.month - 1 + 1) := rfl
  rw [Nat.sub_add_cancel hm] at hstep
  unfold number next dayNumber
  by_cases hday : t.day < monthLength t.year t.month
  · rw [dif_pos hday]
    dsimp only
    omega
  · rw [dif_neg hday]
    by_cases hmonth : t.month < 12
    · rw [dif_pos hmonth]
      dsimp only
      rw [Nat.add_sub_cancel]
      omega
    · -- the last day of December
      have hdec : t.month = 12 := by omega
      have hyear := daysOfMonths_twelve t.year
      have hnext : daysBeforeYear (t.year + 1) = daysBeforeYear t.year + yearLength t.year := rfl
      have hzero : daysOfMonths (t.year + 1) 0 = 0 := rfl
      rw [dif_neg hmonth]
      dsimp only
      rw [hdec] at hstep hday hle ⊢
      rw [Nat.sub_self, hzero]
      omega

theorem number_injective {t u : Date} (h : t.number = u.number) : t = u := by
  have hfields : t.year = u.year ∧ t.month = u.month ∧ t.day = u.day := by
    rcases before_trichotomy t.year t.month t.day u.year u.month u.day with hb | he | hb
    · have hlt := dayNumber_lt_of_before t.isDate u.isDate hb
      exact absurd h (Nat.ne_of_lt hlt)
    · exact he
    · have hlt := dayNumber_lt_of_before u.isDate t.isDate hb
      exact absurd h (Nat.ne_of_gt hlt)
  cases t
  cases u
  simp only [Date.mk.injEq]
  exact hfields

theorem number_iterate (k : Nat) (t : Date) : (next^[k] t).number = t.number + k := by
  induction k with
  | zero => rfl
  | succ k ih => rw [Function.iterate_succ_apply', number_next, ih, Nat.add_assoc]

/-- **Numbers count days**: from a date to a later one the next day is taken as often as
their numbers differ. -/
theorem iterate_eq_iff {k : Nat} {t u : Date} : next^[k] t = u ↔ u.number = t.number + k := by
  refine ⟨?_, ?_⟩
  · rintro rfl
    exact number_iterate k t
  · intro h
    exact number_injective ((number_iterate k t).trans h.symm)

end Date

/-- `t` is `n` days after the epoch, or `-n` days before it. -/
def Counts (n : Int) (t : Date) : Prop :=
  (0 ≤ n ∧ Date.next^[n.toNat] .epoch = t) ∨ (n ≤ 0 ∧ Date.next^[(-n).toNat] t = .epoch)

theorem counts_iff {n : Int} {t : Date} :
    Counts n t ↔ n = (t.number : Int) - Date.epoch.number := by
  unfold Counts
  rw [Date.iterate_eq_iff, Date.iterate_eq_iff]
  omega

end SigV4.Calendar
