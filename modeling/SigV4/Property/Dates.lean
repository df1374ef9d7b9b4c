import SigV4.Proof.Answer

/-!
# Dates are exact

`days_from_civil` computes in closed form what the calendar defines by succession: how
often the next day is taken from the epoch to a date. So `parse_amz_date` accepts the real
dates and no other, its seconds are the Unix time, and two accepted dates compare as their
sixteen bytes do.
-/

namespace SigV4

open Outcome Ascii Spec Calendar Decimal

variable {ε : Type}

/-! ## Days -/

/-- **`days_from_civil` counts the days from the epoch.** -/
theorem daysFromCivil_counts {t : Date} (h : t.year ≤ 2147483647) :
    ∃ n, daysFromCivil (ε := ε) t.year t.month t.day = ok n ∧ Counts n t :=
  ⟨_, daysFromCivil_eq h t.isDate, counts_iff.mpr rfl⟩

/-- The year does not go down from one day to the next. -/
theorem year_le_next (t : Date) : t.year ≤ t.next.year := by
  unfold Date.next
  by_cases hd : t.day < monthLength t.year t.month
  · rw [dif_pos hd]
  · rw [dif_neg hd]
    by_cases hm : t.month < 12
    · rw [dif_pos hm]
    · rw [dif_neg hm]
      exact Nat.le_succ _

/-- **A day later, a day more.** -/
theorem daysFromCivil_next {t : Date} (h : t.next.year ≤ 2147483647) :
    ∃ n, daysFromCivil (ε := ε) t.year t.month t.day = ok n
      ∧ daysFromCivil (ε := ε) t.next.year t.next.month t.next.day = ok (n + 1) := by
  have hnext := t.number_next
  refine ⟨_, daysFromCivil_eq (Nat.le_trans (year_le_next t) h) t.isDate, ?_⟩
  rw [daysFromCivil_eq h t.next.isDate]
  refine congrArg ok ?_
  unfold Date.number at hnext
  omega

/-! ## The order of instants -/

namespace Spec.Instant

/-- The date of an instant. -/
def calendarDate (i : Instant) : Date := ⟨i.year, i.month, i.day, i.isDate⟩

/-- The seconds since midnight. -/
def secondsOfDay (i : Instant) : Nat := i.hour * 3600 + i.minute * 60 + i.second

theorem epochSeconds_eq (i : Instant) : i.epochSeconds
    = ((i.calendarDate.number : Int) - Date.epoch.number) * 86400 + i.secondsOfDay := by
  have hsecs : i.epochSeconds = ((Calendar.dayNumber i.year i.month i.day : Int)
      - Calendar.dayNumber 1970 1 1) * 86400 + i.hour * 3600 + i.minute * 60 + i.second := rfl
  have hday : i.calendarDate.number = Calendar.dayNumber i.year i.month i.day := rfl
  have hepoch : Date.epoch.number = Calendar.dayNumber 1970 1 1 := rfl
  rw [hsecs, hday, hepoch, secondsOfDay]
  push_cast
  omega

theorem secondsOfDay_lt (i : Instant) : i.secondsOfDay < 86400 := by
  have hhour := i.hour_le
  have hmin := i.minute_le
  have hsec := i.second_le
  unfold secondsOfDay
  omega

/-- The bytes of a date compare as year, month and day do. -/
theorem date_lt_iff_before (i j : Instant) :
    i.date < j.date ↔ Before i.year i.month i.day j.year j.month j.day := by
  obtain ⟨_, hm12, _, hd⟩ := i.isDate
  obtain ⟨_, hm12', _, hd'⟩ := j.isDate
  have hd31 := Nat.le_trans hd (monthLength_le _ _)
  have hd31' := Nat.le_trans hd' (monthLength_le _ _)
  have hy := i.year_le
  have hy' := j.year_le
  have hyear : fixed 4 i.year < fixed 4 j.year ↔ i.year < j.year :=
    fixed_lt_iff (by omega) (by omega)
  have hmonth : fixed 2 i.month < fixed 2 j.month ↔ i.month < j.month :=
    fixed_lt_iff (by omega) (by omega)
  have hday : fixed 2 i.day < fixed 2 j.day ↔ i.day < j.day := fixed_lt_iff (by omega) (by omega)
  have hyear' : fixed 4 i.year = fixed 4 j.year ↔ i.year = j.year :=
    ⟨fixed_injective (by omega) (by omega), fun h => by rw [h]⟩
  have hmonth' : fixed 2 i.month = fixed 2 j.month ↔ i.month = j.month :=
    ⟨fixed_injective (by omega) (by omega), fun h => by rw [h]⟩
  unfold date Before
  rw [List.append_assoc, List.append_assoc,
    append_lt_append_iff _ _ (by rw [fixed_length, fixed_length]),
    append_lt_append_iff _ _ (by rw [fixed_length, fixed_length]), hyear, hyear', hmonth, hmonth',
    hday]

theorem date_lt_iff (i j : Instant) :
    i.date < j.date ↔ i.calendarDate.number < j.calendarDate.number := by
  rw [date_lt_iff_before]
  refine ⟨?_, ?_⟩
  · intro h
    exact dayNumber_lt_of_before i.isDate j.isDate h
  · intro h
    rcases before_trichotomy i.year i.month i.day j.year j.month j.day with hb | he | hb
    · exact hb
    · have heq : i.calendarDate = j.calendarDate := by
        unfold calendarDate
        simp only [Date.mk.injEq]
        exact he
      rw [heq] at h
      exact absurd h (Nat.lt_irrefl _)
    · exact absurd (dayNumber_lt_of_before j.isDate i.isDate hb) (Nat.lt_asymm h)

theorem time_lt_iff (i j : Instant) : i.time < j.time ↔ i.secondsOfDay < j.secondsOfDay := by
  have hhour := i.hour_le
  have hmin := i.minute_le
  have hsec := i.second_le
  have hhour' := j.hour_le
  have hmin' := j.minute_le
  have hsec' := j.second_le
  have hlt : ∀ {m n : Nat}, m ≤ 59 → n ≤ 59 → (fixed 2 m < fixed 2 n ↔ m < n) :=
    fun hm hn => fixed_lt_iff (by omega) (by omega)
  have heq : ∀ {m n : Nat}, m ≤ 59 → n ≤ 59 → (fixed 2 m = fixed 2 n ↔ m = n) :=
    fun hm hn => ⟨fixed_injective (by omega) (by omega), fun h => by rw [h]⟩
  unfold time secondsOfDay
  rw [List.append_assoc, List.append_assoc,
    append_lt_append_iff _ _ (by rw [fixed_length, fixed_length]),
    append_lt_append_iff _ _ (by rw [fixed_length, fixed_length]),
    hlt (by omega) (by omega), heq (by omega) (by omega), hlt hmin hmin', heq hmin hmin',
    hlt hsec hsec']
  omega

/-- **The bytes of instants compare as their seconds do.** -/
theorem write_lt_iff (i j : Instant) : i.write < j.write ↔ i.epochSeconds < j.epochSeconds := by
  have hdate := date_lt_iff i j
  have hdate' := date_lt_iff j i
  have htime := time_lt_iff i j
  have hi := i.secondsOfDay_lt
  have hj := j.secondsOfDay_lt
  -- the order of dates is total, so equal numbers are equal bytes
  have hsame : i.date = j.date ↔ i.calendarDate.number = j.calendarDate.number := by
    refine ⟨?_, ?_⟩
    · intro h
      rw [h] at hdate hdate'
      have h1 : ¬i.calendarDate.number < j.calendarDate.number :=
        fun hc => List.lt_irrefl j.date (hdate.mpr hc)
      have h2 : ¬j.calendarDate.number < i.calendarDate.number :=
        fun hc => List.lt_irrefl j.date (hdate'.mpr hc)
      omega
    · intro h
      have h1 : ¬i.date < j.date := fun hc => by have := hdate.mp hc; omega
      have h2 : ¬j.date < i.date := fun hc => by have := hdate'.mp hc; omega
      exact List.le_antisymm (List.not_lt.mp h2) (List.not_lt.mp h1)
  have hlen : i.date.length = j.date.length := by rw [i.date_length, j.date_length]
  have htlen : i.time.length = j.time.length := rfl
  -- `T` and `Z` stand at the same places in both
  have htail : upperT :: (i.time ++ [upperZ]) < upperT :: (j.time ++ [upperZ])
      ↔ i.time < j.time := by
    rw [List.cons_lt_cons_iff, append_lt_append_iff _ _ htlen]
    refine ⟨?_, ?_⟩
    · intro hcase
      rcases hcase with h | ⟨_, h | ⟨_, h⟩⟩
      · exact absurd h (by decide)
      · exact h
      · exact absurd h (List.lt_irrefl _)
    · intro h
      exact Or.inr ⟨rfl, Or.inl h⟩
  unfold write
  rw [append_lt_append_iff _ _ hlen, hdate, hsame, htail, htime, epochSeconds_eq, epochSeconds_eq]
  omega

end Spec.Instant

/--
**Calendar arithmetic is exact.** `days_from_civil` does not overflow on any date of a year
that an `i32` holds: it counts the days from the epoch, which has none, and the next day has
one more. `parse_amz_date` accepts exactly the instants as they are written, with their Unix
time, and orders them as their bytes are ordered.
-/
theorem dates_exact :
    (∀ t : Date, (t.year : Int) ≤ i32.hi →
        ∃ n, daysFromCivil (ε := Unit) t.year t.month t.day = ok n ∧ Counts n t)
      ∧ daysFromCivil (ε := Unit) 1970 1 1 = ok 0
      ∧ (∀ t : Date, (t.next.year : Int) ≤ i32.hi →
        ∃ n, daysFromCivil (ε := Unit) t.year t.month t.day = ok n
          ∧ daysFromCivil (ε := Unit) t.next.year t.next.month t.next.day = ok (n + 1))
      ∧ (∀ s : Str, (∃ parsed, parseAmzDate s = ok parsed) ↔ ∃ i : Instant, s.bytes = i.write)
      ∧ (∀ s parsed, parseAmzDate s = ok parsed → ∃ (i : Instant) (n : Int), s.bytes = i.write
          ∧ Counts n i.calendarDate
          ∧ parsed.epochSeconds = n * 86400 + i.hour * 3600 + i.minute * 60 + i.second)
      ∧ (∀ s t p q, parseAmzDate s = ok p → parseAmzDate t = ok q →
          (s.bytes < t.bytes ↔ p.epochSeconds < q.epochSeconds)) := by
  have hyear : ∀ {y : Nat}, (y : Int) ≤ i32.hi → y ≤ 2147483647 := by
    intro y h
    have h' : (y : Int) ≤ 2147483647 := h
    omega
  refine ⟨fun t h => daysFromCivil_counts (hyear h), by rfl,
    fun t h => daysFromCivil_next (hyear h), ?_, ?_, ?_⟩
  · intro s
    refine ⟨?_, ?_⟩
    · intro hc
      obtain ⟨parsed, h⟩ := hc
      obtain ⟨i, hi, _⟩ := parseAmzDate_eq_ok.mp h
      exact ⟨i, hi⟩
    · intro hc
      obtain ⟨i, hi⟩ := hc
      exact ⟨_, parseAmzDate_eq_ok.mpr ⟨i, hi, rfl⟩⟩
  · intro s parsed h
    obtain ⟨i, hi, rfl⟩ := parseAmzDate_eq_ok.mp h
    exact ⟨i, _, hi, counts_iff.mpr rfl, rfl⟩
  · intro s t p q hp hq
    obtain ⟨i, hi, rfl⟩ := parseAmzDate_eq_ok.mp hp
    obtain ⟨j, hj, rfl⟩ := parseAmzDate_eq_ok.mp hq
    rw [hi, hj]
    exact Spec.Instant.write_lt_iff i j

/-- The day before the first of March of year zero, whose shifted year is negative. -/
theorem dates_exact_sample :
    ∃ n, daysFromCivil (ε := Unit) 0 2 29 = ok n ∧ Counts n ⟨0, 2, 29, by decide⟩ :=
  dates_exact.1 ⟨0, 2, 29, by decide⟩ (by decide)

end SigV4
