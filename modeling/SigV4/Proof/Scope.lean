import SigV4.Proof.Escape
import SigV4.Spec.Policy
import SigV4.Spec.Scope
import SigV4.Verifier.Scope

/-!
# Scopes, dates and signatures meet their specification

The parsers of the parameter values, one equation each. The slices of a date are in
range because its length is checked first, the `str` slices are at ASCII bytes, and
the machine arithmetic stays within its types because a date has four digits of year.
-/

namespace SigV4

open Outcome Ascii Spec

variable {ε : Type}

/-! ## Digits -/

/-- **The digit loops read numbers** that the type can hold. -/
theorem parseDigits_eq {t : IntType} {bs : Bytes} (hlo : t.lo ≤ 0)
    (hhi : (10 ^ bs.length : Nat) ≤ t.hi) :
    parseDigits t bs = if bs.all isAsciiDigit then ok (Decimal.number bs : Int) else exit () := by
  induction bs using List.reverseRecOn with
  | nil => rfl
  | append_singleton bs b ih =>
      rw [List.length_append, List.length_singleton, Nat.pow_succ] at hhi
      have hpos : 0 < 10 ^ bs.length := Nat.pow_pos (by omega)
      have hrec := ih (by omega)
      unfold parseDigits at hrec ⊢
      rw [List.foldlM_append, hrec, List.all_append]
      cases hbs : bs.all isAsciiDigit with
      | false => rfl
      | true =>
          have hlt := Decimal.number_lt hbs
          rw [if_pos rfl, ok_bind]
          simp only [List.foldlM_cons, List.foldlM_nil, List.all_cons, List.all_nil, Bool.and_true,
            Bool.true_and]
          cases hb : isAsciiDigit b with
          | false => rfl
          | true =>
              have hd := Decimal.digitValue_lt hb
              have hten : saturate t ((Decimal.number bs : Int) * 10) = (Decimal.number bs : Int) * 10 :=
                saturate_of_mem ⟨by omega, by omega⟩
              rw [Bool.not_true, exitIf_false, ok_bind, Decimal.subU8_digit hb, ok_bind,
                Decimal.toNat_sub_zero hb, hten, saturate_of_mem ⟨by omega, by omega⟩, if_pos rfl,
                Decimal.number_snoc, ok_bind]
              push_cast
              rfl

/-! ## Dates -/

theorem isLeapYear_eq (y : Nat) : isLeapYear y = Calendar.leap y := by
  unfold isLeapYear Calendar.leap
  rw [Int.tmod_eq_emod_of_nonneg (by omega), Int.tmod_eq_emod_of_nonneg (by omega),
    Int.tmod_eq_emod_of_nonneg (by omega)]
  rw [Bool.eq_iff_iff]
  simp only [Bool.or_eq_true, Bool.and_eq_true, beq_iff_eq, bne_iff_ne]
  omega

theorem daysInMonth_eq (y : Nat) {m : Nat} (h1 : 1 ≤ m) (h12 : m ≤ 12) :
    daysInMonth y m = Calendar.monthLength y m := by
  unfold daysInMonth Calendar.monthLength
  rw [isLeapYear_eq]
  cases Calendar.leap y <;> interval_cases m <;> rfl

/-- The era of a year: the quotient by 400, rounded down. -/
theorem eraOf_eq {y : Int} (hlo : -1 ≤ y) : eraOf (ε := ε) y = ok (y / 400) := by
  unfold eraOf
  by_cases hy : y ≥ 0
  · rw [if_pos hy, Int.tdiv_eq_ediv_of_nonneg hy]
  · obtain rfl : y = -1 := by omega
    rfl

/-- The days before a date, counted from March of the year `Y` in which its winter began. -/
theorem dayNumber_eq {y m d : Nat} (h : Calendar.IsDate y m d) {Y E mp : Int}
    (hY : ((y : Int) - if (m : Int) ≤ 2 then 1 else 0) = Y) (hE : Y / 400 = E)
    (hmp : ((m : Int) + if (m : Int) > 2 then -3 else 9) = mp) :
    E * 146097 + ((Y - E * 400) * 365 + (Y - E * 400) / 4 - (Y - E * 400) / 100
      + ((153 * mp + 2) / 5 + d - 1)) = (Calendar.dayNumber y m d : Int) - 60 := by
  obtain ⟨h1, h12, hd1, _⟩ := h
  have hmonths := Calendar.daysOfMonths_eq y h1 h12
  have hnum : Calendar.dayNumber y m d
      = Calendar.daysBeforeYear y + Calendar.daysOfMonths y (m - 1) + (d - 1) := rfl
  -- quotients of the year of the era
  have h4 : (Y - E * 400) / 4 = Y / 4 - E * 100 := by omega
  have h100 : (Y - E * 400) / 100 = Y / 100 - E * 4 := by omega
  rw [h4, h100, hnum, hmonths]
  by_cases hm : m ≤ 2
  · rw [if_pos (by omega)] at hY
    rw [if_neg (by omega)] at hmp
    rw [if_pos hm]
    cases y with
    | zero =>
        have h0 : Calendar.daysBeforeYear 0 = 0 := rfl
        omega
    | succ y =>
        have hyear := Calendar.daysBeforeYear_succ y
        omega
  · have hyear := Calendar.daysBeforeYear_succ y
    have hstep : Calendar.daysBeforeYear (y + 1)
      = Calendar.daysBeforeYear y + Calendar.yearLength y := rfl
    rw [if_neg (by omega)] at hY
    rw [if_pos (by omega)] at hmp
    rw [if_neg hm]
    obtain rfl : Y = y := by omega
    unfold Calendar.yearLength at hstep
    by_cases hl : Calendar.leap y = true
    · rw [if_pos hl] at hstep ⊢
      omega
    · rw [if_neg hl] at hstep ⊢
      omega

/-- **`days_from_civil` counts days**, and none of its intermediate results overflows. -/
theorem daysFromCivil_eq {y m d : Nat} (hy : y ≤ 2147483647) (h : Calendar.IsDate y m d) :
    daysFromCivil (ε := ε) y m d
      = ok ((Calendar.dayNumber y m d : Int) - Calendar.dayNumber 1970 1 1) := by
  have hdate := h
  obtain ⟨h1, h12, hd1, hdm⟩ := h
  have hd31 := Nat.le_trans hdm (Calendar.monthLength_le y m)
  have hmem : ∀ x : Int, -2147483648 ≤ x ∧ x ≤ 2147483647 → checked (ε := ε) i32 x = ok x :=
    fun x hx => checked_of_mem hx
  have hmem64 : ∀ x : Int, -1000000000000 ≤ x ∧ x ≤ 1000000000000 →
      checked (ε := ε) i64 x = ok x := by
    intro x hx
    exact checked_of_mem ⟨Int.le_trans (by decide) hx.1, Int.le_trans hx.2 (by decide)⟩
  have hmi : asI32 m = m := if_pos (Int.le_trans (by omega : (m : Int) ≤ 12) (by decide))
  have hdi : asI32 d = d := if_pos (Int.le_trans (by omega : (d : Int) ≤ 31) (by decide))
  -- the year that starts in March, its era and its place in the era
  generalize hY : ((y : Int) - if (m : Int) ≤ 2 then 1 else 0) = Y
  have hYlo : -1 ≤ Y := by
    split at hY <;> omega
  have hYhi : Y ≤ 2147483647 := by
    split at hY <;> omega
  generalize hE : Y / 400 = E
  -- the day of that year
  generalize hmp : ((m : Int) + if (m : Int) > 2 then -3 else 9) = mp
  have hnum := dayNumber_eq hdate hY hE hmp
  generalize hyoe : Y - E * 400 = yoe at hnum
  have hyoe0 : 0 ≤ yoe := by omega
  have hmp0 : 0 ≤ mp := by
    split at hmp <;> omega
  have hmp11 : mp ≤ 11 := by
    split at hmp <;> omega
  unfold daysFromCivil
  rw [hY, hmem _ ⟨by omega, by omega⟩, ok_bind, eraOf_eq hYlo, hE, ok_bind,
    hmem _ ⟨by omega, by omega⟩, ok_bind, hyoe, hmem _ ⟨by omega, by omega⟩, ok_bind, hmi, hdi]
  dsimp only
  rw [hmp, hmem mp ⟨by omega, by omega⟩, ok_bind, hmem (153 * mp) ⟨by omega, by omega⟩, ok_bind,
    hmem _ ⟨by omega, by omega⟩, ok_bind, Int.tdiv_eq_ediv_of_nonneg (by omega : 0 ≤ 153 * mp + 2),
    hmem _ ⟨by omega, by omega⟩, ok_bind, hmem _ ⟨by omega, by omega⟩, ok_bind,
    hmem _ ⟨by omega, by omega⟩, ok_bind, Int.tdiv_eq_ediv_of_nonneg hyoe0,
    Int.tdiv_eq_ediv_of_nonneg hyoe0, hmem _ ⟨by omega, by omega⟩, ok_bind,
    hmem _ ⟨by omega, by omega⟩, ok_bind, hmem _ ⟨by omega, by omega⟩, ok_bind,
    hmem64 _ ⟨by omega, by omega⟩, ok_bind, hmem64 _ ⟨by omega, by omega⟩, ok_bind,
    hmem64 _ ⟨by omega, by omega⟩]
  refine congrArg ok ?_
  rw [Calendar.dayNumber_epoch]
  omega

theorem index_eq {v : Bytes} {i : Nat} (h : i < v.length) :
    ∃ c, v[i]? = some c ∧ index (ε := ε) v i = ok c := by
  have hget := List.getElem?_eq_getElem h
  exact ⟨v[i], hget, index_of_some hget⟩

theorem slice_cut {v : Bytes} {a n : Nat} (h : a + n ≤ v.length) :
    slice (ε := ε) v a (a + n) = ok (cut v a n) := by
  rw [slice_of_le (Nat.le_add_right a n) h, Nat.add_sub_cancel_left]
  rfl

theorem parseDigits_cut {t : IntType} {v : Bytes} {a n : Nat} (h : a + n ≤ v.length)
    (hlo : t.lo ≤ 0) (hhi : (10 ^ n : Nat) ≤ t.hi) :
    parseDigits t (cut v a n)
      = if (cut v a n).all isAsciiDigit then ok (numberAt v a n : Int) else exit () := by
  rw [parseDigits_eq hlo (by rw [cut_length h]; exact hhi)]
  rfl

/-- A date that the calendar has is a date that the parser's own table has. -/
theorem date_check (y m d hour minute second : Nat) :
    ((m : Int) == 0 || decide ((m : Int) > 12) || (d : Int) == 0
        || decide ((d : Int) > daysInMonth y m) || decide ((hour : Int) > 23)
        || decide ((minute : Int) > 59) || decide ((second : Int) > 59))
      = !decide (Calendar.IsDate y m d ∧ hour ≤ 23 ∧ minute ≤ 59 ∧ second ≤ 59) := by
  unfold Calendar.IsDate
  rw [Bool.eq_iff_iff]
  simp only [Bool.or_eq_true, beq_iff_eq, decide_eq_true_eq, Bool.not_eq_true',
    decide_eq_false_iff_not]
  by_cases hm : 1 ≤ m ∧ m ≤ 12
  · rw [daysInMonth_eq y hm.1 hm.2]
    omega
  · omega

/-- Seconds of a date within the four-digit years are far inside `i64`. -/
theorem epochSeconds_bounds (i : Instant) :
    -100000000000 ≤ i.epochSeconds ∧ i.epochSeconds ≤ 1000000000000 := by
  obtain ⟨h1, h12, hd1, hdm⟩ := i.isDate
  have hd31 := Nat.le_trans hdm (Calendar.monthLength_le _ _)
  have hy := i.year_le
  have hyear := Calendar.daysBeforeYear_eq i.year
  have hmonths := Calendar.daysOfMonths_eq i.year h1 h12
  have hhour := i.hour_le
  have hmin := i.minute_le
  have hsec := i.second_le
  have hepoch := Calendar.dayNumber_epoch
  have hm : Calendar.daysOfMonths i.year (i.month - 1) ≤ 366 := by
    rw [hmonths]
    split
    · omega
    · split <;> omega
  have hnum : Calendar.dayNumber i.year i.month i.day
      = Calendar.daysBeforeYear i.year + Calendar.daysOfMonths i.year (i.month - 1)
        + (i.day - 1) := rfl
  have hsecs : i.epochSeconds = ((Calendar.dayNumber i.year i.month i.day : Int)
      - Calendar.dayNumber 1970 1 1) * 86400 + i.hour * 3600 + i.minute * 60 + i.second := rfl
  rw [hsecs, hepoch]
  omega

/-- What is added up for a date is far inside `i64`. -/
theorem mem_i64 {x : Int} (hlo : -10000000000000 ≤ x) (hhi : x ≤ 10000000000000) :
    i64.lo ≤ x ∧ x ≤ i64.hi :=
  ⟨Int.le_trans (by decide) hlo, Int.le_trans hhi (by decide)⟩

/-- **The arithmetic of an instant** neither overflows nor saturates. -/
theorem saturate_epochSeconds {days : Int} {hour minute second : Nat} (hlo : -10000000 ≤ days)
    (hhi : days ≤ 20000000) (hhour : hour ≤ 23) (hminute : minute ≤ 59) (hsecond : second ≤ 59) :
    checked (ε := ε) i64 (hour * 3600) = ok (hour * 3600 : Int)
      ∧ checked (ε := ε) i64 (minute * 60) = ok (minute * 60 : Int)
      ∧ saturate i64 (saturate i64 (saturate i64 (saturate i64 (days * 86400) + hour * 3600)
          + minute * 60) + second)
        = days * 86400 + hour * 3600 + minute * 60 + second := by
  refine ⟨checked_of_mem (mem_i64 (by omega) (by omega)),
    checked_of_mem (mem_i64 (by omega) (by omega)), ?_⟩
  have hdays : saturate i64 (days * 86400) = days * 86400 :=
    saturate_of_mem (mem_i64 (by omega) (by omega))
  have hhours : saturate i64 (days * 86400 + hour * 3600) = days * 86400 + hour * 3600 :=
    saturate_of_mem (mem_i64 (by omega) (by omega))
  have hminutes : saturate i64 (days * 86400 + hour * 3600 + minute * 60)
      = days * 86400 + hour * 3600 + minute * 60 :=
    saturate_of_mem (mem_i64 (by omega) (by omega))
  rw [hdays, hhours, hminutes]
  exact saturate_of_mem (mem_i64 (by omega) (by omega))

/-- A field of digits is sliced off and read. -/
theorem field_bind {β : Type} {t : IntType} {v : Bytes} {a n : Nat} (h : a + n ≤ v.length)
    (hlo : t.lo ≤ 0) (hhi : (10 ^ n : Nat) ≤ t.hi) (f : Int → Outcome Unit β) :
    (slice v a (a + n) >>= fun x => parseDigits t x >>= f)
      = if (cut v a n).all isAsciiDigit then f (numberAt v a n) else exit () := by
  rw [slice_cut h, ok_bind, parseDigits_cut h hlo hhi]
  split <;> rfl

/--
**`parse_amz_date` reads instants** and nothing else. It neither slices off a
character boundary nor overflows.
-/
theorem parseAmzDate_eq (s : Str) :
    (∃ h : IsInstant s.bytes,
        parseAmzDate s = ok ⟨h.instant.dateText, h.instant.epochSeconds⟩)
      ∨ (¬IsInstant s.bytes ∧ parseAmzDate s = exit ()) := by
  unfold parseAmzDate
  dsimp only
  by_cases hlen : s.bytes.length = 16
  case neg =>
    exact Or.inr ⟨fun h => hlen h.length, if_pos (by simpa using hlen)⟩
  rw [if_neg (by simpa using hlen)]
  obtain ⟨t, ht, hti⟩ := index_eq (ε := Unit) (v := s.bytes) (i := 8) (by omega)
  rw [hti, ok_bind]
  by_cases htt : t = upperT
  case neg =>
    refine Or.inr ⟨fun h => htt ?_, ?_⟩
    · exact Option.some.inj (ht.symm.trans h.t)
    · rw [show (t != upperT) = true by simpa using htt]; rfl
  subst htt
  obtain ⟨z, hz, hzi⟩ := index_eq (ε := Unit) (v := s.bytes) (i := 15) (by omega)
  rw [bne_self_eq_false, exitIf_false, ok_bind, hzi, ok_bind]
  by_cases hzz : z = upperZ
  case neg =>
    refine Or.inr ⟨fun h => hzz ?_, ?_⟩
    · exact Option.some.inj (hz.symm.trans h.z)
    · rw [show (z != upperZ) = true by simpa using hzz]; rfl
  subst hzz
  rw [bne_self_eq_false, exitIf_false, ok_bind]
  unfold parseDigitsI32 parseDigitsU32
  have htwo : ∀ a, a + 2 ≤ 16 → ∀ f : Int → Outcome Unit ParsedAmzDate,
      (slice s.bytes a (a + 2) >>= fun x => parseDigits u32 x >>= f)
        = if (cut s.bytes a 2).all isAsciiDigit then f (numberAt s.bytes a 2) else exit () :=
    fun a h => field_bind (by omega) (by decide) (by decide)
  -- the six fields, in the order they are parsed
  rw [field_bind (a := 0) (n := 4) (by omega) (by decide) (by decide)]
  by_cases hy : (cut s.bytes 0 4).all isAsciiDigit = true
  case neg => exact Or.inr ⟨fun h => hy h.year, if_neg hy⟩
  rw [if_pos hy, htwo 4 (by omega)]
  by_cases hm : (cut s.bytes 4 2).all isAsciiDigit = true
  case neg => exact Or.inr ⟨fun h => hm h.month, if_neg hm⟩
  rw [if_pos hm, htwo 6 (by omega)]
  by_cases hd : (cut s.bytes 6 2).all isAsciiDigit = true
  case neg => exact Or.inr ⟨fun h => hd h.day, if_neg hd⟩
  rw [if_pos hd, htwo 9 (by omega)]
  by_cases hh : (cut s.bytes 9 2).all isAsciiDigit = true
  case neg => exact Or.inr ⟨fun h => hh h.hour, if_neg hh⟩
  rw [if_pos hh, htwo 11 (by omega)]
  by_cases hn : (cut s.bytes 11 2).all isAsciiDigit = true
  case neg => exact Or.inr ⟨fun h => hn h.minute, if_neg hn⟩
  rw [if_pos hn, htwo 13 (by omega)]
  by_cases hs : (cut s.bytes 13 2).all isAsciiDigit = true
  case neg => exact Or.inr ⟨fun h => hs h.second, if_neg hs⟩
  rw [if_pos hs, date_check]
  by_cases hv : Calendar.IsDate (numberAt s.bytes 0 4) (numberAt s.bytes 4 2) (numberAt s.bytes 6 2)
      ∧ numberAt s.bytes 9 2 ≤ 23 ∧ numberAt s.bytes 11 2 ≤ 59 ∧ numberAt s.bytes 13 2 ≤ 59
  case neg =>
    refine Or.inr ⟨fun h => hv ⟨h.isDate, h.hour_le, h.minute_le, h.second_le⟩, ?_⟩
    rw [decide_eq_false hv]; rfl
  -- a date: the rest is arithmetic within range
  have hi : IsInstant s.bytes :=
    ⟨hlen, ht, hz, hy, hm, hd, hh, hn, hs, hv.1, hv.2.1, hv.2.2.1, hv.2.2.2⟩
  refine Or.inl ⟨hi, ?_⟩
  have hy9 : numberAt s.bytes 0 4 ≤ 9999 := hi.instant.year_le
  have hbounds := epochSeconds_bounds hi.instant
  have hsecs : hi.instant.epochSeconds = ((Calendar.dayNumber (numberAt s.bytes 0 4)
      (numberAt s.bytes 4 2) (numberAt s.bytes 6 2) : Int) - Calendar.dayNumber 1970 1 1) * 86400
      + numberAt s.bytes 9 2 * 3600 + numberAt s.bytes 11 2 * 60 + numberAt s.bytes 13 2 := rfl
  obtain ⟨date, hdate, hdb⟩ := Str.sliceTo_of_ascii (ε := Unit) ht (by decide)
  have htext : date = hi.instant.dateText := by
    have h8 := congrArg (List.take 8) hi.write
    exact Str.ext (hdb.trans h8.symm)
  rw [decide_eq_true hv, Bool.not_true, exitIf_false, ok_bind, daysFromCivil_eq (by omega) hv.1,
    ok_bind]
  obtain ⟨_, hh23, hn59, hs59⟩ := hv
  generalize hdays : (Calendar.dayNumber (numberAt s.bytes 0 4) (numberAt s.bytes 4 2)
    (numberAt s.bytes 6 2) : Int) - Calendar.dayNumber 1970 1 1 = days at hsecs ⊢
  have hlo : -10000000 ≤ days := by omega
  have hhi : days ≤ 20000000 := by omega
  obtain ⟨hhours, hminutes, hsaturate⟩ :=
    saturate_epochSeconds (ε := Unit) hlo hhi hh23 hn59 hs59
  rw [hhours, ok_bind, hminutes, ok_bind, hsaturate, hdate, ok_bind, htext, hsecs]

/-! ## Expiry -/

theorem parseU64Digits_eq (ds : Bytes) :
    parseU64Digits ds = if ds.all isAsciiDigit = true ∧ Decimal.number ds < 18446744073709551616
      then some (Decimal.number ds) else none := by
  induction ds using List.reverseRecOn with
  | nil => rfl
  | append_singleton ds b ih =>
      unfold parseU64Digits at ih ⊢
      rw [List.foldlM_append, ih, List.all_append, Decimal.number_snoc]
      simp only [List.foldlM_cons, List.foldlM_nil, List.all_cons, List.all_nil, Bool.and_true]
      have hval : b.toNat - 0x30 = Decimal.digitValue b := rfl
      rw [hval]
      by_cases h : ds.all isAsciiDigit = true ∧ Decimal.number ds < 18446744073709551616
      · rw [if_pos h, h.1]
        by_cases hb : isAsciiDigit b = true
        · by_cases hlt : Decimal.number ds * 10 + Decimal.digitValue b < 18446744073709551616
          · simp [hb, hlt]
          · simp [hb, hlt]
        · simp [hb]
      · rw [if_neg h, if_neg]
        · rfl
        · intro hcase
          obtain ⟨hall, hlt⟩ := hcase
          rw [Bool.and_eq_true] at hall
          exact h ⟨hall.1, by omega⟩

/-- Digits are read as the number they stand for, if the type can hold it. -/
theorem parseU64Digits_eq_some {ds : Bytes} {n : UInt64} :
    (parseU64Digits ds).map UInt64.ofNat = some n
      ↔ ds.all isAsciiDigit = true ∧ Decimal.number ds = n.toNat := by
  rw [parseU64Digits_eq]
  refine ⟨?_, ?_⟩
  · intro h
    split at h
    · rename_i hc
      refine ⟨hc.1, ?_⟩
      rw [← Option.some.inj h]
      exact (UInt64.toNat_ofNat_of_lt' hc.2).symm
    · exact absurd h (by simp)
  · intro hcase
    obtain ⟨hall, hn⟩ := hcase
    have hlt : Decimal.number ds < 18446744073709551616 := by
      rw [hn]
      exact n.toNat_lt
    rw [if_pos ⟨hall, hlt⟩, hn, Option.map_some, UInt64.ofNat_toNat]

/-- **`parse::<u64>` reads decimal texts** below `2^64`. -/
theorem parseU64_eq_some {s : Str} {n : UInt64} :
    parseU64 s = some n ↔ IsExpires s.bytes n.toNat := by
  have hplus : isAsciiDigit plus = false := rfl
  have hhyphen : isAsciiDigit hyphen = false := rfl
  unfold parseU64 IsExpires
  match hb : s.bytes with
  | [] =>
      dsimp only
      refine ⟨?_, ?_⟩
      · intro h; exact absurd h (by simp)
      · intro hcase
        obtain ⟨ds, h | h, hne, _⟩ := hcase
        · exact absurd h.symm hne
        · exact absurd h (by simp)
  | [c] =>
      dsimp only
      by_cases hc : (c == plus || c == hyphen) = true
      · rw [if_pos hc]
        refine ⟨?_, ?_⟩
        · intro h; exact absurd h (by simp)
        · intro hcase
          obtain ⟨ds, h | h, hne, hall, _⟩ := hcase
          · -- a sign is no digit
            rw [← h, List.all_cons, List.all_nil, Bool.and_true] at hall
            rcases Bool.or_eq_true_iff.mp hc with hc | hc
            · rw [eq_of_beq hc, hplus] at hall
              exact Bool.noConfusion hall
            · rw [eq_of_beq hc, hhyphen] at hall
              exact Bool.noConfusion hall
          · exact absurd (List.cons.inj h).2.symm hne
      · rw [if_neg hc, parseU64Digits_eq_some]
        refine ⟨?_, ?_⟩
        · intro hcase
          obtain ⟨hall, hn⟩ := hcase
          exact ⟨[c], Or.inl rfl, by simp, hall, hn⟩
        · intro hcase
          obtain ⟨ds, h | h, hne, hall, hn⟩ := hcase
          · rw [h]; exact ⟨hall, hn⟩
          · exact absurd (List.cons.inj h).2.symm hne
  | c :: d :: rest =>
      dsimp only
      by_cases hc : c = plus
      · subst hc
        rw [if_pos (by simp), parseU64Digits_eq_some]
        refine ⟨?_, ?_⟩
        · intro hcase
          obtain ⟨hall, hn⟩ := hcase
          exact ⟨d :: rest, Or.inr rfl, by simp, hall, hn⟩
        · intro hcase
          obtain ⟨ds, h | h, hne, hall, hn⟩ := hcase
          · rw [← h, List.all_cons, hplus] at hall
            exact absurd hall (by simp)
          · rw [(List.cons.inj h).2]; exact ⟨hall, hn⟩
      · rw [if_neg (by simpa using hc), parseU64Digits_eq_some]
        refine ⟨?_, ?_⟩
        · intro hcase
          obtain ⟨hall, hn⟩ := hcase
          exact ⟨c :: d :: rest, Or.inl rfl, by simp, hall, hn⟩
        · intro hcase
          obtain ⟨ds, h | h, hne, hall, hn⟩ := hcase
          · rw [h]; exact ⟨hall, hn⟩
          · exact absurd (List.cons.inj h).1 hc

/-! ## Credentials -/

/-- A scope as it is read: five texts and the text after the first slash. -/
def CredentialScope.fields (scope : CredentialScope) : ScopeFields where
  accessKey := scope.accessKey.bytes
  date := scope.date.bytes
  region := scope.region.bytes
  service := scope.service.bytes
  terminal := scope.terminal.bytes

/--
**`parse_credential_scope` reads credentials** and nothing else. The slice after the
first slash stands on a digit of the date, so it is on a character boundary.
-/
theorem parseCredentialScope_eq (value : Str) :
    (∃ scope : CredentialScope, parseCredentialScope value = ok scope
        ∧ IsScope value.bytes scope.fields ∧ scope.scope.bytes = scope.fields.scope)
      ∨ ((∀ f, ¬IsScope value.bytes f) ∧ parseCredentialScope value = exit ⟨⟩) := by
  have hsplit := value.split_map_bytes slash_lt
  unfold parseCredentialScope
  generalize value.split slash slash_lt = parts at hsplit
  have hno : ∀ f, IsScope value.bytes f → parts.length = 5 := by
    intro f h
    have := congrArg List.length (hsplit.trans h.split)
    simpa using this
  match parts with
  | [accessKey, date, region, service, terminal] =>
      dsimp only
      have hs : value.bytes.splitOn slash
          = [accessKey.bytes, date.bytes, region.bytes, service.bytes, terminal.bytes] := hsplit.symm
      by_cases hc : (accessKey.isEmpty || region.isEmpty || service.isEmpty || terminal.isEmpty
          || date.len != 8 || !date.bytes.all isAsciiDigit) = true
      · rw [if_pos hc]
        refine Or.inr ⟨fun f h => ?_, rfl⟩
        have hf := hs.symm.trans h.split
        simp only [List.cons.injEq, and_true] at hf
        obtain ⟨h1, h2, h3, h4, h5⟩ := hf
        simp only [Bool.or_eq_true, Str.isEmpty_iff, bne_iff_ne, Bool.not_eq_true'] at hc
        rcases hc with ((((hc | hc) | hc) | hc) | hc) | hc
        · exact h.accessKey_ne (h1.symm.trans hc)
        · exact h.region_ne (h3.symm.trans hc)
        · exact h.service_ne (h4.symm.trans hc)
        · exact h.terminal_ne (h5.symm.trans hc)
        · exact hc ((congrArg List.length h2).trans h.date_length)
        · rw [h2, h.date_digits] at hc
          exact Bool.noConfusion hc
      · rw [if_neg hc]
        simp only [Bool.or_eq_true, not_or, Str.isEmpty_iff, bne_iff_ne, ne_eq, not_not,
          Bool.not_eq_true', Bool.not_eq_false] at hc
        obtain ⟨⟨⟨⟨⟨h1, h3⟩, h4⟩, h5⟩, h2⟩, hd⟩ := hc
        let f : ScopeFields :=
          ⟨accessKey.bytes, date.bytes, region.bytes, service.bytes, terminal.bytes⟩
        have hf : IsScope value.bytes f := ⟨hs, h1, h2, hd, h3, h4, h5⟩
        have hval : value.bytes = accessKey.bytes ++ slash :: f.scope := hf.eq
        -- the byte after the first slash is a digit of the date
        obtain ⟨c, ds, hcd⟩ := List.exists_cons_of_ne_nil
          (List.ne_nil_of_length_pos (by rw [show date.bytes.length = 8 from h2]; omega))
        have hget : value.bytes[accessKey.len + 1]? = some c := by
          rw [hval]
          have hlen : accessKey.len = accessKey.bytes.length := rfl
          rw [hlen, List.getElem?_append_right (by omega), Nat.add_sub_cancel_left]
          show (slash :: (date.bytes ++ _))[1]? = some c
          rw [hcd]
          rfl
        have hlt : c < 0x80 := Decimal.digits_ascii hd c (by rw [hcd]; simp)
        obtain ⟨t, ht, htb⟩ := Str.sliceFrom_of_ascii (ε := UriError) hget hlt
        rw [ht, ok_bind]
        refine Or.inl ⟨_, rfl, hf, ?_⟩
        show t.bytes = f.scope
        rw [htb, hval]
        have hlen : accessKey.len = accessKey.bytes.length := rfl
        rw [hlen, List.drop_append, List.drop_eq_nil_of_le (by omega), Nat.add_sub_cancel_left]
        rfl
  | [] | [_] | [_, _] | [_, _, _] | [_, _, _, _] | _ :: _ :: _ :: _ :: _ :: _ :: _ =>
      refine Or.inr ⟨fun f h => ?_, rfl⟩
      have := hno f h
      simp at this

/-! ## Signatures -/

theorem digest_set {d : Digest} {n : Nat} (h : n < 32) (b : UInt8) :
    ∃ d' : Digest, d.set (ε := ε) n b = ok d' ∧ d'.val = d.val.set n b :=
  ⟨⟨d.val.set n b, by rw [List.length_set]; exact d.property⟩, if_pos h, rfl⟩

/-- The loop after `n` passes: the first `n` bytes are read, the others still zero. -/
theorem decodeSignature_loop {bs : Bytes} (hlen : bs.length = 64) : ∀ n, n ≤ 32 →
    (∃ (d : Bytes) (out : Digest), Hex.decode (bs.take (n * 2)) = some d
        ∧ out.val = d ++ List.replicate (32 - n) 0
        ∧ (List.range n).foldlM (decodeSignatureBody bs) Digest.zero = ok out)
      ∨ (Hex.decode (bs.take (n * 2)) = none
        ∧ (List.range n).foldlM (decodeSignatureBody bs) Digest.zero = exit ())
  | 0, _ => Or.inl ⟨[], Digest.zero, rfl, rfl, rfl⟩
  | n + 1, hn => by
      obtain ⟨hi, hhi, hii⟩ := index_eq (ε := Unit) (v := bs) (i := n * 2) (by omega)
      obtain ⟨lo, hlo, hli⟩ := index_eq (ε := Unit) (v := bs) (i := n * 2 + 1) (by omega)
      have htake : bs.take ((n + 1) * 2) = bs.take (n * 2) ++ [hi, lo] := by
        rw [show (n + 1) * 2 = n * 2 + 1 + 1 by omega, List.take_add_one, List.take_add_one, hhi,
          hlo, List.append_assoc]
        rfl
      have heven : (bs.take (n * 2)).length % 2 = 0 := by
        rw [List.length_take]
        omega
      rw [List.range_succ, List.foldlM_append, htake, Hex.decode_snoc _ _ _ heven]
      rcases decodeSignature_loop hlen n (by omega) with ⟨d, out, hd, hout, hf⟩ | ⟨hd, hf⟩
      · rw [hd, hf, ok_bind, Option.bind_some, List.foldlM_cons]
        have hdlen : d.length = n := by
          have := Hex.decode_length hd
          rw [List.length_take] at this
          omega
        unfold decodeSignatureBody
        rw [hii, ok_bind, hli, ok_bind, show isHex hi = isAsciiHexdigit hi from rfl,
          show isHex lo = isAsciiHexdigit lo from rfl]
        cases hh : isAsciiHexdigit hi with
        | false => exact Or.inr ⟨rfl, rfl⟩
        | true =>
            cases hl : isAsciiHexdigit lo with
            | false => exact Or.inr ⟨rfl, rfl⟩
            | true =>
                obtain ⟨out', hset, hval⟩ := digest_set (ε := Unit) (d := out) (n := n)
                  (by omega) (Hex.value hi lo)
                refine Or.inl ⟨d ++ [Hex.value hi lo], out', rfl, ?_, ?_⟩
                · rw [hval, hout, List.set_append_right _ _ (by omega), hdlen, Nat.sub_self,
                    show 32 - n = (32 - (n + 1)) + 1 by omega, List.replicate_succ,
                    List.append_assoc]
                  rfl
                · rw [show (!true || !true) = false from rfl, exitIf_false, ok_bind, fromHex_eq hh,
                    ok_bind, fromHex_eq hl, ok_bind]
                  exact congrArg (· >>= _) hset
      · refine Or.inr ⟨by rw [hd]; rfl, ?_⟩
        rw [hf]; rfl

/-- **`decode_signature` reads sixty-four hex digits** and nothing else. -/
theorem decodeSignature_eq (s : Str) :
    (∃ d : Digest, Hex.decode s.bytes = some d.val ∧ decodeSignature s = ok d)
      ∨ ((∀ d : Digest, Hex.decode s.bytes ≠ some d.val) ∧ decodeSignature s = exit ()) := by
  unfold decodeSignature
  dsimp only
  by_cases hlen : s.bytes.length = 64
  · rw [show (s.bytes.length != 64) = false by simpa using hlen, exitIf_false, ok_bind]
    have htake : s.bytes.take (32 * 2) = s.bytes := List.take_of_length_le (by omega)
    rcases decodeSignature_loop hlen 32 (Nat.le_refl _) with ⟨d, out, hd, hout, hf⟩ | ⟨hd, hf⟩
    · rw [htake] at hd
      refine Or.inl ⟨out, ?_, hf⟩
      rw [hd, hout]
      simp
    · rw [htake] at hd
      refine Or.inr ⟨fun d h => ?_, hf⟩
      rw [hd] at h
      exact absurd h (by simp)
  · rw [show (s.bytes.length != 64) = true by simpa using hlen]
    refine Or.inr ⟨fun d h => ?_, rfl⟩
    have := Hex.decode_length h
    rw [d.property] at this
    omega

/-! ## The clock -/

/-- **The clock is read without overflow**, before the epoch as after it. -/
theorem systemTimeEpochSeconds_eq (t : SystemTime) :
    systemTimeEpochSeconds (ε := ε) t = ok (wholeSeconds t) := by
  obtain ⟨hlo, hhi⟩ := t.secs_mem
  have hlo' : -9223372036854775808 ≤ t.secs := hlo
  have hhi' : t.secs ≤ 9223372036854775807 := hhi
  have h64 : i64.hi = 9223372036854775807 := rfl
  have hof : ∀ n : Nat, n < 18446744073709551616 → (UInt64.ofNat n).toNat = n := by
    intro n hn
    simp [Nat.mod_eq_of_lt hn]
  have hmem : ∀ x : Int, -9223372036854775807 ≤ x ∧ x ≤ 9223372036854775807 →
      checked (ε := ε) i64 x = ok x := by
    intro x hx
    exact checked_of_mem ⟨Int.le_trans (by decide) hx.1, hx.2⟩
  unfold systemTimeEpochSeconds SystemTime.durationSinceEpoch wholeSeconds
  by_cases hs : 0 ≤ t.secs
  · rw [if_pos hs, if_pos (Or.inl hs)]
    dsimp only
    rw [hof _ (by omega), h64]
    refine congrArg ok ?_
    omega
  · rw [if_neg hs]
    by_cases hn : t.nanos = 0
    · rw [dif_pos hn, if_pos (Or.inr hn)]
      dsimp only
      rw [hof _ (by omega), h64, hmem _ ⟨by omega, by omega⟩]
      refine congrArg ok ?_
      omega
    · rw [dif_neg hn, if_neg (by simp [hs, hn])]
      dsimp only
      rw [hof _ (by omega), h64, hmem _ ⟨by omega, by omega⟩]
      refine congrArg ok ?_
      omega

theorem wholeSeconds_bounds (t : SystemTime) :
    -i64.hi ≤ (wholeSeconds t) ∧ (wholeSeconds t) ≤ i64.hi := by
  obtain ⟨hlo, hhi⟩ := t.secs_mem
  have hlo' : -9223372036854775808 ≤ t.secs := hlo
  have hhi' : t.secs ≤ 9223372036854775807 := hhi
  have h64 : i64.hi = 9223372036854775807 := rfl
  unfold wholeSeconds
  rw [h64]
  split
  · omega
  · rename_i h
    rw [not_or] at h
    omega

end SigV4
