import SigV4.ModuleConfig.Values
import SigV4.Spec.Duration
import SigV4.Proof.Escape

/-!
# Durations are read exactly

`parse_duration` runs two loops over one index, and each of its additions and products may
overflow. A number is at most the seconds of its group and these are at most the seconds of
the whole, so whichever operation overflows first, the exact total is out of range.
-/

namespace SigV4

open Outcome Ascii Spec

/-! ## Checked arithmetic -/

theorem checkedAddU64_eq (a b : UInt64) :
    checkedAddU64 a b
      = if a.toNat + b.toNat < 2 ^ 64 then some (UInt64.ofNat (a.toNat + b.toNat)) else none := by
  rw [UInt64.ofNat_add, UInt64.ofNat_toNat, UInt64.ofNat_toNat]
  rfl

theorem checkedMulU64_eq (a b : UInt64) :
    checkedMulU64 a b
      = if a.toNat * b.toNat < 2 ^ 64 then some (UInt64.ofNat (a.toNat * b.toNat)) else none := by
  rw [UInt64.ofNat_mul, UInt64.ofNat_toNat, UInt64.ofNat_toNat]
  rfl

theorem toNat_ofNat_of_lt {n : Nat} (h : n < 2 ^ 64) : (UInt64.ofNat n).toNat = n :=
  UInt64.toNat_ofNat_of_lt' h

/-- `a * b + c`, in either order of the sum, overflows when its exact value does. -/
theorem checkedMul_add (a b c : UInt64) :
    (checkedMulU64 a b).bind (checkedAddU64 · c)
      = if a.toNat * b.toNat + c.toNat < 2 ^ 64 then
          some (UInt64.ofNat (a.toNat * b.toNat + c.toNat)) else none := by
  rw [checkedMulU64_eq]
  by_cases h : a.toNat * b.toNat < 2 ^ 64
  · rw [if_pos h, Option.bind_some, checkedAddU64_eq, toNat_ofNat_of_lt h]
  · rw [if_neg h, if_neg (by omega)]
    rfl

/-- The same, added the other way about. -/
theorem add_checkedMul (a b c : UInt64) :
    (checkedMulU64 a b).bind (checkedAddU64 c)
      = if c.toNat + a.toNat * b.toNat < 2 ^ 64 then
          some (UInt64.ofNat (c.toNat + a.toNat * b.toNat)) else none := by
  have hcomm : checkedAddU64 c = (checkedAddU64 · c) := by
    funext x
    rw [checkedAddU64_eq, checkedAddU64_eq, Nat.add_comm]
  rw [hcomm, checkedMul_add, Nat.add_comm]

/-! ## One number -/

/-- The number `n` followed by more digits. -/
def extendNumber (n : Nat) (ds : Bytes) : Nat :=
  ds.foldl (fun out b => out * 10 + Decimal.digitValue b) n

theorem extendNumber_cons (n : Nat) (b : UInt8) (ds : Bytes) :
    extendNumber n (b :: ds) = extendNumber (n * 10 + Decimal.digitValue b) ds :=
  List.foldl_cons ..

theorem le_extendNumber (n : Nat) (ds : Bytes) : n ≤ extendNumber n ds := by
  induction ds generalizing n with
  | nil => exact Nat.le_refl n
  | cons b ds ih =>
      have := ih (n * 10 + Decimal.digitValue b)
      rw [extendNumber_cons]
      omega

/-- One digit: the body goes on unless the number grows out of range. -/
theorem durationNumberBody_digit {value : Str} {i : Nat} {n : UInt64} {b : UInt8} {rest : Bytes}
    (hd : value.bytes.drop i = b :: rest) (hb : isAsciiDigit b = true) :
    durationNumberBody value (i, n)
      = if n.toNat * 10 + Decimal.digitValue b < 2 ^ 64 then
          ok (.again (i + 1, UInt64.ofNat (n.toNat * 10 + Decimal.digitValue b)))
        else exit (invalidDuration value) := by
  have hten : (10 : UInt64).toNat = 10 := rfl
  have hlt : Decimal.digitValue b < 2 ^ 64 := by
    have := Decimal.digitValue_lt hb
    omega
  unfold durationNumberBody
  dsimp only
  have hi : i < value.len := lt_of_drop hd
  rw [if_pos hi, index_of_drop hd, ok_bind, if_pos hb, Decimal.subU8_digit hb, ok_bind,
    checkedMul_add, Decimal.toNat_sub_zero hb, toNat_ofNat_of_lt hlt, hten]
  by_cases h : n.toNat * 10 + Decimal.digitValue b < 2 ^ 64
  · rw [if_pos h, if_pos h]
    rfl
  · rw [if_neg h, if_neg h]
    rfl

/-- What does not start with a digit. -/
def StopsNumber (rest : Bytes) : Prop := ∀ b ∈ rest.head?, isAsciiDigit b = false

/-- Anything else ends the number. -/
theorem durationNumberBody_stop {value : Str} {i : Nat} {n : UInt64} {rest : Bytes}
    (hd : value.bytes.drop i = rest) (hrest : StopsNumber rest) :
    durationNumberBody value (i, n) = ok (.leave (i, n)) := by
  unfold durationNumberBody
  dsimp only
  cases rest with
  | nil =>
      have hi : ¬i < value.len := Nat.not_lt.mpr (List.drop_eq_nil_iff.mp hd)
      rw [if_neg hi]
  | cons b rest =>
      have hb : ¬isAsciiDigit b = true := by
        rw [hrest b rfl]
        exact Bool.false_ne_true
      have hi : i < value.len := lt_of_drop hd
      rw [if_pos hi, index_of_drop hd, ok_bind, if_neg hb]

/-- **The inner loop reads a number**, or leaves when it is out of range. -/
theorem durationNumberLoop_eq {value : Str} {rest : Bytes} (hrest : StopsNumber rest) :
    ∀ (ds : Bytes) (fuel i : Nat) (n : UInt64), value.bytes.drop i = ds ++ rest →
      ds.all isAsciiDigit = true → ds.length < fuel →
      loop (durationNumberBody value) fuel (i, n)
        = if extendNumber n.toNat ds < 2 ^ 64 then
            ok (i + ds.length, UInt64.ofNat (extendNumber n.toNat ds))
          else exit (invalidDuration value)
  | [], fuel + 1, i, n, hd, _, _ => by
      have hn : extendNumber n.toNat [] < 2 ^ 64 := n.toNat_lt
      rw [loop, durationNumberBody_stop hd hrest, if_pos hn]
      show ok (i, n) = ok (i, UInt64.ofNat n.toNat)
      rw [UInt64.ofNat_toNat]
  | b :: ds, fuel + 1, i, n, hd, hds, hfuel => by
      rw [List.all_cons, Bool.and_eq_true] at hds
      rw [loop, durationNumberBody_digit hd hds.1, extendNumber_cons]
      by_cases h : n.toNat * 10 + Decimal.digitValue b < 2 ^ 64
      · have ih := durationNumberLoop_eq hrest ds fuel (i + 1)
          (UInt64.ofNat (n.toNat * 10 + Decimal.digitValue b)) (drop_succ_of_drop hd) hds.2
          (Nat.lt_of_succ_lt_succ hfuel)
        rw [toNat_ofNat_of_lt h] at ih
        rw [if_pos h, ok_bind]
        dsimp only
        rw [ih, List.length_cons, Nat.add_assoc, Nat.add_comm 1]
      · -- a number that has grown out of range stays there
        have hge := le_extendNumber (n.toNat * 10 + Decimal.digitValue b) ds
        rw [if_neg h, if_neg (by omega)]
        rfl

/-! ## One group -/

/-- What follows the digits of a group does not start with one. -/
theorem stopsNumber_unit {u : Option TimeUnit} {rest : Bytes} (hbare : u = none → rest = []) :
    StopsNumber ((u.map TimeUnit.letter).toList ++ rest) := by
  intro b hb
  cases u with
  | none =>
      rw [hbare rfl] at hb
      exact absurd hb (by simp)
  | some u =>
      obtain rfl := Option.some.inj hb
      exact u.letter_not_digit

theorem durationUnit_eq {value : Str} {i : Nat} {u : Option TimeUnit} {rest : Bytes}
    (hd : value.bytes.drop i = (u.map TimeUnit.letter).toList ++ rest)
    (hbare : u = none → rest = []) :
    durationUnit value i = ok (i + (u.map TimeUnit.letter).toList.length,
      UInt64.ofNat (u.elim 1 TimeUnit.seconds)) := by
  unfold durationUnit
  cases u with
  | none =>
      rw [hbare rfl] at hd
      have hi : ¬i < value.len := Nat.not_lt.mpr (List.drop_eq_nil_iff.mp hd)
      rw [if_neg hi]
      rfl
  | some u =>
      have hd' : value.bytes.drop i = u.letter :: rest := hd
      have hi : i < value.len := lt_of_drop hd'
      rw [if_pos hi, index_of_drop hd', ok_bind]
      cases u <;> rfl

/-- Any other byte is no unit. -/
theorem durationUnit_other {value : Str} {i : Nat} {c : UInt8} {rest : Bytes}
    (hd : value.bytes.drop i = c :: rest) (hc : ∀ u : TimeUnit, u.letter ≠ c) :
    durationUnit value i = exit (invalidDuration value) := by
  have hi : i < value.len := lt_of_drop hd
  have hne : ∀ u : TimeUnit, ¬(c == u.letter) = true := fun u h => hc u (eq_of_beq h).symm
  have hs : ¬(c == 0x73) = true := hne .second
  have hm : ¬(c == 0x6D) = true := hne .minute
  have hh : ¬(c == 0x68) = true := hne .hour
  have hday : ¬(c == 0x64) = true := hne .day
  have hw : ¬(c == 0x77) = true := hne .week
  unfold durationUnit
  rw [if_pos hi, index_of_drop hd, ok_bind, if_neg hs, if_neg hm, if_neg hh, if_neg hday, if_neg hw]

/-- The body up to the unit: it reads the digits at its index. -/
theorem parseDurationBody_digits {value : Str} {i : Nat} {total : UInt64} {ds rest : Bytes}
    (hd : value.bytes.drop i = ds ++ rest) (hne : ds ≠ []) (hds : ds.all isAsciiDigit = true)
    (hrest : StopsNumber rest) :
    parseDurationBody value (i, total)
      = if Decimal.number ds < 2 ^ 64 then do
          let (i, unitSeconds) ← durationUnit value (i + ds.length)
          let total ← ofOption (invalidDuration value)
            ((checkedMulU64 (UInt64.ofNat (Decimal.number ds)) unitSeconds).bind
              (checkedAddU64 total))
          ok (.again (i, total))
        else exit (invalidDuration value) := by
  obtain ⟨b, ds', rfl⟩ := List.exists_cons_of_ne_nil hne
  have hd' : value.bytes.drop i = b :: (ds' ++ rest) := hd
  have hi : i < value.len := lt_of_drop hd'
  have hb : isAsciiDigit b = true := List.all_eq_true.mp hds b List.mem_cons_self
  have hlen : (b :: ds').length < value.len + 1 := by
    have := congrArg List.length hd
    rw [List.length_drop, List.length_append] at this
    unfold Str.len
    omega
  have hloop := durationNumberLoop_eq hrest (b :: ds') (value.len + 1) i 0 hd hds hlen
  have hnumber : extendNumber (0 : UInt64).toNat (b :: ds') = Decimal.number (b :: ds') := rfl
  rw [hnumber] at hloop
  unfold parseDurationBody
  dsimp only
  rw [if_pos hi, index_of_drop hd', ok_bind, hb, Bool.not_true, if_neg Bool.false_ne_true, hloop]
  by_cases h : Decimal.number (b :: ds') < 2 ^ 64
  · rw [if_pos h, if_pos h]
    rfl
  · rw [if_neg h, if_neg h]
    rfl

/-- **One pass of the outer loop reads a group**, unless the total grows out of range. -/
theorem parseDurationBody_group {value : Str} {i : Nat} {total : UInt64} {g : TimeGroup}
    {rest : Bytes} (hd : value.bytes.drop i = g.text ++ rest) (hbare : g.unit = none → rest = []) :
    parseDurationBody value (i, total)
      = if total.toNat + g.seconds < 2 ^ 64 then
          ok (.again (i + g.text.length, UInt64.ofNat (total.toNat + g.seconds)))
        else exit (invalidDuration value) := by
  have hle := g.number_le_seconds
  have hd' : value.bytes.drop i = g.digits ++ ((g.unit.map TimeUnit.letter).toList ++ rest) := by
    rw [hd, TimeGroup.text, List.append_assoc]
  have hunit : value.bytes.drop (i + g.digits.length)
      = (g.unit.map TimeUnit.letter).toList ++ rest := by
    rw [← List.drop_drop, hd', List.drop_left]
  have hseconds : g.unit.elim 1 TimeUnit.seconds < 2 ^ 64 := by
    cases g.unit with
    | none => decide
    | some u => cases u <;> decide
  rw [parseDurationBody_digits hd' g.nonempty g.decimal (stopsNumber_unit hbare)]
  by_cases hnumber : Decimal.number g.digits < 2 ^ 64
  · rw [if_pos hnumber, durationUnit_eq hunit hbare, ok_bind]
    dsimp only
    rw [add_checkedMul, toNat_ofNat_of_lt hnumber, toNat_ofNat_of_lt hseconds, Nat.add_assoc,
      ← List.length_append]
    show (ofOption _ (if total.toNat + g.seconds < 2 ^ 64 then _ else _) >>= _) = _
    by_cases h : total.toNat + g.seconds < 2 ^ 64
    · rw [if_pos h, if_pos h]
      rfl
    · rw [if_neg h, if_neg h]
      rfl
  · -- the number alone is out of range
    rw [if_neg hnumber, if_neg (by omega)]

/-! ## The whole text -/

/-- **The outer loop adds up groups**, and leaves exactly when their total is out of range. -/
theorem parseDurationLoop_eq {value : Str} :
    ∀ (gs : List TimeGroup) (fuel i : Nat) (total : UInt64), value.bytes.drop i = groupsText gs →
      OnlyLastBare gs → gs.length < fuel →
      loop (parseDurationBody value) fuel (i, total)
        = if total.toNat + groupsSeconds gs < 2 ^ 64 then
            ok (UInt64.ofNat (total.toNat + groupsSeconds gs))
          else exit (invalidDuration value)
  | [], fuel + 1, i, total, hd, _, _ => by
      have hi : ¬i < value.len := Nat.not_lt.mpr (List.drop_eq_nil_iff.mp hd)
      have htotal : total.toNat + groupsSeconds [] = total.toNat := rfl
      rw [loop, parseDurationBody]
      dsimp only
      rw [if_neg hi, htotal, if_pos total.toNat_lt, UInt64.ofNat_toNat]
      rfl
  | g :: gs, fuel + 1, i, total, hd, hbare, hfuel => by
      have hlast : g.unit = none → groupsText gs = [] := by
        intro hg
        rw [hbare.nil_of_bare hg]
        rfl
      rw [groupsText_cons] at hd
      rw [loop, parseDurationBody_group hd hlast, groupsSeconds_cons, ← Nat.add_assoc]
      by_cases h : total.toNat + g.seconds < 2 ^ 64
      · have hnext : value.bytes.drop (i + g.text.length) = groupsText gs := by
          rw [← List.drop_drop, hd, List.drop_left]
        have ih := parseDurationLoop_eq gs fuel (i + g.text.length)
          (UInt64.ofNat (total.toNat + g.seconds)) hnext hbare.tail (Nat.lt_of_succ_lt_succ hfuel)
        rw [toNat_ofNat_of_lt h] at ih
        rw [if_pos h, ok_bind]
        exact ih
      · rw [if_neg h, if_neg (by omega)]
        rfl

/-- **What is not in groups is refused.** -/
theorem parseDurationLoop_reads {value : Str} :
    ∀ (fuel i : Nat) (total : UInt64), value.len - i < fuel →
      (∃ gs, value.bytes.drop i = groupsText gs ∧ OnlyLastBare gs)
        ∨ loop (parseDurationBody value) fuel (i, total) = exit (invalidDuration value)
  | fuel + 1, i, total, hfuel => by
      rw [loop]
      rcases front_cases (value.bytes.drop i) with
        hd | ⟨g, hd, -⟩ | ⟨g, rest, hd, hg⟩ | ⟨ds, u, rest, hd, hne, hds, hu, hunit⟩ | ⟨c, rest, hd, hc⟩
      · exact Or.inl ⟨[], hd, trivial⟩
      · exact Or.inl ⟨[g], by rw [hd, groupsText_cons]; simp [groupsText], trivial⟩
      · rw [parseDurationBody_group hd (fun h => absurd h hg)]
        split
        · -- the group is read, and what follows it is groups or is refused
          have hnext : value.bytes.drop (i + g.text.length) = rest := by
            rw [← List.drop_drop, hd, List.drop_left]
          have hpos := g.text_length_pos
          have hlen : value.len - i = g.text.length + rest.length := by
            have := congrArg List.length hd
            rwa [List.length_drop, List.length_append] at this
          rw [ok_bind]
          rcases @parseDurationLoop_reads value fuel (i + g.text.length)
              (UInt64.ofNat (total.toNat + g.seconds)) (by omega) with ⟨gs, hgs, hbare⟩ | hexit
          · refine Or.inl ⟨g :: gs, ?_, hbare.cons hg⟩
            rw [hd, groupsText_cons, ← hgs, hnext]
          · exact Or.inr hexit
        · exact Or.inr rfl
      · have hstop : StopsNumber (u :: rest) := by
          intro b hb
          rw [← Option.some.inj hb]
          exact hu
        have hnext : value.bytes.drop (i + ds.length) = u :: rest := by
          rw [← List.drop_drop, hd, List.drop_left]
        refine Or.inr ?_
        rw [parseDurationBody_digits hd hne hds hstop, durationUnit_other hnext hunit]
        split <;> rfl
      · have hi : i < value.len := lt_of_drop hd
        refine Or.inr ?_
        unfold parseDurationBody
        dsimp only
        rw [if_pos hi, index_of_drop hd, ok_bind, hc, Bool.not_false, if_pos rfl]
        rfl

/-- A text in groups gives their exact sum, or is refused when that is out of range. -/
theorem parseDuration_text {value : Str} {w : Written} (h : w.text = value.bytes) :
    parseDuration value
      = if w.seconds < 2 ^ 64 then ok (.fromSecs (UInt64.ofNat w.seconds))
        else exit (invalidDuration value) := by
  have hd : value.bytes.drop 0 = groupsText w.groups := h.symm
  have hlen : w.groups.length < value.len + 1 := by
    have := groups_length_le w.groups
    have htext := congrArg List.length h
    unfold Written.text at htext
    unfold Str.len
    omega
  have hempty : ¬value.isEmpty = true := by
    unfold Str.isEmpty
    rw [← h, List.isEmpty_iff]
    exact w.text_ne_nil
  have htotal : (0 : UInt64).toNat + groupsSeconds w.groups = w.seconds := Nat.zero_add _
  unfold parseDuration
  rw [if_neg hempty, parseDurationLoop_eq w.groups _ 0 0 hd w.onlyLastBare hlen, htotal]
  split <;> rfl

/-- A text that is not in groups is refused. -/
theorem parseDuration_not_text {value : Str} (h : ¬∃ w : Written, w.text = value.bytes) :
    ∃ e, parseDuration value = exit e := by
  unfold parseDuration
  by_cases hempty : value.isEmpty = true
  · rw [if_pos hempty]
    exact ⟨_, rfl⟩
  · rw [if_neg hempty]
    rcases @parseDurationLoop_reads value (value.len + 1) 0 0 (by omega) with
      ⟨gs, hgs, hbare⟩ | hexit
    · refine absurd ⟨⟨gs, ?_, hbare⟩, hgs.symm⟩ h
      rintro rfl
      exact hempty (List.isEmpty_iff.mpr hgs)
    · rw [hexit]
      exact ⟨_, rfl⟩

/--
**`parse_duration` accepts its grammar, with the exact value.** It accepts a text exactly when
it is in groups whose exact sum of seconds fits 64 bits, and gives that sum. Among the texts
in groups it refuses those only whose exact sum does not fit: no digit, product or partial sum
overflows before the whole does. It always answers.
-/
theorem parseDuration_exact (value : Str) :
    (∀ d, parseDuration value = ok d
        ↔ ∃ w : Written, w.text = value.bytes ∧ w.seconds ≤ 2 ^ 64 - 1
          ∧ d.secs.toNat = w.seconds ∧ d.nanos = 0)
      ∧ (∀ w : Written, w.text = value.bytes →
          (parseDuration value = exit (invalidDuration value) ↔ 2 ^ 64 - 1 < w.seconds))
      ∧ ((∃ d, parseDuration value = ok d) ∨ ∃ e, parseDuration value = exit e) := by
  refine ⟨fun d => ⟨?_, ?_⟩, ?_, ?_⟩
  · intro hd
    by_cases hw : ∃ w : Written, w.text = value.bytes
    · obtain ⟨w, hw⟩ := hw
      rw [parseDuration_text hw] at hd
      by_cases hlt : w.seconds < 2 ^ 64
      · rw [if_pos hlt] at hd
        obtain rfl := Outcome.ok.inj hd
        exact ⟨w, hw, by omega, toNat_ofNat_of_lt hlt, rfl⟩
      · rw [if_neg hlt] at hd
        exact absurd hd (by simp)
    · obtain ⟨e, he⟩ := parseDuration_not_text hw
      rw [he] at hd
      exact absurd hd (by simp)
  · intro hcase
    obtain ⟨w, hw, hle, hsecs, hnanos⟩ := hcase
    have hlt : w.seconds < 2 ^ 64 := by omega
    rw [parseDuration_text hw, if_pos hlt, ← hsecs, UInt64.ofNat_toNat]
    cases d
    obtain rfl := hnanos
    rfl
  · intro w hw
    rw [parseDuration_text hw]
    by_cases hlt : w.seconds < 2 ^ 64
    · rw [if_pos hlt]
      simp only [reduceCtorEq, false_iff]
      omega
    · rw [if_neg hlt]
      simp only [true_iff]
      omega
  · by_cases hw : ∃ w : Written, w.text = value.bytes
    · obtain ⟨w, hw⟩ := hw
      rw [parseDuration_text hw]
      split
      · exact Or.inl ⟨_, rfl⟩
      · exact Or.inr ⟨_, rfl⟩
    · exact Or.inr (parseDuration_not_text hw)

/-- `1m5`. -/
def minuteFive : Written where
  groups := [⟨bytes "1", some .minute, by decide, by decide⟩, ⟨bytes "5", none, by decide, by decide⟩]
  nonempty := List.cons_ne_nil _ _
  onlyLastBare := ⟨by decide, trivial⟩

/-- The first number that does not fit. -/
def tooLarge : Written where
  groups := [⟨bytes "18446744073709551616", none, by decide, by decide⟩]
  nonempty := List.cons_ne_nil _ _
  onlyLastBare := trivial

theorem parseDuration_exact_sample :
    parseDuration (.lit "1m5") = ok (.fromSecs 65)
      ∧ parseDuration (.lit "18446744073709551616")
        = exit (invalidDuration (.lit "18446744073709551616")) := by
  refine ⟨?_, ?_⟩
  · exact ((parseDuration_exact _).1 _).mpr ⟨minuteFive, rfl, by decide, rfl, rfl⟩
  · exact ((parseDuration_exact _).2.1 tooLarge rfl).mpr (by decide)

end SigV4
