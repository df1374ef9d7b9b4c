import SigV4.Lib.Calendar
import SigV4.Lib.Decimal
import SigV4.Lib.Hex
import SigV4.Lib.Str

/-!
# Dates and scopes

`X-Amz-Date` names an instant of the Gregorian calendar, in sixteen bytes.
`readInstant` reads those bytes and `Instant.write` writes them; each undoes the
other. A credential is five fields between slashes.
-/

namespace SigV4.Spec

open Ascii Decimal

/-! ## Instants -/

/-- A time of day on a date that exists, in a year of four digits. -/
structure Instant where
  year : Nat
  month : Nat
  day : Nat
  hour : Nat
  minute : Nat
  second : Nat
  year_le : year ≤ 9999
  isDate : Calendar.IsDate year month day
  hour_le : hour ≤ 23
  minute_le : minute ≤ 59
  second_le : second ≤ 59
  deriving DecidableEq

namespace Instant

/-- `YYYYMMDD`. -/
def date (i : Instant) : Bytes := fixed 4 i.year ++ fixed 2 i.month ++ fixed 2 i.day

/-- `HHMMSS`. -/
def time (i : Instant) : Bytes := fixed 2 i.hour ++ fixed 2 i.minute ++ fixed 2 i.second

/-- `YYYYMMDDTHHMMSSZ`. -/
def write (i : Instant) : Bytes := i.date ++ upperT :: (i.time ++ [upperZ])

/-- Seconds since the Unix epoch. -/
def epochSeconds (i : Instant) : Int :=
  Calendar.epochSeconds i.year i.month i.day i.hour i.minute i.second

theorem date_length (i : Instant) : i.date.length = 8 := by
  unfold date
  simp only [List.length_append, fixed_length]

theorem date_digits (i : Instant) : i.date.all isAsciiDigit = true := by
  unfold date
  simp only [List.all_append, fixed_digits, Bool.and_self]

theorem time_digits (i : Instant) : i.time.all isAsciiDigit = true := by
  unfold time
  simp only [List.all_append, fixed_digits, Bool.and_self]

/-- The date as text. -/
def dateText (i : Instant) : Str := ⟨i.date, Utf8.valid_of_ascii (digits_ascii i.date_digits)⟩

end Instant

/-- `n` bytes from offset `a`. -/
def cut (v : Bytes) (a n : Nat) : Bytes := (v.drop a).take n

/-- The number at an offset. -/
def numberAt (v : Bytes) (a n : Nat) : Nat := number (cut v a n)

/-- The sixteen bytes of an instant. -/
structure IsInstant (v : Bytes) : Prop where
  length : v.length = 16
  t : v[8]? = some upperT
  z : v[15]? = some upperZ
  year : (cut v 0 4).all isAsciiDigit = true
  month : (cut v 4 2).all isAsciiDigit = true
  day : (cut v 6 2).all isAsciiDigit = true
  hour : (cut v 9 2).all isAsciiDigit = true
  minute : (cut v 11 2).all isAsciiDigit = true
  second : (cut v 13 2).all isAsciiDigit = true
  isDate : Calendar.IsDate (numberAt v 0 4) (numberAt v 4 2) (numberAt v 6 2)
  hour_le : numberAt v 9 2 ≤ 23
  minute_le : numberAt v 11 2 ≤ 59
  second_le : numberAt v 13 2 ≤ 59

theorem cut_length {v : Bytes} {a n : Nat} (h : a + n ≤ v.length) : (cut v a n).length = n := by
  unfold cut
  rw [List.length_take, List.length_drop]
  omega

/-- The instant that sixteen bytes name. -/
def IsInstant.instant {v : Bytes} (h : IsInstant v) : Instant where
  year := numberAt v 0 4
  month := numberAt v 4 2
  day := numberAt v 6 2
  hour := numberAt v 9 2
  minute := numberAt v 11 2
  second := numberAt v 13 2
  year_le := by
    have hlt := number_lt h.year
    have hlen := h.length
    rw [cut_length (by omega)] at hlt
    unfold numberAt
    omega
  isDate := h.isDate
  hour_le := h.hour_le
  minute_le := h.minute_le
  second_le := h.second_le

/-- **Reading then writing** gives the sixteen bytes back. -/
theorem IsInstant.write {v : Bytes} (h : IsInstant v) : h.instant.write = v := by
  have hback : ∀ {a n : Nat}, a + n ≤ v.length → (cut v a n).all isAsciiDigit = true →
      fixed n (numberAt v a n) = cut v a n := by
    intro a n hle hall
    have := fixed_number hall
    rw [cut_length hle] at this
    exact this
  have hlen := h.length
  unfold Instant.write Instant.date Instant.time IsInstant.instant
  dsimp only
  rw [hback (by omega) h.year, hback (by omega) h.month, hback (by omega) h.day,
    hback (by omega) h.hour, hback (by omega) h.minute, hback (by omega) h.second]
  have ht := h.t
  have hz := h.z
  clear hback h
  match v, hlen with
  | [_, _, _, _, _, _, _, _, t, _, _, _, _, _, _, z], _ =>
      simp only [List.getElem?_cons_succ, List.getElem?_cons_zero, Option.some.injEq] at ht hz
      subst ht; subst hz
      rfl

/-- The fields of a written instant stand where they are read. -/
theorem Instant.numberAt_write (i : Instant) :
    numberAt i.write 0 4 = i.year ∧ numberAt i.write 4 2 = i.month
      ∧ numberAt i.write 6 2 = i.day ∧ numberAt i.write 9 2 = i.hour
      ∧ numberAt i.write 11 2 = i.minute ∧ numberAt i.write 13 2 = i.second := by
  obtain ⟨_, hm12, _, hdle⟩ := i.isDate
  have hd31 := Nat.le_trans hdle (Calendar.monthLength_le _ _)
  have hyear := i.year_le
  have hhour := i.hour_le
  have hmin := i.minute_le
  have hsec := i.second_le
  refine ⟨?_, ?_, ?_, ?_, ?_, ?_⟩
  · exact number_fixed (w := 4) (by omega)
  · exact number_fixed (w := 2) (by omega)
  · exact number_fixed (w := 2) (by omega)
  · exact number_fixed (w := 2) (by omega)
  · exact number_fixed (w := 2) (by omega)
  · exact number_fixed (w := 2) (by omega)

theorem Instant.isInstant (i : Instant) : IsInstant i.write := by
  obtain ⟨hy, hm, hd, hh, hn, hs⟩ := i.numberAt_write
  exact {
    length := rfl
    t := rfl
    z := rfl
    year := fixed_digits 4 i.year
    month := fixed_digits 2 i.month
    day := fixed_digits 2 i.day
    hour := fixed_digits 2 i.hour
    minute := fixed_digits 2 i.minute
    second := fixed_digits 2 i.second
    isDate := by rw [hy, hm, hd]; exact i.isDate
    hour_le := by rw [hh]; exact i.hour_le
    minute_le := by rw [hn]; exact i.minute_le
    second_le := by rw [hs]; exact i.second_le }

theorem Instant.write_injective {i j : Instant} (h : i.write = j.write) : i = j := by
  obtain ⟨hy, hm, hd, hh, hn, hs⟩ := i.numberAt_write
  obtain ⟨hy', hm', hd', hh', hn', hs'⟩ := j.numberAt_write
  rw [h] at hy hm hd hh hn hs
  cases i
  cases j
  simp only [Instant.mk.injEq]
  exact ⟨hy.symm.trans hy', hm.symm.trans hm', hd.symm.trans hd', hh.symm.trans hh',
    hn.symm.trans hn', hs.symm.trans hs'⟩

/-! ## Expiry -/

/-- The seconds a decimal text stands for: digits, after an optional `+`. -/
def IsExpires (v : Bytes) (n : Nat) : Prop :=
  ∃ ds : Bytes, (v = ds ∨ v = plus :: ds) ∧ ds ≠ [] ∧ ds.all isAsciiDigit = true ∧ number ds = n

theorem IsExpires.unique {v : Bytes} {m n : Nat} (hm : IsExpires v m) (hn : IsExpires v n) :
    m = n := by
  have hplus : ∀ ds : Bytes, (plus :: ds).all isAsciiDigit ≠ true := by
    intro ds h
    have := List.all_eq_true.mp h plus List.mem_cons_self
    exact absurd this (by decide)
  obtain ⟨ds, hv, _, hds, rfl⟩ := hm
  obtain ⟨es, hw, _, hes, rfl⟩ := hn
  rcases hv with rfl | rfl
  · rcases hw with rfl | rfl
    · rfl
    · exact absurd hds (hplus es)
  · rcases hw with rfl | hw
    · exact absurd hes (hplus ds)
    · rw [(List.cons.inj hw).2]

/-! ## Credentials -/

/-- The five fields of a credential. -/
structure ScopeFields where
  accessKey : Bytes
  date : Bytes
  region : Bytes
  service : Bytes
  terminal : Bytes
  deriving DecidableEq

/-- A credential splits at its slashes into five fields, none of them empty, the second
of them eight digits. -/
structure IsScope (v : Bytes) (f : ScopeFields) : Prop where
  split : v.splitOn slash = [f.accessKey, f.date, f.region, f.service, f.terminal]
  accessKey_ne : f.accessKey ≠ []
  date_length : f.date.length = 8
  date_digits : f.date.all isAsciiDigit = true
  region_ne : f.region ≠ []
  service_ne : f.service ≠ []
  terminal_ne : f.terminal ≠ []

/-- The fields after the first, with the slashes between them: the credential scope. -/
def ScopeFields.scope (f : ScopeFields) : Bytes :=
  f.date ++ slash :: (f.region ++ slash :: (f.service ++ slash :: f.terminal))

theorem IsScope.eq {v : Bytes} {f : ScopeFields} (h : IsScope v f) :
    v = f.accessKey ++ slash :: f.scope := by
  have hv : [slash].intercalate (v.splitOn slash) = v := List.intercalate_splitOn slash
  rw [h.split] at hv
  rw [← hv]
  simp [ScopeFields.scope]

theorem IsScope.unique {v : Bytes} {f g : ScopeFields} (hf : IsScope v f) (hg : IsScope v g) :
    f = g := by
  have h := hf.split.symm.trans hg.split
  cases f
  cases g
  simp only [List.cons.injEq, and_true] at h
  simp only [ScopeFields.mk.injEq]
  exact h

/-- The five fields of a credential, joined, split into these five fields. -/
theorem isScope_of_fields {f : ScopeFields} (hkey : slash ∉ f.accessKey) (hkey_ne : f.accessKey ≠ [])
    (hlen : f.date.length = 8) (hdigits : f.date.all isAsciiDigit = true)
    (hregion : slash ∉ f.region) (hregion_ne : f.region ≠ []) (hservice : f.service = bytes "s3")
    (hterminal : f.terminal = bytes "aws4_request") :
    IsScope (f.accessKey ++ slash :: f.scope) f := by
  have hdate : slash ∉ f.date := by
    intro h
    exact absurd (List.all_eq_true.mp hdigits slash h) (by decide)
  refine ⟨?_, hkey_ne, hlen, hdigits, hregion_ne, ?_, ?_⟩
  · unfold ScopeFields.scope
    rw [List.splitOn_append_cons_self_of_not_mem hkey, List.splitOn_append_cons_self_of_not_mem hdate,
      List.splitOn_append_cons_self_of_not_mem hregion, hservice, hterminal]
    rfl
  · rw [hservice]; decide
  · rw [hterminal]; decide

end SigV4.Spec
