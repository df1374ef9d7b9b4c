import SigV4.Verifier.Escape

/-!
# Credential scopes, dates and signatures

The parsers of the parameter values: `X-Amz-Credential`, `X-Amz-Date`,
`X-Amz-Expires` and `X-Amz-Signature`, and the clock.

A function that returns `Option` in the source leaves with `exit ()` where the
source says `return None`.
-/

namespace SigV4

open Outcome Ascii

variable {ε : Type}

theorem slash_lt : slash < 0x80 := by decide

/-! ## `X-Amz-Credential` -/

def parseCredentialScope (value : Str) : Outcome UriError CredentialScope :=
  match value.split slash slash_lt with
  | [accessKey, date, region, service, terminal] =>
    if accessKey.isEmpty || region.isEmpty || service.isEmpty || terminal.isEmpty
        || date.len != 8 || !date.bytes.all isAsciiDigit then exit ⟨⟩
    else do
      -- everything after the first '/'
      let scope ← value.sliceFrom (accessKey.len + 1)
      ok { accessKey, date, region, service, terminal, scope }
  | _ => exit ⟨⟩

/-! ## `X-Amz-Date` -/

/-- The loop of `parse_digits_i32` and `parse_digits_u32`, which differ in the type
they saturate at. -/
def parseDigits (t : IntType) (bs : Bytes) : Outcome Unit Int :=
  bs.foldlM (fun (out : Int) (b : UInt8) => do
    exitIf (!isAsciiDigit b) ()
    let d ← subU8 b zero
    ok (saturate t (saturate t (out * 10) + d.toNat))) 0

def parseDigitsI32 (bs : Bytes) : Outcome Unit Int := parseDigits i32 bs

def parseDigitsU32 (bs : Bytes) : Outcome Unit Int := parseDigits u32 bs

def isLeapYear (year : Int) : Bool :=
  (year.tmod 4 == 0 && year.tmod 100 != 0) || year.tmod 400 == 0

def daysInMonth (year month : Int) : Int :=
  if month == 1 || month == 3 || month == 5 || month == 7 || month == 8 || month == 10
      || month == 12 then 31
  else if month == 4 || month == 6 || month == 9 || month == 11 then 30
  else if month == 2 then if isLeapYear year then 29 else 28
  else 0

/-- `x as i32` for a `u32`. -/
def asI32 (x : Int) : Int := if x ≤ i32.hi then x else x - 4294967296

/-- `if year >= 0 { year } else { year - 399 } / 400`. -/
def eraOf (year : Int) : Outcome ε Int :=
  if year ≥ 0 then ok (year.tdiv 400)
  else do
    let biased ← checked i32 (year - 399)
    ok (biased.tdiv 400)

def daysFromCivil (year month day : Int) : Outcome ε Int := do
  let year ← checked i32 (year - if month ≤ 2 then 1 else 0)
  let era ← eraOf year
  let eraYears ← checked i32 (era * 400)
  let yoe ← checked i32 (year - eraYears)
  let month := asI32 month
  let day := asI32 day
  let mp ← checked i32 (month + if month > 2 then -3 else 9)
  let days ← checked i32 (153 * mp)
  let days ← checked i32 (days + 2)
  let doy ← checked i32 (days.tdiv 5 + day)
  let doy ← checked i32 (doy - 1)
  let doe ← checked i32 (yoe * 365)
  let doe ← checked i32 (doe + yoe.tdiv 4)
  let doe ← checked i32 (doe - yoe.tdiv 100)
  let doe ← checked i32 (doe + doy)
  let total ← checked i64 (era * 146097)
  let total ← checked i64 (total + doe)
  checked i64 (total - 719468)

def parseAmzDate (value : Str) : Outcome Unit ParsedAmzDate := do
  let b := value.bytes
  if b.length != 16 then exit ()
  else do
    let t ← index b 8
    exitIf (t != upperT) ()
    let z ← index b 15
    exitIf (z != upperZ) ()
    let year ← parseDigitsI32 (← slice b 0 4)
    let month ← parseDigitsU32 (← slice b 4 6)
    let day ← parseDigitsU32 (← slice b 6 8)
    let hour ← parseDigitsU32 (← slice b 9 11)
    let minute ← parseDigitsU32 (← slice b 11 13)
    let second ← parseDigitsU32 (← slice b 13 15)
    exitIf (month == 0 || month > 12 || day == 0 || day > daysInMonth year month || hour > 23
      || minute > 59 || second > 59) ()
    let days ← daysFromCivil year month day
    let hours ← checked i64 (hour * 3600)
    let minutes ← checked i64 (minute * 60)
    let epochSeconds := saturate i64 (saturate i64 (saturate i64 (saturate i64 (days * 86400)
      + hours) + minutes) + second)
    let date ← value.sliceTo 8
    ok { date, epochSeconds }

/-! ## `X-Amz-Expires` -/

/-- The digits of a decimal number, added up while they fit in a `u64`. -/
def parseU64Digits (digits : Bytes) : Option Nat :=
  digits.foldlM (fun (out : Nat) (b : UInt8) =>
    if isAsciiDigit b then
      let out := out * 10 + (b.toNat - 0x30)
      if out < 18446744073709551616 then some out else none
    else none) 0

/-- `value.parse::<u64>()`: digits after an optional `+`. -/
def parseU64 (value : Str) : Option UInt64 :=
  match value.bytes with
  | [] => none
  | [c] => if c == plus || c == hyphen then none else (parseU64Digits [c]).map UInt64.ofNat
  | c :: rest =>
    (parseU64Digits (if c == plus then rest else c :: rest)).map UInt64.ofNat

/-! ## `X-Amz-Signature` -/

/-- `out[i] = b` on a `[u8; 32]`. -/
def Digest.set (out : Digest) (i : Nat) (b : UInt8) : Outcome ε Digest :=
  if i < 32 then ok ⟨out.val.set i b, by rw [List.length_set]; exact out.property⟩
  else panic .index

/-- `[0; 32]`. -/
def Digest.zero : Digest := ⟨List.replicate 32 0, by simp⟩

/-- The body of the loop in `decode_signature`. -/
def decodeSignatureBody (bs : Bytes) (out : Digest) (idx : Nat) : Outcome Unit Digest := do
  let hi ← index bs (idx * 2)
  let lo ← index bs (idx * 2 + 1)
  exitIf (!isHex hi || !isHex lo) ()
  let h ← fromHex hi
  let l ← fromHex lo
  out.set idx (h <<< 4 ||| l)

def decodeSignature (value : Str) : Outcome Unit Digest := do
  let bs := value.bytes
  exitIf (bs.length != 64) ()
  (List.range 32).foldlM (decodeSignatureBody bs) Digest.zero

/-! ## The clock -/

def systemTimeEpochSeconds (value : SystemTime) : Outcome ε Int :=
  match value.durationSinceEpoch with
  | .inl duration => ok (min (duration.secs.toNat : Int) i64.hi)
  | .inr duration => checked i64 (-min (duration.secs.toNat : Int) i64.hi)

def saturatingDurationI64 (value : Duration) : Int := min (value.secs.toNat : Int) i64.hi

end SigV4
