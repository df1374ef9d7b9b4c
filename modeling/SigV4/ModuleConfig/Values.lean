import SigV4.Verifier.Types
import SigV4.Verifier.Escape

/-!
# Directive values

`on`, `off` and `shadow`, and durations: the values of the module's directives, with the
message of each error.
-/

namespace SigV4

open Outcome Ascii

variable {ε : Type}

structure DirectiveError where
  message : List Fragment
  deriving DecidableEq

theorem equals_lt : equals < 0x80 := by decide

/-- The verification mode of a location. -/
inductive Mode where
  /-- The directive is not given at this level. -/
  | unset
  | off
  | on
  | shadow
  deriving DecidableEq, Repr

namespace Mode

def parse (value : Str) : Outcome DirectiveError Mode :=
  if value == .lit "on" then ok .on
  else if value == .lit "off" then ok .off
  else if value == .lit "shadow" then ok .shadow
  else exit ⟨[.text "invalid value ", .debug value,
    .text ", expected \"on\", \"off\", or \"shadow\""]⟩

/-- The mode of a location inside one of mode `outer`. -/
def merge (self outer : Mode) : Mode :=
  match self with
  | unset =>
    match outer with
    | unset => off
    | other => other
  | other => other

def verifies : Mode → Bool
  | on => true
  | shadow => true
  | _ => false

end Mode

def parseOnOff (value : Str) : Outcome DirectiveError Bool :=
  if value == .lit "on" then ok true
  else if value == .lit "off" then ok false
  else exit ⟨[.text "invalid value ", .debug value, .text ", expected \"on\" or \"off\""]⟩

/-! ## Durations -/

/-- `a.checked_mul(b)` on `u64`. -/
def checkedMulU64 (a b : UInt64) : Option UInt64 :=
  if a.toNat * b.toNat < 18446744073709551616 then some (a * b) else none

/-- `a.checked_add(b)` on `u64`. -/
def checkedAddU64 (a b : UInt64) : Option UInt64 :=
  if a.toNat + b.toNat < 18446744073709551616 then some (a + b) else none

/-- The message for a malformed duration. -/
def invalidDuration (value : Str) : DirectiveError := ⟨[.text "invalid duration ", .debug value]⟩

/-- The body of the loop over the digits of a number. -/
def durationNumberBody (value : Str) :
    Nat × UInt64 → Outcome DirectiveError (Pass (Nat × UInt64) (Nat × UInt64))
  | (i, number) =>
    if i < value.len then do
      let b ← index value.bytes i
      if isAsciiDigit b then do
        let digit ← subU8 b zero
        let number ← ofOption (invalidDuration value)
          ((checkedMulU64 number 10).bind (checkedAddU64 · (UInt64.ofNat digit.toNat)))
        ok (.again (i + 1, number))
      else ok (.leave (i, number))
    else ok (.leave (i, number))

/-- The seconds of the unit after a number, and where the next number starts. -/
def durationUnit (value : Str) (i : Nat) : Outcome DirectiveError (Nat × UInt64) :=
  if i < value.len then do
    let unit ← index value.bytes i
    if unit == 0x73 then ok (i + 1, 1)
    else if unit == 0x6D then ok (i + 1, 60)
    else if unit == 0x68 then ok (i + 1, 60 * 60)
    else if unit == 0x64 then ok (i + 1, 24 * 60 * 60)
    else if unit == 0x77 then ok (i + 1, 7 * 24 * 60 * 60)
    else exit (invalidDuration value)
  else ok (i, 1)

/-- The body of the loop in `parse_duration`: a number and its unit. -/
def parseDurationBody (value : Str) :
    Nat × UInt64 → Outcome DirectiveError (Pass (Nat × UInt64) UInt64)
  | (i, total) =>
    if i < value.len then do
      let b ← index value.bytes i
      if !isAsciiDigit b then exit (invalidDuration value)
      else do
        let (i, number) ← loop (durationNumberBody value) (value.len + 1) (i, 0)
        let (i, unitSeconds) ← durationUnit value i
        let total ← ofOption (invalidDuration value)
          ((checkedMulU64 number unitSeconds).bind (checkedAddU64 total))
        ok (.again (i, total))
    else ok (.leave total)

def parseDuration (value : Str) : Outcome DirectiveError Duration :=
  if value.isEmpty then exit ⟨[.text "empty duration"]⟩
  else do
    let total ← loop (parseDurationBody value) (value.len + 1) (0, 0)
    ok (.fromSecs total)

end SigV4
