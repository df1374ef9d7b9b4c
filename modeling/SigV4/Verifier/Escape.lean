import SigV4.Verifier.Types

/-!
# Bytes, escapes and query components

The byte helpers at the end of the source file and the three scanners over percent
escapes: `percent_decode`, `query_component_needs_slow_path` and
`canonicalize_query_component`. Every index, digit subtraction and table lookup is
checked, and every `while` is a `loop`.
-/

namespace SigV4

open Outcome Ascii

variable {ε : Type}

/-! ## Byte helpers -/

def isUnreserved (c : UInt8) : Bool :=
  isAsciiAlphanumeric c || (c == hyphen || c == dot || c == underscore || c == tilde)

def isHex (c : UInt8) : Bool := isAsciiHexdigit c

def fromHex (c : UInt8) : Outcome ε UInt8 :=
  if 0x30 ≤ c && c ≤ 0x39 then subU8 c zero
  else if 0x61 ≤ c && c ≤ 0x66 then do
    let d ← subU8 c lowerA
    addU8 d 10
  else do
    let d ← subU8 c upperA
    addU8 d 10

def upperHex (c : UInt8) : UInt8 := if isAsciiLowercase c then toAsciiUppercase c else c

def hexUpper (n : UInt8) : Outcome ε UInt8 := index (bytes "0123456789ABCDEF") n.toNat

def hexLower (n : UInt8) : Outcome ε UInt8 := index (bytes "0123456789abcdef") n.toNat

def writeEscapedByte (out : Bytes) (c : UInt8) : Outcome ε Bytes := do
  let h ← hexUpper (c >>> 4)
  let l ← hexUpper (c &&& 0x0F)
  ok (out ++ [percent, h, l])

def appendHexLower (out bs : Bytes) : Outcome ε Bytes :=
  bs.foldlM (fun (out : Bytes) (b : UInt8) => do
    let h ← hexLower (b >>> 4)
    let l ← hexLower (b &&& 0x0F)
    ok (out ++ [h, l])) out

/-- `i + 2 < v.len() && is_hex(v[i + 1]) && is_hex(v[i + 2])`, from left to right. -/
def escapeAt (v : Bytes) (i : Nat) : Outcome ε Bool :=
  if i + 2 < v.length then do
    let h ← index v (i + 1)
    if isHex h then do
      let l ← index v (i + 2)
      ok (isHex l)
    else ok false
  else ok false

/-- `from_hex(v[i + 1]) << 4 | from_hex(v[i + 2])`. -/
def escapedByte (v : Bytes) (i : Nat) : Outcome ε UInt8 := do
  let h ← fromHex (← index v (i + 1))
  let l ← fromHex (← index v (i + 2))
  ok (h <<< 4 ||| l)

/-! ## Scanners -/

/-- The body of the loop in `percent_decode`. -/
def percentDecodeBody (value : Bytes) :
    Nat × Bytes → Outcome UriError (Pass (Nat × Bytes) Bytes)
  | (i, out) =>
    if i < value.length then do
      let c ← index value i
      if c != percent then ok (.again (i + 1, out ++ [c]))
      else do
        let complete ← escapeAt value i
        if !complete then exit ⟨⟩
        else do
          let b ← escapedByte value i
          ok (.again (i + 3, out ++ [b]))
    else ok (.leave out)

def percentDecode (value : Bytes) : Outcome UriError Bytes :=
  loop (percentDecodeBody value) (value.length + 1) (0, [])

/-- The body of the loop in `query_component_needs_slow_path`. -/
def queryComponentNeedsSlowPathBody (raw : Bytes) :
    Nat × Bool → Outcome UriError (Pass (Nat × Bool) Bool)
  | (i, slow) =>
    if i < raw.length then do
      let c ← index raw i
      if c == percent then do
        let complete ← escapeAt raw i
        if !complete then exit ⟨⟩
        else ok (.again (i + 3, true))
      else ok (.again (i + 1, if !isUnreserved c then true else slow))
    else ok (.leave slow)

def queryComponentNeedsSlowPath (raw : Bytes) : Outcome UriError Bool :=
  loop (queryComponentNeedsSlowPathBody raw) (raw.length + 1) (0, false)

/-- The body of the loop in `canonicalize_query_component`. -/
def canonicalizeQueryComponentBody (raw : Bytes) :
    Nat × Bytes × Option Bytes →
      Outcome UriError (Pass (Nat × Bytes × Option Bytes) (Bytes × Option Bytes))
  | (i, encoded, decoded) =>
    if i < raw.length then do
      let c ← index raw i
      let (b, i) ←
        if c == percent then do
          let complete ← escapeAt raw i
          if !complete then exit ⟨⟩
          else do
            let b ← escapedByte raw i
            ok (b, i + 3)
        else ok (c, i + 1)
      let decoded := decoded.map (· ++ [b])
      if isUnreserved b then ok (.again (i, encoded ++ [b], decoded))
      else do
        let encoded ← writeEscapedByte encoded b
        ok (.again (i, encoded, decoded))
    else ok (.leave (encoded, decoded))

/-- The component re-encoded and, when `wantDecoded`, decoded. A component that is
already canonical is returned as it is. -/
def canonicalizeQueryComponent (raw : Bytes) (wantDecoded : Bool) :
    Outcome UriError (Bytes × Option Bytes) := do
  let slow ← queryComponentNeedsSlowPath raw
  if !slow then ok (raw, if wantDecoded then some raw else none)
  else
    loop (canonicalizeQueryComponentBody raw) (raw.length + 1)
      (0, [], if wantDecoded then some [] else none)

end SigV4
