import SigV4.Verifier.Escape
import Mathlib.Data.List.Sort

/-!
# URIs, paths and queries

`split_original_uri` with the two loops of `validate_raw_path`, the canonical path
with its borrowed fast path, and `canonical_query` with the parameters it collects.
-/

namespace SigV4

open Outcome Ascii

variable {ε : Type}

/-! ## Paths -/

/-- The body of the byte loop in `validate_raw_path`. -/
def validateEscapesBody (path : Bytes) : Nat × Unit → Outcome UriError (Pass (Nat × Unit) Unit)
  | (i, ()) =>
    if i < path.length then do
      let b ← index path i
      if b ≤ 0x20 || b == del then exit ⟨⟩
      else if b != percent then ok (.again (i + 1, ()))
      else do
        let complete ← escapeAt path i
        if !complete then exit ⟨⟩
        else do
          let hi := upperHex (← index path (i + 1))
          let lo := upperHex (← index path (i + 2))
          if (hi == 0x32 && lo == 0x46) || (hi == 0x35 && lo == 0x43) then exit ⟨⟩
          else ok (.again (i + 3, ()))
    else ok (.leave ())

/-- The check `validate_raw_path` makes on one segment. -/
def validateSegment (segment : Bytes) : Outcome UriError Unit :=
  if !segment.isEmpty then
    if !segment.contains percent then
      exitIf (segment == [dot] || segment == [dot, dot]) ⟨⟩
    else do
      let decoded ← percentDecode segment
      exitIf (decoded == [dot] || decoded == [dot, dot]) ⟨⟩
  else ok ()

/-- The body of the segment loop in `validate_raw_path`. -/
def validateSegmentsBody (path : Bytes) : Nat × Unit → Outcome UriError (Pass (Nat × Unit) Unit)
  | (start, ()) =>
    if start ≤ path.length then do
      let stop ← findFrom path start slash
      let segment ← slice path start stop
      validateSegment segment
      ok (.again (stop + 1, ()))
    else ok (.leave ())

/-- `path.windows(2).any(|w| w == b"//")`. -/
def hasDoubleSlash (path : Bytes) : Bool := (path.zip path.tail).any (· == (slash, slash))

def validateRawPath (path : Bytes) : Outcome UriError Unit := do
  exitIf (path.head? != some slash) ⟨⟩
  exitIf (hasDoubleSlash path) ⟨⟩
  loop (validateEscapesBody path) (path.length + 1) (0, ())
  loop (validateSegmentsBody path) (path.length + 1) (1, ())

/-- `matches!(*b, b'\r' | b'\n' | b'\t' | b' ' | b'#')`. -/
def forbiddenInUri (b : UInt8) : Bool :=
  b == cr || b == lf || b == tab || b == space || b == hash

/-- `(path, query)` in `split_original_uri`. -/
def cutOriginalUri (rawUri : Bytes) : Outcome ε (Bytes × Bytes) :=
  match rawUri.findIdx? (· == question) with
  | some idx => do
      let path ← slice rawUri 0 idx
      let query ← slice rawUri (idx + 1) rawUri.length
      ok (path, query)
  | none => ok (rawUri, [])

def splitOriginalUri (rawUri : Bytes) : Outcome UriError (Bytes × Bytes) := do
  exitIf (rawUri.head? != some slash) ⟨⟩
  exitIf (rawUri.any forbiddenInUri) ⟨⟩
  let (path, query) ← cutOriginalUri rawUri
  validateRawPath path
  ok (path, query)

/-- `c == b'%' && i + 2 < v.len() && is_hex(v[i + 1]) && is_hex(v[i + 2])`. -/
def percentAt (v : Bytes) (i : Nat) (c : UInt8) : Outcome ε Bool :=
  if c == percent then escapeAt v i else ok false

/-- The body of the loop in `is_canonical_path`. -/
def isCanonicalPathBody (rawPath : Bytes) : Nat × Unit → Outcome Unit (Pass (Nat × Unit) Unit)
  | (i, ()) =>
    if i < rawPath.length then do
      let c ← index rawPath i
      if c == slash || isUnreserved c then ok (.again (i + 1, ()))
      else do
        let complete ← percentAt rawPath i c
        if complete then do
          let h ← index rawPath (i + 1)
          let l ← index rawPath (i + 2)
          if h != upperHex h || l != upperHex l then exit ()
          else ok (.again (i + 3, ()))
        else exit ()
    else ok (.leave ())

/-- Leaving the loop early is `return false`. -/
def isCanonicalPath (rawPath : Bytes) : Outcome ε Bool :=
  ((fun _ => true) <$> loop (isCanonicalPathBody rawPath) (rawPath.length + 1) (0, ())).recover
    fun _ => false

/-- The body of the loop in `canonical_uri_from_valid_path`. -/
def canonicalUriBody (rawPath : Bytes) : Nat × Bytes → Outcome ε (Pass (Nat × Bytes) Bytes)
  | (i, out) =>
    if i < rawPath.length then do
      let c ← index rawPath i
      if c == slash then ok (.again (i + 1, out ++ [slash]))
      else do
        let complete ← percentAt rawPath i c
        if complete then do
          let h ← index rawPath (i + 1)
          let l ← index rawPath (i + 2)
          ok (.again (i + 3, out ++ [percent, upperHex h, upperHex l]))
        else if isUnreserved c then ok (.again (i + 1, out ++ [c]))
        else do
          let out ← writeEscapedByte out c
          ok (.again (i + 1, out))
    else ok (.leave out)

def canonicalUriFromValidPath (rawPath : Bytes) : Outcome ε Bytes := do
  let canonical ← isCanonicalPath rawPath
  if canonical then ok rawPath
  else loop (canonicalUriBody rawPath) (rawPath.length + 1) (0, [])

/-! ## Queries -/

/-- The bytes of `X-Amz-*` names. -/
def xAmzAlgorithm : Bytes := bytes "X-Amz-Algorithm"
def xAmzCredential : Bytes := bytes "X-Amz-Credential"
def xAmzDate : Bytes := bytes "X-Amz-Date"
def xAmzExpires : Bytes := bytes "X-Amz-Expires"
def xAmzSignedHeaders : Bytes := bytes "X-Amz-SignedHeaders"
def xAmzSignature : Bytes := bytes "X-Amz-Signature"

def isKnownQueryName (name : Bytes) : Bool :=
  name == xAmzAlgorithm || name == xAmzCredential || name == xAmzDate || name == xAmzExpires
    || name == xAmzSignedHeaders || name == xAmzSignature

def SigV4Query.set (self : SigV4Query) (name value : Bytes) : Outcome UriError SigV4Query := do
  let value ← ofOption ⟨⟩ (Str.fromUtf8 value)
  if name == xAmzAlgorithm then
    ok { self with algorithm := value, algorithmCount := self.algorithmCount + 1 }
  else if name == xAmzCredential then
    ok { self with credential := value, credentialCount := self.credentialCount + 1 }
  else if name == xAmzDate then
    ok { self with date := value, dateCount := self.dateCount + 1 }
  else if name == xAmzExpires then
    ok { self with expires := value, expiresCount := self.expiresCount + 1 }
  else if name == xAmzSignedHeaders then
    ok { self with signedHeaders := value, signedHeadersCount := self.signedHeadersCount + 1 }
  else if name == xAmzSignature then
    ok { self with signature := value, signatureCount := self.signatureCount + 1 }
  else ok self

def singleKnownQueryValue (value : Str) (count : Nat) : Option Str :=
  if count == 1 then some value else none

/-- `name_raw` and `value_raw`: a piece cut at its first `=`. -/
def cutPart (part : Bytes) : Outcome ε (Bytes × Bytes) := do
  let eq := (part.findIdx? (· == equals)).getD part.length
  let nameRaw ← slice part 0 eq
  if eq < part.length then do
    let valueRaw ← slice part (eq + 1) part.length
    ok (nameRaw, valueRaw)
  else ok (nameRaw, [])

/-- `if known_name { values.set(..)?; }`. -/
def SigV4Query.setIf (self : SigV4Query) (knownName : Bool) (name : Bytes)
    (value : Option Bytes) : Outcome UriError SigV4Query :=
  if knownName then do
    let value ← expect value
    self.set name value
  else ok self

/-- What `canonical_query` does with one `&`-separated piece. -/
def canonicalQueryPart : List CanonicalQueryParam × SigV4Query → Bytes →
    Outcome UriError (List CanonicalQueryParam × SigV4Query)
  | (params, values), part => do
    let (nameRaw, valueRaw) ← cutPart part
    let (encodedName, decodedName) ← canonicalizeQueryComponent nameRaw true
    let decodedName ← expect decodedName
    exitIf decodedName.isEmpty ⟨⟩
    if decodedName == xAmzSignature then do
      let (_, decodedValue) ← canonicalizeQueryComponent valueRaw true
      let values ← values.setIf true decodedName decodedValue
      ok (params, values)
    else do
      let knownName := isKnownQueryName decodedName
      let (encodedValue, decodedValue) ← canonicalizeQueryComponent valueRaw knownName
      let values ← values.setIf knownName decodedName decodedValue
      ok (params ++ [⟨encodedName, encodedValue⟩], values)

/-- The body of the loop in `canonical_query`. -/
def canonicalQueryBody (rawQuery : Bytes) :
    Nat × (List CanonicalQueryParam × SigV4Query) →
      Outcome UriError (Pass (Nat × (List CanonicalQueryParam × SigV4Query))
        (List CanonicalQueryParam × SigV4Query))
  | (start, collected) =>
    if start < rawQuery.length then do
      let stop ← findFrom rawQuery start amp
      if stop == start then exit ⟨⟩
      else do
        let part ← slice rawQuery start stop
        let collected ← canonicalQueryPart collected part
        ok (.again (stop + 1, collected))
    else ok (.leave collected)

/-- The comparison `params` is sorted by: names, then values, as byte strings. -/
def CanonicalQueryParam.cmp (a b : CanonicalQueryParam) : Ordering :=
  match compare a.name b.name with
  | .eq => compare a.value b.value
  | ordering => ordering

/-- `a` may stand before `b`. -/
def CanonicalQueryParam.le (a b : CanonicalQueryParam) : Prop := (a.cmp b).isLE = true

instance : DecidableRel CanonicalQueryParam.le := fun a b =>
  inferInstanceAs (Decidable ((a.cmp b).isLE = true))

/-- `params.sort_unstable_by(..)`. Ties are byte-identical under the comparison, so
every sort gives this list. -/
def sortParams (params : List CanonicalQueryParam) : List CanonicalQueryParam :=
  params.insertionSort CanonicalQueryParam.le

/-- `name=value`. -/
def CanonicalQueryParam.write (param : CanonicalQueryParam) : Bytes :=
  param.name ++ equals :: param.value

/-- The loop that writes the parameters: an `&` before each but the first. -/
def writeParams (params : List CanonicalQueryParam) : Bytes :=
  (params.foldl (fun (idx, out) param =>
    (idx + 1, (if idx > 0 then out ++ [amp] else out) ++ param.write)) ((0 : Nat), ([] : Bytes))).2

def canonicalQuery (rawQuery : Bytes) : Outcome UriError (Bytes × SigV4Query) :=
  if rawQuery.isEmpty then ok ([], .default)
  else if rawQuery.getLast? == some amp then exit ⟨⟩
  else do
    let (params, values) ←
      loop (canonicalQueryBody rawQuery) (rawQuery.length + 2) (0, [], SigV4Query.default)
    ok (writeParams (sortParams params), values)

end SigV4
