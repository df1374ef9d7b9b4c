import SigV4.Lib.Decimal
import SigV4.Verifier.Sign
import SigV4.Verifier.Uri

/-!
# The presigner of the tests

`presigned_uri`, which signs the URIs that the tests and the benchmarks send, and the helpers that
tamper with what it wrote. It decodes, sorts and encodes on its own, without the checks of the
verifier: a `%` is taken for an escape, whatever follows. Byte helpers, sorting and the loop over a
path are the verifier's, word for word, and so are their definitions here.
-/

namespace SigV4.Presigner

open Outcome Ascii

variable {ε : Type}

/-! ## Text -/

/-- `format!` of texts. -/
def format (parts : List Str) : Str := parts.foldr Str.append .empty

/-- `parts.join(sep)`. -/
def join (sep : Str) : List Str → Str
  | [] => .empty
  | [part] => part
  | part :: parts => part.append (sep.append (join sep parts))

/-- `n.to_string()`. -/
def toText (n : Nat) : Str :=
  ⟨Decimal.write n, Utf8.valid_of_ascii (Decimal.digits_ascii (Decimal.write_digits n))⟩

/-! ## What is signed -/

/-- The signing time; the clock of the tests is left out. -/
structure AmzTime where
  date : Str
  timestamp : Str

/-- A parameter as it is written, not encoded. -/
structure RawQueryParam where
  name : Str
  value : Str

structure PresignInput where
  method : Str
  path : Str
  host : Str
  accessKey : Str
  secretKey : Str
  region : Str
  signTime : AmzTime
  expires : Duration
  extra : List RawQueryParam

/-- `TEST_SERVICE`. -/
def testService : Str := .lit "s3"

def qp (name value : Str) : RawQueryParam := ⟨name, value⟩

/-! ## Encoding -/

def uriEncode (value : Bytes) : Outcome ε Bytes :=
  value.foldlM (fun (out : Bytes) (c : UInt8) =>
    if isUnreserved c then ok (out ++ [c]) else writeEscapedByte out c) []

/-- `String::from_utf8(uri_encode(value)).expect(..)`. -/
def uriEncodeStr (value : Str) : Outcome ε Str := do
  let encoded ← uriEncode value.bytes
  expect (Str.fromUtf8 encoded)

/-- The body of the loop in `percent_decode`. -/
def percentDecodeBody (value : Bytes) : Nat × Bytes → Outcome ε (Pass (Nat × Bytes) Bytes)
  | (i, out) =>
    if i < value.length then do
      let c ← index value i
      if c != percent then ok (.again (i + 1, out ++ [c]))
      else do
        let b ← escapedByte value i
        ok (.again (i + 3, out ++ [b]))
    else ok (.leave out)

def percentDecode (value : Bytes) : Outcome ε Bytes :=
  loop (percentDecodeBody value) (value.length + 1) (0, [])

/-- `hex_lower`, as text. -/
def hexLower (bs : Bytes) : Outcome ε Str :=
  bs.foldlM (fun (out : Str) (b : UInt8) => do
    let h ← SigV4.hexLower (b >>> 4)
    let l ← SigV4.hexLower (b &&& 0x0F)
    ok ((out.push (Char.ofNat h.toNat)).push (Char.ofNat l.toNat))) .empty

/-! ## Canonical forms -/

/-- What `test_canonical_query` does with one `&`-separated piece. `EncodedQueryParam` has the
fields of `CanonicalQueryParam`, and derives its order. -/
def testCanonicalQueryPart (params : List CanonicalQueryParam) (part : Bytes) :
    Outcome ε (List CanonicalQueryParam) := do
  let (nameRaw, valueRaw) ← cutPart part
  let name ← percentDecode nameRaw
  let value ← percentDecode valueRaw
  if name == xAmzSignature then ok params
  else do
    let name ← uriEncode name
    let value ← uriEncode value
    ok (params ++ [⟨name, value⟩])

def testCanonicalQuery (rawQuery : Bytes) : Outcome ε Bytes := do
  let params ← (rawQuery.splitOn amp).foldlM testCanonicalQueryPart []
  ok (writeParams (sortParams params))

/-- `test_canonical_path`: the loop of `canonical_uri_from_valid_path`. -/
def testCanonicalPath (rawPath : Bytes) : Outcome ε Bytes :=
  loop (canonicalUriBody rawPath) (rawPath.length + 1) (0, [])

/-! ## Signing -/

def testSignature (C : Crypto) (secretKey date region service : Str) (stringToSign : Bytes) :
    Digest :=
  let kDate := C.hmacSha256 (format [.lit "AWS4", secretKey]).bytes date.bytes
  let kRegion := C.hmacSha256 kDate.val region.bytes
  let kService := C.hmacSha256 kRegion.val service.bytes
  let kSigning := C.hmacSha256 kService.val (bytes "aws4_request")
  C.hmacSha256 kSigning.val stringToSign

def joinRawQuery (params : List RawQueryParam) : Str :=
  join (.lit "&") (params.map fun param => format [param.name, .lit "=", param.value])

/-- The parameters before signing. -/
def PresignInput.params (input : PresignInput) (credential : Str) : List RawQueryParam :=
  [qp (.lit "X-Amz-Algorithm") (.lit "AWS4-HMAC-SHA256"),
    qp (.lit "X-Amz-Credential") credential,
    qp (.lit "X-Amz-Date") input.signTime.timestamp,
    qp (.lit "X-Amz-Expires") (toText input.expires.secs.toNat),
    qp (.lit "X-Amz-SignedHeaders") (.lit "host")] ++ input.extra

/-- `credential_scope`. -/
def PresignInput.credentialScope (input : PresignInput) : Str :=
  format [input.signTime.date, .lit "/", input.region, .lit "/", testService, .lit "/aws4_request"]

def presignedUri (C : Crypto) (input : PresignInput) : Outcome ε Str := do
  let credential ← uriEncodeStr (format [input.accessKey, .lit "/", input.credentialScope])
  let rawQuery := joinRawQuery (input.params credential)
  let canonicalPath ← testCanonicalPath input.path.bytes
  let canonicalQuery ← testCanonicalQuery rawQuery.bytes
  let canonicalRequest := input.method.bytes ++ [lf] ++ canonicalPath ++ [lf] ++ canonicalQuery
    ++ bytes "\nhost:" ++ input.host.trim.toAsciiLowercase.bytes
    ++ bytes "\n\nhost\nUNSIGNED-PAYLOAD"
  let hash ← hexLower (C.sha256 canonicalRequest).val
  let stringToSign := format [.lit "AWS4-HMAC-SHA256\n", input.signTime.timestamp, .lit "\n",
    input.credentialScope, .lit "\n", hash]
  let signature := testSignature C input.secretKey input.signTime.date input.region testService
    stringToSign.bytes
  let signature ← hexLower signature.val
  ok (format [input.path, .lit "?", rawQuery, .lit "&X-Amz-Signature=", signature])

/-! ## Tampering -/

/-- `raw_uri.split_once('?')`. -/
def cutUri (rawUri : Str) : Option (Str × Str) := rawUri.splitOnce question (by decide)

/-- `query.split('&')`. -/
def partsOf (query : Str) : List Str := query.split amp (by decide)

/-- `part.split_once('=')`. -/
def cutParam (part : Str) : Option (Str × Str) := part.splitOnce equals (by decide)

def removeQueryParam (rawUri key : Str) : Str :=
  match cutUri rawUri with
  | none => rawUri
  | some (path, query) =>
    let parts := (partsOf query).filter fun part => (cutParam part).map Prod.fst != some key
    format [path, .lit "?", join (.lit "&") parts]

def replaceQueryParam (rawUri key rawValue : Str) : Str :=
  match cutUri rawUri with
  | none => rawUri
  | some (path, query) =>
    let parts := (partsOf query).map fun part =>
      match cutParam part with
      | none => part
      | some (name, _) => if name == key then format [key, .lit "=", rawValue] else part
    format [path, .lit "?", join (.lit "&") parts]

/-- `"0".repeat(64)`. -/
def zeros : Str := .ofChars (List.replicate 64 '0')

/-- The loop in `tampered_signature`. -/
def tamperParts : List Str → Outcome ε Str
  | [] => ok zeros
  | part :: parts =>
    match cutParam part with
    | none => tamperParts parts
    | some (name, value) =>
      if name == .lit "X-Amz-Signature" && !value.isEmpty then do
        let first ← index value.bytes 0
        let replacement : Str := if first == zero then .lit "1" else .lit "0"
        let rest ← value.sliceFrom 1
        ok (format [replacement, rest])
      else tamperParts parts

def tamperedSignature (rawUri : Str) : Outcome ε Str :=
  match cutUri rawUri with
  | none => ok zeros
  | some (_, query) => tamperParts (partsOf query)

end SigV4.Presigner
