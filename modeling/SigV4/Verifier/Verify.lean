import SigV4.Verifier.Config

/-!
# `Verifier::verify`

The decision, in the order the source makes it: the request line, the query
parameters, the credential's policy, the time window, and last the signature. The
early returns of each stretch are early exits with the answer.

Only the signing-key cache changes, and only when the signature is computed: every
answer before that leaves the verifier as it was.
-/

namespace SigV4

open Outcome Ascii

variable {ε : Type}

def asciiUpperCow (value : Str) : Str :=
  if value.bytes.any isAsciiLowercase then value.toAsciiUppercase else value

def asciiLowerCow (value : Str) : Str :=
  if value.bytes.any isAsciiUppercase then value.toAsciiLowercase else value

namespace CompiledCredential

def methodAllowed (self : CompiledCredential) (method : Str) : Bool :=
  decide (self.allowedMethods = ∅) || decide (method ∈ self.allowedMethods)

def hostAllowed (self : CompiledCredential) (host : Str) : Bool :=
  decide (self.allowedHosts = ∅) || decide (host ∈ self.allowedHosts)

end CompiledCredential

/-- `path.strip_prefix(prefix)` and the test on what is left. -/
def pathMatchesPrefix (path pfx : Bytes) : Bool :=
  if pfx.isPrefixOf path then
    let suffix := path.drop pfx.length
    suffix.isEmpty || pfx.getLast? == some slash || suffix.head? == some slash
  else false

def CompiledCredential.pathAllowed (self : CompiledCredential) (path : Bytes) : Bool :=
  self.allowedPrefixes.isEmpty || self.allowedPrefixes.any (pathMatchesPrefix path)

/-- `return deny(reason, path, &hash_access_key(access_key))`. -/
def denyFor {α : Type} (C : Crypto) (reason : Reason) (path : Bytes) (accessKey : Str) :
    Outcome VerifyResult α := do
  let hash ← hashAccessKey C accessKey
  exit (deny reason path hash)

/-- `let Some(a) = o else { return deny(reason, path, &hash_access_key(access_key)) }`. -/
def someOrDeny {α : Type} (C : Crypto) (reason : Reason) (path : Bytes) (accessKey : Str) :
    Option α → Outcome VerifyResult α
  | some a => ok a
  | none => denyFor C reason path accessKey

/-- `if c { return deny(reason, path, &hash_access_key(access_key)) }`. -/
def denyIf (C : Crypto) (c : Bool) (reason : Reason) (path : Bytes) (accessKey : Str) :
    Outcome VerifyResult Unit :=
  if c then denyFor C reason path accessKey else ok ()

/-- The request line: method and host normalised, the URI cut, the query parsed. -/
structure RequestLine where
  method : Str
  host : Str
  rawPath : Bytes
  canonicalQueryString : Bytes
  query : SigV4Query

/-- `verify`, up to the canonical query. -/
def checkRequestLine (self : State) (method : Str) (rawUri : Bytes) (host : Str) :
    Outcome VerifyResult RequestLine := do
  let method := asciiUpperCow method.trim
  let host := asciiLowerCow host.trim
  exitIf (method.isEmpty || rawUri.isEmpty || host.isEmpty) (deny .missingMetadata [] .empty)
  if method ∉ self.supportedMethods then do
    let path ← (Prod.fst <$> splitOriginalUri rawUri).recover fun _ => []
    exit (deny .unsupportedMethod path .empty)
  else do
    let (rawPath, rawQuery) ←
      (splitOriginalUri rawUri).mapExit fun _ => deny .invalidUri [] .empty
    let (canonicalQueryString, query) ←
      (canonicalQuery rawQuery).mapExit fun _ => deny .invalidUri rawPath .empty
    ok { method, host, rawPath, canonicalQueryString, query }

/-- The parameter values `verify` goes on with. -/
structure Parameters where
  scope : CredentialScope
  amzDate : Str
  parsedDate : ParsedAmzDate
  expiresSeconds : UInt64

/-- `verify`, from the algorithm to the presence of the signature. -/
def checkParameters (C : Crypto) (self : State) (path : Bytes) (query : SigV4Query) :
    Outcome VerifyResult Parameters := do
  let alg ← ofOption (deny .missingQueryParam path .empty)
    (singleKnownQueryValue query.algorithm query.algorithmCount)
  exitIf (alg != algorithm) (deny .unsupportedAlgorithm path .empty)
  let credentialValue ← ofOption (deny .missingQueryParam path .empty)
    (singleKnownQueryValue query.credential query.credentialCount)
  let scope ← (parseCredentialScope credentialValue).mapExit fun _ =>
    deny .invalidCredentialScope path .empty
  denyIf C (scope.service != self.settings.supportedService || scope.terminal != terminal)
    .invalidCredentialScope path scope.accessKey
  let signedHeaders ← someOrDeny C .missingQueryParam path scope.accessKey
    (singleKnownQueryValue query.signedHeaders query.signedHeadersCount)
  denyIf C (signedHeaders != .lit "host") .unsupportedSignedHeader path scope.accessKey
  let amzDate ← someOrDeny C .missingQueryParam path scope.accessKey
    (singleKnownQueryValue query.date query.dateCount)
  let parsed ← (some <$> parseAmzDate amzDate).recover fun _ => none
  let parsedDate ← someOrDeny C .invalidCredentialScope path scope.accessKey
    (parsed.filter (·.date == scope.date))
  let expiresValue ← someOrDeny C .missingQueryParam path scope.accessKey
    (singleKnownQueryValue query.expires query.expiresCount)
  let expiresSeconds ← someOrDeny C .invalidExpiry path scope.accessKey (parseU64 expiresValue)
  denyIf C (expiresSeconds == 0 || expiresSeconds > maxSigv4ExpiresSecs) .invalidExpiry path
    scope.accessKey
  denyIf C (singleKnownQueryValue query.signature query.signatureCount).isNone .missingQueryParam
    path scope.accessKey
  ok { scope, amzDate, parsedDate, expiresSeconds }

/-- What `verify` checks of the credential it has found. -/
def checkCredential (line : RequestLine) (params : Parameters) (cred : CompiledCredential) :
    Outcome VerifyResult Unit := do
  exitIf (!cred.enabled) (deny .unauthorized line.rawPath cred.accessKeyHash)
  exitIf (!cred.methodAllowed line.method || !cred.hostAllowed line.host
    || !cred.pathAllowed line.rawPath) (deny .unauthorized line.rawPath cred.accessKeyHash)
  exitIf (cred.maxExpires.lt (.fromSecs params.expiresSeconds))
    (deny .invalidExpiry line.rawPath cred.accessKeyHash)

/-- `verify`, from the credential lookup to the credential's expiry cap. -/
def checkPolicy (C : Crypto) (self : State) (line : RequestLine) (params : Parameters) :
    Outcome VerifyResult CompiledCredential := do
  let cred ← someOrDeny C .unknownAccessKey line.rawPath params.scope.accessKey
    (self.credentials.lookup params.scope.accessKey)
  checkCredential line params cred
  ok cred

/-- `verify`, the two time checks. -/
def checkWindow (self : State) (line : RequestLine) (params : Parameters)
    (cred : CompiledCredential) (now : SystemTime) : Outcome VerifyResult Unit := do
  let nowSeconds ← systemTimeEpochSeconds now
  let skew := saturatingDurationI64 self.settings.allowedClockSkew
  exitIf (params.parsedDate.epochSeconds > saturate i64 (nowSeconds + skew))
    (deny .futureDated line.rawPath cred.accessKeyHash)
  exitIf (nowSeconds > saturate i64 (params.parsedDate.epochSeconds
    + min (params.expiresSeconds.toNat : Int) i64.hi))
    (deny .expired line.rawPath cred.accessKeyHash)

/-- Everything `verify` checks before it computes a signature. -/
def checkRequest (C : Crypto) (self : State) (method : Str) (rawUri : Bytes) (host : Str)
    (now : SystemTime) : Outcome VerifyResult (RequestLine × Parameters × CompiledCredential) := do
  let line ← checkRequestLine self method rawUri host
  let params ← checkParameters C self line.rawPath line.query
  let cred ← checkPolicy C self line params
  checkWindow self line params cred now
  ok (line, params, cred)

/-- `verify`, the signature: the answer, and the credential with its cache. -/
def checkSignature (C : Crypto) (line : RequestLine) (params : Parameters)
    (cred : CompiledCredential) : Outcome ε (VerifyResult × CompiledCredential) := do
  let canonicalPath ← canonicalUriFromValidPath line.rawPath
  let canonicalHash :=
    hashCanonicalRequest C line.method canonicalPath line.canonicalQueryString line.host
  let (expected, cred) ← sign C cred params.scope.date params.scope.region params.scope.service
    params.amzDate params.scope.scope canonicalHash
  let signatureHex ←
    expect (singleKnownQueryValue line.query.signature line.query.signatureCount)
  let signature ← (some <$> decodeSignature signatureHex).recover fun _ => none
  match signature with
  | none => ok (deny .signatureMismatch line.rawPath cred.accessKeyHash, cred)
  | some signature =>
    if signature != expected then
      ok (deny .signatureMismatch line.rawPath cred.accessKeyHash, cred)
    else
      ok ({ allowed := true, reason := .ok, path := line.rawPath, accessKey := some cred.accessKey,
            accessKeyHash := cred.accessKeyHash }, cred)

/-- The verifier after `cred`, looked up as `accessKey`, has changed its cache: the
binding of its access key is the new one. -/
def Verifier.store (self : Verifier) (accessKey : Str) (cred : CompiledCredential) : Verifier :=
  ⟨{ self.state with credentials := self.state.credentials.insert accessKey cred }⟩

/-- The answer to a request, and the verifier after it. -/
def Verifier.verify (C : Crypto) (self : Verifier) (method : Str) (rawUri : Bytes) (host : Str)
    (now : SystemTime) : Outcome Empty (VerifyResult × Verifier) :=
  match checkRequest C self.state method rawUri host now with
  | .exit denied => ok (denied, self)
  | .panic p => .panic p
  | .ok (line, params, cred) => do
    let (result, cred) ← checkSignature C line params cred
    ok (result, self.store params.scope.accessKey cred)

end SigV4
