import SigV4.Spec.Policy
import SigV4.Spec.Presign

/-!
# Authorised requests

The whole specification of `verify` in one structure: what a request, read as a path
and a list of decoded pairs, must be for the verifier to allow it. It mentions no
parser, no counter and no cache.
-/

namespace SigV4.Spec

/-- A request as it reaches the verifier, and the time it does. -/
structure Request where
  method : Str
  rawUri : Bytes
  host : Str
  now : SystemTime
  deriving DecidableEq

/--
`credential`, one of the configured, authorises `r`: its query stands for the pairs
`ps`, which name the scope `f`, the instant `i` and an expiry of `n` seconds.
-/
structure AuthorisedBy (C : Crypto) (settings : Settings) (credentials : List Credential)
    (r : Request) (ps : List Pair) (credential : Credential) (f : ScopeFields) (i : Instant)
    (n : Nat) : Prop where
  /-- The method is one the verifier serves. -/
  method : Supported settings (normalMethod r.method)
  /-- The host is not blank. -/
  host : (normalHost r.host).bytes ≠ []
  /-- The URI is clean and its path is valid. -/
  uri : ValidUri r.rawUri
  /-- The query stands for these pairs. -/
  pairs : pairs (uriQuery r.rawUri) = some ps
  /-- Every pair has a name, and what is read is text. -/
  acceptable : Acceptable ps
  /-- Each of the six names is given exactly once. -/
  once : ∀ k, (values k ps).length = 1
  algorithm : values .algorithm ps = [bytes "AWS4-HMAC-SHA256"]
  signedHeaders : values .signedHeaders ps = [bytes "host"]
  /-- The credential splits into five fields. -/
  scope : ∃ value, values .credential ps = [value] ∧ IsScope value f
  service : f.service = bytes "s3"
  terminal : f.terminal = bytes "aws4_request"
  /-- The date is an instant, on the day of the scope. -/
  date : values .date ps = [i.write]
  day : i.date = f.date
  /-- The expiry is a number of seconds, at most seven days. -/
  expires : ∃ value, values .expires ps = [value] ∧ IsExpires value n
  expires_pos : 1 ≤ n
  expires_le : n ≤ 604800
  /-- The access key names a configured credential. -/
  configured : credential ∈ credentials
  accessKey : credential.accessKey.trim.bytes = f.accessKey
  enabled : credential.enabled = true
  /-- Its policy allows method, host and path. -/
  policy : Allows credential (normalMethod r.method) (normalHost r.host) (uriPath r.rawUri)
  /-- Its expiry cap is not exceeded. -/
  maxExpires : (maxExpires settings credential).lt (.fromSecs (UInt64.ofNat n)) = false
  /-- The request is not from the future, and has not expired. -/
  notFuture : i.epochSeconds ≤ wholeSeconds r.now + skewSeconds settings
  notExpired : wholeSeconds r.now ≤ i.epochSeconds + n
  /-- The signature is the one its secret makes. -/
  signature : ∃ value, values .signature ps = [value] ∧ Hex.decode value
    = some (((signing C (normalMethod r.method).bytes (uriPath r.rawUri) ps (normalHost r.host).bytes
        credential.secretKey.bytes i.write f).signature C).val)

/-- Some configured credential authorises the request. -/
def Authorised (C : Crypto) (settings : Settings) (credentials : List Credential)
    (r : Request) : Prop :=
  ∃ ps credential f i n, AuthorisedBy C settings credentials r ps credential f i n

end SigV4.Spec
