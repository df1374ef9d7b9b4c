import SigV4.Lib.Percent
import SigV4.Lib.Str
import Mathlib.Data.List.AList
import Mathlib.Data.Finset.Image

/-!
# The verifier's data

The types of the verifier core: configuration as the operator gives it
(`Settings`, `Credential`), what it is compiled into (`State`,
`CompiledCredential`), what a request is parsed into (`SigV4Query`,
`CredentialScope`, `ParsedAmzDate`), and what `verify` answers.

SHA-256 and HMAC-SHA256 come from a library and are parameters (`Crypto`).
-/

namespace SigV4

open Outcome

/-! ## Time -/

/-- `std::time::Duration`. -/
structure Duration where
  secs : UInt64
  nanos : UInt32
  nanos_lt : nanos < 1000000000
  deriving DecidableEq

namespace Duration

/-- `Duration::from_secs`. -/
def fromSecs (secs : UInt64) : Duration := ⟨secs, 0, by decide⟩

/-- `Duration::is_zero`. -/
def isZero (d : Duration) : Bool := d.secs == 0 && d.nanos == 0

/-- `a < b` on durations: whole seconds first. -/
def lt (a b : Duration) : Bool := a.secs < b.secs || (a.secs == b.secs && a.nanos < b.nanos)

end Duration

/-- `std::time::SystemTime`: seconds since the Unix epoch, rounded down, and the
nanoseconds past them. -/
structure SystemTime where
  secs : Int
  nanos : UInt32
  secs_mem : i64.lo ≤ secs ∧ secs ≤ i64.hi
  nanos_lt : nanos < 1000000000
  deriving DecidableEq

/-- `value.duration_since(UNIX_EPOCH)`: `.inl` is `Ok`, `.inr` carries how far
before the epoch the time is. -/
def SystemTime.durationSinceEpoch (value : SystemTime) : Duration ⊕ Duration :=
  if 0 ≤ value.secs then
    .inl ⟨UInt64.ofNat value.secs.toNat, value.nanos, value.nanos_lt⟩
  else if h : value.nanos = 0 then
    .inr ⟨UInt64.ofNat (-value.secs).toNat, 0, by decide⟩
  else
    .inr ⟨UInt64.ofNat (-value.secs - 1).toNat, 1000000000 - value.nanos, by
      have hlt := value.nanos_lt
      rw [UInt32.lt_iff_toNat_lt] at hlt ⊢
      have hpos : value.nanos.toNat ≠ 0 := fun h0 => h (UInt32.toNat_inj.mp h0)
      have hle : value.nanos ≤ 1000000000 := by
        rw [UInt32.le_iff_toNat_le]; exact Nat.le_of_lt hlt
      rw [UInt32.toNat_sub_of_le _ _ hle]
      have : (1000000000 : UInt32).toNat = 1000000000 := rfl
      omega⟩

/-! ## Cryptography -/

/-- `[u8; digest::SHA256_OUTPUT_LEN]`. -/
abbrev Digest := { d : Bytes // d.length = 32 }

/-- The two primitives, as arbitrary functions. -/
structure Crypto where
  sha256 : Bytes → Digest
  hmacSha256 : Bytes → Bytes → Digest

/-! ## Constants -/

/-- `ALGORITHM`. -/
def algorithm : Str := .lit "AWS4-HMAC-SHA256"

/-- `TERMINAL`. -/
def terminal : Str := .lit "aws4_request"

/-- `PAYLOAD_HASH`. -/
def payloadHash : Str := .lit "UNSIGNED-PAYLOAD"

/-- `MAX_SIGV4_EXPIRES_SECS`. -/
def maxSigv4ExpiresSecs : UInt64 := 7 * 24 * 60 * 60

/-- `MAX_SIGV4_EXPIRES`. -/
def maxSigv4Expires : Duration := .fromSecs maxSigv4ExpiresSecs

/-- `SIGNING_CACHE_CAPACITY`. -/
def signingCacheCapacity : Nat := 32

/-! ## Answers -/

/-- The stable reason strings. -/
inductive Reason where
  | ok
  | missingMetadata
  | invalidUri
  | unsupportedMethod
  | missingQueryParam
  | unsupportedAlgorithm
  | invalidCredentialScope
  | unknownAccessKey
  | invalidExpiry
  | expired
  | futureDated
  | unsupportedSignedHeader
  | signatureMismatch
  | unauthorized
  deriving DecidableEq, Repr

/-- `REASON_*`. -/
def Reason.text : Reason → Str
  | ok => .lit "ok"
  | missingMetadata => .lit "missing_metadata"
  | invalidUri => .lit "invalid_uri"
  | unsupportedMethod => .lit "unsupported_method"
  | missingQueryParam => .lit "missing_query_param"
  | unsupportedAlgorithm => .lit "unsupported_algorithm"
  | invalidCredentialScope => .lit "invalid_credential_scope"
  | unknownAccessKey => .lit "unknown_access_key"
  | invalidExpiry => .lit "invalid_expiry"
  | expired => .lit "expired"
  | futureDated => .lit "future_dated"
  | unsupportedSignedHeader => .lit "unsupported_signed_header"
  | signatureMismatch => .lit "signature_mismatch"
  | unauthorized => .lit "unauthorized"

structure VerifyResult where
  allowed : Bool
  reason : Reason
  path : Bytes
  accessKey : Option Str
  accessKeyHash : Str
  deriving DecidableEq

def deny (reason : Reason) (path : Bytes) (accessKeyHash : Str) : VerifyResult where
  allowed := false
  reason := reason
  path := path
  accessKey := none
  accessKeyHash := accessKeyHash

/-! ## Errors -/

structure UriError where
  deriving DecidableEq, Repr

/-- A piece of a formatted message: literal text, or a string printed with `{:?}` or
`{}`. -/
inductive Fragment where
  | text (s : String)
  | debug (s : Str)
  | display (s : Str)
  deriving DecidableEq

structure ConfigError where
  message : List Fragment
  deriving DecidableEq

/-! ## Configuration -/

structure Settings where
  allowedClockSkew : Duration
  defaultMaxExpires : Duration
  supportedMethods : List Str
  supportedService : Str
  deriving DecidableEq

/-- `Settings::default()`. -/
def Settings.default : Settings where
  allowedClockSkew := .fromSecs (15 * 60)
  defaultMaxExpires := maxSigv4Expires
  supportedMethods := [.lit "GET", .lit "HEAD"]
  supportedService := .lit "s3"

structure Credential where
  accessKey : Str
  secretKey : Str
  enabled : Bool
  maxExpires : Duration
  allowedHosts : List Str
  allowedMethods : List Str
  allowedPrefixes : List Bytes
  deriving DecidableEq

/-! ## Compiled state -/

structure SigningKeyCacheEntry where
  date : Str
  region : Str
  service : Str
  key : Digest
  deriving DecidableEq

/-- `std::sync::RwLock`: a value, and whether a writer panicked while holding it. -/
structure RwLock (α : Type) where
  value : α
  poisoned : Bool
  deriving DecidableEq

structure CompiledCredential where
  accessKey : Str
  accessKeyHash : Str
  secretSeed : Bytes
  enabled : Bool
  maxExpires : Duration
  allowedHosts : Finset Str
  allowedMethods : Finset Str
  allowedPrefixes : List Bytes
  signingCache : RwLock (List SigningKeyCacheEntry)
  deriving DecidableEq

structure State where
  settings : Settings
  credentials : AList (fun _ : Str => CompiledCredential)
  supportedMethods : Finset Str
  deriving DecidableEq

structure Verifier where
  state : State
  deriving DecidableEq

/-! ## Parsed requests -/

structure CredentialScope where
  accessKey : Str
  date : Str
  region : Str
  service : Str
  terminal : Str
  scope : Str
  deriving DecidableEq

structure ParsedAmzDate where
  date : Str
  epochSeconds : Int
  deriving DecidableEq

structure SigV4Query where
  algorithm : Str
  algorithmCount : Nat
  credential : Str
  credentialCount : Nat
  date : Str
  dateCount : Nat
  expires : Str
  expiresCount : Nat
  signedHeaders : Str
  signedHeadersCount : Nat
  signature : Str
  signatureCount : Nat
  deriving DecidableEq

/-- `SigV4Query::default()`. -/
def SigV4Query.default : SigV4Query where
  algorithm := .empty
  algorithmCount := 0
  credential := .empty
  credentialCount := 0
  date := .empty
  dateCount := 0
  expires := .empty
  expiresCount := 0
  signedHeaders := .empty
  signedHeadersCount := 0
  signature := .empty
  signatureCount := 0

structure CanonicalQueryParam where
  name : Bytes
  value : Bytes
  deriving DecidableEq

end SigV4
