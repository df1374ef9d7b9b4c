import SigV4.Verifier.Sign
import SigV4.Verifier.Uri

/-!
# Compiling the configuration

`compile_state` and `compile_credential`: every value is normalised, every rule that
has no default is checked, and the first violation is the error.
-/

namespace SigV4

open Outcome Ascii

variable {ε : Type}

def normalizeMethod (method : Str) : Outcome ConfigError Str :=
  let method := method.trim.toAsciiUppercase
  if method == .lit "GET" || method == .lit "HEAD" then ok method
  else exit ⟨[.text "unsupported method ", .debug method]⟩

/-- `matches!(b, b'/' | b'\\' | b'?' | b'#' | b' ' | b'\t' | b'\r' | b'\n')`. -/
def ambiguousInHost (b : UInt8) : Bool :=
  b == slash || b == backslash || b == question || b == hash || b == space || b == tab || b == cr
    || b == lf

def normalizeHost (host : Str) : Outcome ConfigError Str :=
  let host := host.trim.toAsciiLowercase
  if host.isEmpty then ok host
  else if host.bytes.any ambiguousInHost then exit ⟨[.text "ambiguous host ", .debug host]⟩
  else ok host

/-- One pass of the loop over `allowed_hosts`. -/
def insertHost (allowed : Finset Str) (host : Str) : Outcome ConfigError (Finset Str) := do
  let host ← normalizeHost host
  if host.isEmpty then ok allowed else ok (insert host allowed)

/-- The loop over `allowed_hosts`. -/
def compileHosts (hosts : List Str) : Outcome ConfigError (Finset Str) :=
  hosts.foldlM insertHost ∅

/-- One pass of the loops over `allowed_methods` and `supported_methods`. -/
def insertMethod (allowed : Finset Str) (method : Str) : Outcome ConfigError (Finset Str) := do
  let method ← normalizeMethod method
  ok (insert method allowed)

/-- The loops over `allowed_methods` and `supported_methods`. -/
def compileMethods (methods : List Str) : Outcome ConfigError (Finset Str) :=
  methods.foldlM insertMethod ∅

/-- One pass of the loop over `allowed_prefixes`: empty ones are skipped, repeated ones
kept once. -/
def pushPrefix (acc : List Bytes × Finset Bytes) (pfx : Bytes) :
    Outcome ConfigError (List Bytes × Finset Bytes) :=
  if pfx.isEmpty then ok acc
  else do
    (validateRawPath pfx).mapExit fun _ => (⟨[.text "invalid allowed prefix"]⟩ : ConfigError)
    if pfx ∈ acc.2 then ok acc else ok (acc.1 ++ [pfx], insert pfx acc.2)

/-- The loop over `allowed_prefixes`. -/
def compilePrefixes (prefixes : List Bytes) : Outcome ConfigError (List Bytes) := do
  let acc ← prefixes.foldlM pushPrefix ([], ∅)
  ok acc.1

def compileCredential (C : Crypto) (credential : Credential) (defaultMaxExpires : Duration) :
    Outcome ConfigError CompiledCredential := do
  let accessKey := credential.accessKey.trim
  exitIf accessKey.isEmpty ⟨[.text "access key is required"]⟩
  exitIf credential.secretKey.isEmpty
    ⟨[.text "secret key for ", .debug accessKey, .text " is required"]⟩
  let maxExpires := if credential.maxExpires.isZero then defaultMaxExpires else credential.maxExpires
  exitIf (maxExpires.isZero || maxSigv4Expires.lt maxExpires)
    ⟨[.text "invalid max expires for ", .debug accessKey]⟩
  let allowedHosts ← compileHosts credential.allowedHosts
  let allowedMethods ← compileMethods credential.allowedMethods
  let allowedPrefixes ← compilePrefixes credential.allowedPrefixes
  let accessKeyHash ← hashAccessKey C accessKey
  ok {
    accessKey
    accessKeyHash
    secretSeed := bytes "AWS4" ++ credential.secretKey.bytes
    enabled := credential.enabled
    maxExpires
    allowedHosts
    allowedMethods
    allowedPrefixes
    signingCache := ⟨[], false⟩ }

/-- The defaults `compile_state` puts in place of unusable settings. -/
def effectiveSettings (settings : Settings) : Settings where
  allowedClockSkew := settings.allowedClockSkew
  defaultMaxExpires :=
    if settings.defaultMaxExpires.isZero || maxSigv4Expires.lt settings.defaultMaxExpires then
      maxSigv4Expires
    else settings.defaultMaxExpires
  supportedMethods :=
    if settings.supportedMethods.isEmpty then [.lit "GET", .lit "HEAD"]
    else settings.supportedMethods
  supportedService :=
    if settings.supportedService.trim.isEmpty then .lit "s3" else settings.supportedService.trim

/-- One pass of the loop over `credentials`. -/
def insertCredential (C : Crypto) (defaultMaxExpires : Duration)
    (compiledCredentials : AList (fun _ : Str => CompiledCredential)) (credential : Credential) :
    Outcome ConfigError (AList (fun _ : Str => CompiledCredential)) := do
  let compiled ← compileCredential C credential defaultMaxExpires
  if compiled.accessKey ∈ compiledCredentials then exit ⟨[.text "duplicate access key"]⟩
  else ok (compiledCredentials.insert compiled.accessKey compiled)

def compileState (C : Crypto) (settings : Settings) (credentials : List Credential) :
    Outcome ConfigError State := do
  let settings := effectiveSettings settings
  exitIf (settings.supportedService != .lit "s3")
    ⟨[.text "unsupported service ", .debug settings.supportedService]⟩
  let supportedMethods ← compileMethods settings.supportedMethods
  let compiledCredentials ←
    credentials.foldlM (insertCredential C settings.defaultMaxExpires) ∅
  ok { settings, credentials := compiledCredentials, supportedMethods }

def Verifier.new (C : Crypto) (settings : Settings) (credentials : List Credential) :
    Outcome ConfigError Verifier := do
  let state ← compileState C settings credentials
  ok ⟨state⟩

/-- On an error the verifier keeps its state: `exit` returns no new one. -/
def Verifier.reload (C : Crypto) (_self : Verifier) (settings : Settings)
    (credentials : List Credential) : Outcome ConfigError Verifier := do
  let state ← compileState C settings credentials
  ok ⟨state⟩

end SigV4
