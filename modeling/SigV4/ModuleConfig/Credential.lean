import SigV4.ModuleConfig.Values

/-!
# `sigv4_verify_credential`

The arguments of the directive are read one by one into a `CredentialDirective`, which is
validated as a whole and later resolved into the `Credential` of the verifier core. Only
`resolve` reads a file.
-/

namespace SigV4

open Outcome Ascii

/-- `std::fs::read`: the text of an error, or the contents. -/
structure FileSystem where
  read : Str → Str ⊕ Bytes

inductive SecretSource where
  | file (path : Str)
  | literal (secret : Str)
  deriving DecidableEq

structure CredentialDirective where
  accessKey : Str
  secret : Option SecretSource
  enabled : Option Bool
  maxExpires : Option Duration
  allowedHosts : List Str
  allowAnyHost : Bool
  allowedMethods : List Str
  allowDefaultMethods : Bool
  allowedPrefixes : List Str
  allowAnyPrefix : Bool
  deriving DecidableEq

namespace CredentialDirective

/-- `Self { access_key, ..Self::default() }`. -/
def start (accessKey : Str) : CredentialDirective where
  accessKey := accessKey
  secret := none
  enabled := none
  maxExpires := none
  allowedHosts := []
  allowAnyHost := false
  allowedMethods := []
  allowDefaultMethods := false
  allowedPrefixes := []
  allowAnyPrefix := false

/-! ## Parsing -/

def setSecret (self : CredentialDirective) (source : SecretSource) :
    Outcome DirectiveError CredentialDirective :=
  if self.secret.isSome then
    exit ⟨[.text "credential ", .debug self.accessKey, .text " has multiple secret sources"]⟩
  else ok { self with secret := some source }

/-- `key=value`, for the keys that push to a list. -/
def pushAllowed (self : CredentialDirective) (key value : Str) : CredentialDirective :=
  if key == .lit "allowed_host" then
    { self with allowedHosts := self.allowedHosts ++ [value] }
  else if key == .lit "allowed_method" then
    { self with allowedMethods := self.allowedMethods ++ [value] }
  else { self with allowedPrefixes := self.allowedPrefixes ++ [value] }

/-- `key=value`. -/
def parseKeyValue (self : CredentialDirective) (key value : Str) :
    Outcome DirectiveError CredentialDirective :=
  if key == .lit "secret_key_file" then self.setSecret (.file value)
  else if key == .lit "secret_key" then self.setSecret (.literal value)
  else if key == .lit "enabled" then
    if self.enabled.isSome then exit ⟨[.text "duplicate \"enabled\" argument"]⟩
    else do
      let enabled ← parseOnOff value
      ok { self with enabled := some enabled }
  else if key == .lit "max_expires" then
    if self.maxExpires.isSome then exit ⟨[.text "duplicate \"max_expires\" argument"]⟩
    else do
      let maxExpires ← parseDuration value
      ok { self with maxExpires := some maxExpires }
  else if key == .lit "allowed_host" || key == .lit "allowed_method"
      || key == .lit "allowed_prefix" then
    if value.trim.isEmpty then exit ⟨[.debug key, .text " has a blank value"]⟩
    else ok (self.pushAllowed key value)
  else exit ⟨[.text "unknown argument ", .debug key]⟩

/-- One pass of the loop over the arguments. -/
def parseArg (self : CredentialDirective) (arg : Str) :
    Outcome DirectiveError CredentialDirective :=
  if arg == .lit "allow_any_host" then ok { self with allowAnyHost := true }
  else if arg == .lit "allow_any_prefix" then ok { self with allowAnyPrefix := true }
  else if arg == .lit "allow_default_methods" then ok { self with allowDefaultMethods := true }
  else
    match arg.splitOnce equals equals_lt with
    | none => exit ⟨[.text "unknown flag ", .debug arg, .text ("; expected key=value or one of "
        ++ "allow_any_host, allow_any_prefix, allow_default_methods")]⟩
    | some (key, value) =>
      if value.isEmpty then exit ⟨[.debug key, .text " has an empty value"]⟩
      else self.parseKeyValue key value

/-- A check of `validate`: the message follows the access key. -/
def validateIf (self : CredentialDirective) (c : Bool) (message : String) :
    Outcome DirectiveError Unit :=
  exitIf c ⟨[.text "credential ", .debug self.accessKey, .text message]⟩

def validate (self : CredentialDirective) : Outcome DirectiveError Unit := do
  self.validateIf self.secret.isNone
    " needs secret_key_file= (or secret_key= for local development)"
  self.validateIf (self.allowAnyHost && !self.allowedHosts.isEmpty)
    " sets both allow_any_host and allowed_host="
  self.validateIf (!self.allowAnyHost && self.allowedHosts.isEmpty)
    " needs allowed_host= entries or the explicit allow_any_host flag"
  self.validateIf (self.allowAnyPrefix && !self.allowedPrefixes.isEmpty)
    " sets both allow_any_prefix and allowed_prefix="
  self.validateIf (!self.allowAnyPrefix && self.allowedPrefixes.isEmpty)
    " needs allowed_prefix= entries or the explicit allow_any_prefix flag"
  self.validateIf (self.allowDefaultMethods && !self.allowedMethods.isEmpty)
    " sets both allow_default_methods and allowed_method="
  self.validateIf (!self.allowDefaultMethods && self.allowedMethods.isEmpty)
    " needs allowed_method= entries or the explicit allow_default_methods flag"
  self.validateIf (self.maxExpires.any fun d => d.isZero || maxSigv4Expires.lt d)
    " max_expires must be between 1s and 7d"

def parse : List Str → Outcome DirectiveError CredentialDirective
  | [] => exit ⟨[.text "missing access key"]⟩
  | first :: rest => do
    let accessKey := first.trim
    exitIf accessKey.isEmpty ⟨[.text "access key must not be empty"]⟩
    exitIf (accessKey.contains equals) ⟨[.text "the first argument must be the access key"]⟩
    let directive ← rest.foldlM parseArg (start accessKey)
    directive.validate
    ok directive

/-! ## Resolving -/

/-- `while raw.last() == Some(&b'\n') || raw.last() == Some(&b'\r') { raw.pop(); }`. -/
def trimNewlinesBody : Bytes → Outcome DirectiveError (Pass Bytes Bytes)
  | raw =>
    if raw.getLast? == some lf || raw.getLast? == some cr then ok (.again raw.dropLast)
    else ok (.leave raw)

/-- The secret, as its source gives it. -/
def readSecret (self : CredentialDirective) (fs : FileSystem) :
    SecretSource → Outcome DirectiveError Str
  | .literal secret => ok secret
  | .file path =>
    match fs.read path with
    | .inl err => exit ⟨[.text "credential ", .debug self.accessKey,
        .text ": cannot read secret file ", .display path, .text ": ", .display err]⟩
    | .inr raw => do
      let raw ← loop trimNewlinesBody (raw.length + 1) raw
      ofOption ⟨[.text "credential ", .debug self.accessKey, .text ": secret file ", .display path,
        .text " is not valid UTF-8"]⟩ (Str.fromUtf8 raw)

def loadSecret (self : CredentialDirective) (fs : FileSystem) : Outcome DirectiveError Str := do
  let source ← expect self.secret
  let secret ← self.readSecret fs source
  exitIf secret.isEmpty ⟨[.text "credential ", .debug self.accessKey, .text " has an empty secret"]⟩
  ok secret

def resolve (self : CredentialDirective) (fs : FileSystem) : Outcome DirectiveError Credential := do
  let secretKey ← self.loadSecret fs
  ok {
    accessKey := self.accessKey
    secretKey
    enabled := self.enabled.getD true
    maxExpires := self.maxExpires.getD (.fromSecs 0)
    allowedHosts := self.allowedHosts
    allowedMethods := self.allowedMethods
    allowedPrefixes := self.allowedPrefixes.map Str.bytes }

end CredentialDirective

end SigV4
