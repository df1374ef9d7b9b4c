import SigV4.ModuleConfig.Credential
import SigV4.Verifier.Config

/-!
# The directives of the NGINX module

Each directive of the module has a handler that changes the configuration of the `http`
block (`MainConf`) or of the block it stands in (`LocConf`). `init_main_conf` runs once all
of them have, and builds the verifier.
-/

namespace SigV4

open Outcome

/-- The configuration of the `http` block. -/
structure MainConf where
  clockSkew : Option Duration
  defaultMaxExpires : Option Duration
  supportedMethods : List Str
  logDenies : Option Bool
  logAll : Option Bool
  credentials : List CredentialDirective
  enabledAnywhere : Bool
  verifier : Option Verifier
  deriving DecidableEq

namespace MainConf

/-- `MainConf::default()`. -/
def default : MainConf where
  clockSkew := none
  defaultMaxExpires := none
  supportedMethods := []
  logDenies := none
  logAll := none
  credentials := []
  enabledAnywhere := false
  verifier := none

/-- `self.log_denies()`. -/
def logsDenies (self : MainConf) : Bool := self.logDenies.getD true

/-- `self.log_all()`. -/
def logsAll (self : MainConf) : Bool := self.logAll.getD false

end MainConf

/-- The configuration of a block. -/
structure LocConf where
  mode : Mode
  deriving DecidableEq

namespace LocConf

/-- `LocConf::default()`. -/
def default : LocConf := ⟨.unset⟩

def merge (self prev : LocConf) : LocConf := ⟨self.mode.merge prev.mode⟩

end LocConf

/-- What a directive handler returns other than `NGX_CONF_OK`. -/
inductive ConfError where
  /-- `c"is duplicate"`: NGINX writes the message. -/
  | duplicate
  /-- `NGX_CONF_ERROR`, after this message. -/
  | logged (message : List Fragment)
  deriving DecidableEq

def confError (message : List Fragment) : ConfError := .logged (.text "sigv4_verify: " :: message)

/-- `conf_error(cf, &err.to_string())`. -/
def DirectiveError.toConfError (err : DirectiveError) : ConfError := confError err.message

/-- `conf_error(cf, &err.to_string())`. -/
def ConfigError.toConfError (err : ConfigError) : ConfError := confError err.message

/-- A panic of a handler is a configuration error. -/
def guardConf {α : Type} : Outcome ConfError α → Outcome ConfError α
  | .ok a => ok a
  | .exit e => exit e
  | .panic _ => exit (confError [.text "panic while parsing configuration"])

/-- The arguments after the name of the directive. -/
def directiveArgs (args : List Bytes) : Outcome ConfError (List Str) :=
  ofOption (confError [.text "directive arguments must be valid UTF-8"]) (args.mapM Str.fromUtf8)

/-- `args[0]`. -/
def firstArg : List Str → Outcome ConfError Str
  | arg :: _ => ok arg
  | [] => panic .index

/-! ## Handlers -/

def setMode (args : List Bytes) (main : MainConf) (loc : LocConf) :
    Outcome ConfError (MainConf × LocConf) :=
  guardConf <|
    if loc.mode != .unset then exit .duplicate
    else do
      let args ← directiveArgs args
      let arg ← firstArg args
      let mode ← (Mode.parse arg).mapExit DirectiveError.toConfError
      ok (if mode.verifies then { main with enabledAnywhere := true } else main, { loc with mode })

/-- `slot` reads the field and `fill` writes it. -/
def setMainDuration (slot : MainConf → Option Duration) (fill : MainConf → Duration → MainConf)
    (args : List Bytes) (main : MainConf) : Outcome ConfError MainConf :=
  guardConf <|
    if (slot main).isSome then exit .duplicate
    else do
      let args ← directiveArgs args
      let arg ← firstArg args
      let duration ← (parseDuration arg).mapExit DirectiveError.toConfError
      ok (fill main duration)

def setClockSkew : List Bytes → MainConf → Outcome ConfError MainConf :=
  setMainDuration (·.clockSkew) fun main d => { main with clockSkew := some d }

def setDefaultMaxExpires : List Bytes → MainConf → Outcome ConfError MainConf :=
  setMainDuration (·.defaultMaxExpires) fun main d => { main with defaultMaxExpires := some d }

/-- One pass of the loop over the arguments of `sigv4_verify_methods`. -/
def checkMethod (_ : Unit) (method : Str) : Outcome ConfError Unit :=
  exitIf (!(method == .lit "GET" || method == .lit "HEAD"))
    (confError [.text "unsupported method ", .debug method])

def setMethods (args : List Bytes) (main : MainConf) : Outcome ConfError MainConf :=
  guardConf <|
    if !main.supportedMethods.isEmpty then exit .duplicate
    else do
      let args ← directiveArgs args
      args.foldlM checkMethod ()
      ok { main with supportedMethods := args }

/-- `slot` reads the field and `fill` writes it. -/
def setMainFlag (slot : MainConf → Option Bool) (fill : MainConf → Bool → MainConf)
    (args : List Bytes) (main : MainConf) : Outcome ConfError MainConf :=
  guardConf <|
    if (slot main).isSome then exit .duplicate
    else do
      let args ← directiveArgs args
      let arg ← firstArg args
      let value ← (parseOnOff arg).mapExit DirectiveError.toConfError
      ok (fill main value)

def setLogDenies : List Bytes → MainConf → Outcome ConfError MainConf :=
  setMainFlag (·.logDenies) fun main b => { main with logDenies := some b }

def setLogAll : List Bytes → MainConf → Outcome ConfError MainConf :=
  setMainFlag (·.logAll) fun main b => { main with logAll := some b }

def setCredential (args : List Bytes) (main : MainConf) : Outcome ConfError MainConf :=
  guardConf do
    let args ← directiveArgs args
    let directive ← (CredentialDirective.parse args).mapExit DirectiveError.toConfError
    if main.credentials.any (·.accessKey == directive.accessKey) then
      exit (confError [.text "duplicate access key ", .debug directive.accessKey])
    else ok { main with credentials := main.credentials ++ [directive] }

/-! ## After the `http` block -/

/-- One pass of the loop over the credentials. -/
def resolveNext (fs : FileSystem) (credentials : List Credential)
    (directive : CredentialDirective) : Outcome ConfError (List Credential) := do
  let credential ← (directive.resolve fs).mapExit DirectiveError.toConfError
  ok (credentials ++ [credential])

/-- The settings of the verifier. -/
def MainConf.settings (main : MainConf) : Settings where
  allowedClockSkew := main.clockSkew.getD Settings.default.allowedClockSkew
  defaultMaxExpires := main.defaultMaxExpires.getD Settings.default.defaultMaxExpires
  supportedMethods :=
    if main.supportedMethods.isEmpty then Settings.default.supportedMethods
    else main.supportedMethods
  supportedService := Settings.default.supportedService

def initMainConf (C : Crypto) (fs : FileSystem) (main : MainConf) : Outcome ConfError MainConf :=
  guardConf <|
    if main.credentials.isEmpty then
      if main.enabledAnywhere then
        exit (confError
          [.text "sigv4_verify is enabled but no sigv4_verify_credential is configured"])
      else ok main
    else do
      exitIf (main.defaultMaxExpires.any fun d => d.isZero || maxSigv4Expires.lt d)
        (confError [.text "sigv4_verify_default_max_expires must be between 1s and 7d"])
      let credentials ← main.credentials.foldlM (resolveNext fs) []
      let verifier ← (Verifier.new C main.settings credentials).mapExit ConfigError.toConfError
      ok { main with verifier := some verifier }

end SigV4
