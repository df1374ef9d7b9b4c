import SigV4.Lib.Slots
import SigV4.ModuleConfig.Credential
import SigV4.Spec.Arguments
import SigV4.Spec.Duration
import SigV4.Spec.Rules

/-!
# What a credential directive stands for

`Directs` reads a list of arguments without an order: which settings there are of each kind, at
most one where a setting is given once, and in each dimension either the flag or a list. What is
not so directs nothing. `Resolves` says the same of the secret that stands in a file.
-/

namespace SigV4.Spec

open Ascii Slots

/-! ## Values -/

/-- `on` and `off`. -/
def IsOnOff (text : Str) (b : Bool) : Prop :=
  (text = .lit "on" ∧ b = true) ∨ (text = .lit "off" ∧ b = false)

/-- The text writes the duration. -/
def IsDuration (text : Str) (d : Duration) : Prop :=
  ∃ w : Written, w.text = text.bytes ∧ w.seconds < 2 ^ 64 ∧ d = .fromSecs (UInt64.ofNat w.seconds)

/-- A duration that an expiry may have. -/
def InWeek (d : Duration) : Prop := 0 < nanoseconds d ∧ nanoseconds d ≤ sevenDays

namespace Argument

/-- The values that a key takes: none is empty, and no entry of a list is blank. -/
def Usable : Argument → Prop
  | .free _ => True
  | .keyed (.allowed _) value => value.trim.isEmpty = false
  | .keyed _ value => value.isEmpty = false

/-- The secret that an argument gives. -/
def source? : Argument → Option SecretSource
  | .keyed .secretKeyFile value => some (.file value)
  | .keyed .secretKey value => some (.literal value)
  | _ => none

/-- The value of `enabled`. -/
def enabled? : Argument → Option Str
  | .keyed .enabled value => some value
  | _ => none

/-- The value of `max_expires`. -/
def maxExpires? : Argument → Option Str
  | .keyed .maxExpires value => some value
  | _ => none

/-- The value that an argument adds to the list of a dimension. -/
def allowed? (dim : Dimension) : Argument → Option Str
  | .keyed (.allowed dim') value => if dim' = dim then some value else none
  | _ => none

end Argument

/-! ## The directive -/

/-- What an access key and the arguments after it say. -/
structure Says (first : Str) (as : List Argument) (d : CredentialDirective) : Prop where
  accessKey : d.accessKey = first.trim
  accessKey_ne : d.accessKey.bytes ≠ [] ∧ equals ∉ d.accessKey.bytes
  usable : ∀ a ∈ as, a.Usable
  secret : Fills (· = ·) none (as.filterMap Argument.source?) d.secret
  secret_ne : d.secret ≠ none
  enabled : Fills IsOnOff none (as.filterMap Argument.enabled?) d.enabled
  maxExpires : Fills IsDuration none (as.filterMap Argument.maxExpires?) d.maxExpires
  inWeek : ∀ m, d.maxExpires = some m → InWeek m
  allowedHosts : d.allowedHosts = as.filterMap (Argument.allowed? .host)
  allowedMethods : d.allowedMethods = as.filterMap (Argument.allowed? .method)
  allowedPrefixes : d.allowedPrefixes = as.filterMap (Argument.allowed? .path)
  allowAnyHost : d.allowAnyHost = true ↔ .free .host ∈ as
  allowDefaultMethods : d.allowDefaultMethods = true ↔ .free .method ∈ as
  allowAnyPrefix : d.allowAnyPrefix = true ↔ .free .path ∈ as
  /-- A dimension is open where its flag says so, and held to a list elsewhere. -/
  dimension : ∀ dim, .free dim ∈ as ↔ as.filterMap (Argument.allowed? dim) = []

/-- **What a list of arguments stands for.** -/
def Directs (args : List Str) (d : CredentialDirective) : Prop :=
  ∃ first as, args = first :: as.map Argument.text ∧ Says first as d

/-! ## The secret -/

/-- What a source holds: of a file, all but the line breaks at its end. -/
inductive Holding (fs : FileSystem) : SecretSource → Str → Prop where
  | literal (secret : Str) : Holding fs (.literal secret) secret
  | file {path secret : Str} {raw breaks : Bytes} : fs.read path = .inr raw →
      raw = secret.bytes ++ breaks → (∀ b ∈ breaks, b = lf ∨ b = cr) →
      (∀ b, secret.bytes.getLast? = some b → b ≠ lf ∧ b ≠ cr) → Holding fs (.file path) secret

/-- **The credential that a directive stands for**, with the secret that is held. -/
structure Resolves (fs : FileSystem) (d : CredentialDirective) (c : Credential) : Prop where
  secretKey : ∃ source, d.secret = some source ∧ Holding fs source c.secretKey
    ∧ c.secretKey.bytes ≠ []
  rest : c = {
    accessKey := d.accessKey
    secretKey := c.secretKey
    enabled := d.enabled.getD true
    maxExpires := d.maxExpires.getD (.fromSecs 0)
    allowedHosts := d.allowedHosts
    allowedMethods := d.allowedMethods
    allowedPrefixes := d.allowedPrefixes.map Str.bytes }

end SigV4.Spec
