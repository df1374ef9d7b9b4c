import SigV4.Spec.Directive
import SigV4.Spec.HttpBlock

/-!
# What an `http` block configures

`Configures` reads a block as a whole: which directives there are of each name, where they stand
and what their arguments stand for. The order in which NGINX calls the handlers is not in it.
`Usable` says when a configuration that has been read makes a verifier.
-/

namespace SigV4

open Spec Slots

/-! ## The directives of a block -/

namespace Block

/-- The arguments of the directives of one name that stand in the block itself. -/
def own (command : Command) : Block → List (List Bytes)
  | done => []
  | directive c args rest => if c = command then args :: rest.own command else rest.own command
  | block _ rest => rest.own command

/-- The same of the block and all those nested in it. -/
def all (command : Command) : Block → List (List Bytes)
  | done => []
  | directive c args rest => if c = command then args :: rest.all command else rest.all command
  | block inner rest => inner.all command ++ rest.all command

/-- The blocks nested in a block, at any depth. -/
def blocks : Block → List Block
  | done => []
  | directive _ _ rest => rest.blocks
  | block inner rest => inner :: (inner.blocks ++ rest.blocks)

/-- The modes that the nested blocks state. -/
def locations : Block → Locations
  | done => .done
  | directive _ _ rest => rest.locations
  | block inner rest => .block ⟨inner.ownMode.getD .unset⟩ inner.locations rest.locations

end Block

/-! ## Arguments -/

/-- What a setting of the `http` block holds. -/
inductive Spec.Value where
  | duration (d : Duration)
  | flag (b : Bool)
  | methods (methods : List Str)

/-- The directives that set something in the `http` block, once. -/
def Command.isSetting : Command → Bool
  | verify => false
  | credential => false
  | _ => true

/-- The setting as the configuration holds it. -/
def MainConf.slot (main : MainConf) : Command → Option Spec.Value
  | .clockSkew => main.clockSkew.map .duration
  | .defaultMaxExpires => main.defaultMaxExpires.map .duration
  | .logDenies => main.logDenies.map .flag
  | .logAll => main.logAll.map .flag
  | .methods => if main.supportedMethods = [] then none else some (.methods main.supportedMethods)
  | .verify => none
  | .credential => none

namespace Spec

/-- What the arguments of a setting stand for. -/
inductive Sets : Command → List Bytes → Value → Prop where
  | clockSkew {text : Str} {d : Duration} :
      IsDuration text d → Sets .clockSkew [text.bytes] (.duration d)
  | defaultMaxExpires {text : Str} {d : Duration} :
      IsDuration text d → Sets .defaultMaxExpires [text.bytes] (.duration d)
  | logDenies {text : Str} {b : Bool} : IsOnOff text b → Sets .logDenies [text.bytes] (.flag b)
  | logAll {text : Str} {b : Bool} : IsOnOff text b → Sets .logAll [text.bytes] (.flag b)
  | methods {texts : List Str} : texts ≠ [] → (∀ m ∈ texts, IsMethod m) →
      Sets .methods (texts.map Str.bytes) (.methods texts)

/-- The argument of `sigv4_verify` is a mode. -/
def StatesMode (args : List Bytes) (mode : Mode) : Prop :=
  ∃ arg, args = [arg] ∧ modeOfText arg = some mode

/-- The arguments are the bytes of a credential directive. -/
def StatesCredential (args : List Bytes) (d : CredentialDirective) : Prop :=
  ∃ texts : List Str, args = texts.map Str.bytes ∧ Directs texts d

/-! ## The block -/

/-- **What an `http` block configures.** -/
structure Configures (http : Block) (main : MainConf) : Prop where
  /-- A nested block holds nothing but `sigv4_verify`. -/
  placed : ∀ b ∈ http.blocks, ∀ command, command ≠ .verify → b.own command = []
  modes : ∀ b ∈ http :: http.blocks, ∃ mode, Fills StatesMode none (b.own .verify) mode
  slots : ∀ command, command.isSetting = true →
    Fills (Sets command) none (http.all command) (main.slot command)
  credentials : List.Forall₂ StatesCredential (http.all .credential) main.credentials
  distinct : (main.credentials.map (·.accessKey)).Nodup
  enabledAnywhere : main.enabledAnywhere = true ↔
    ∃ args ∈ http.all .verify, ∃ mode, StatesMode args mode ∧ mode.verifies = true
  verifier : main.verifier = none

/-- A directive whose secret is there and whose lists the verifier takes. -/
structure Ready (fs : FileSystem) (d : CredentialDirective) : Prop where
  secret : ∃ source secret, d.secret = some source ∧ Holding fs source secret ∧ secret.bytes ≠ []
  allowedHosts : ∀ h ∈ d.allowedHosts, ∀ b ∈ (normalHost h).bytes, b ∉ hostSeparators
  allowedMethods : ∀ m ∈ d.allowedMethods, IsMethod (normalMethod m)
  allowedPrefixes : ∀ p ∈ d.allowedPrefixes, ValidPath p.bytes

/-- **What makes a verifier**, or needs none. -/
def Usable (fs : FileSystem) (main : MainConf) : Prop :=
  (main.credentials = [] ∧ main.enabledAnywhere = false)
    ∨ (main.credentials ≠ [] ∧ (∀ d, main.defaultMaxExpires = some d → InWeek d)
      ∧ ∀ d ∈ main.credentials, Ready fs d)

end Spec

end SigV4
