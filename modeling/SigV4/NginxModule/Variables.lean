import SigV4.Lib.Decimal
import SigV4.Lib.Machine
import SigV4.NginxModule.Handler

/-!
# The variables, and a worker

The getters of the module's variables read the context that the handler left behind. A worker
serves one request after another, each in a location of some mode.
-/

namespace SigV4

open Outcome

/-- What a getter makes of a variable. -/
inductive VariableValue where
  /-- `bind_variable`. -/
  | bound (value : Bytes)
  /-- `set_not_found(1)`. -/
  | notFound
  /-- `NGX_ERROR`. -/
  | error
  deriving DecidableEq

/-- `variable_result`. -/
def variableResult (ctx : Option RequestCtx) : VariableValue :=
  match ctx.bind (·.result) with
  | some result => .bound result.text.bytes
  | none => .notFound

/-- `variable_reason`. -/
def variableReason (ctx : Option RequestCtx) : VariableValue :=
  match ctx.bind (·.reason) with
  | some reason => .bound reason.text.bytes
  | none => .notFound

/-- `variable_access_key_hash`. -/
def variableAccessKeyHash (ctx : Option RequestCtx) : VariableValue :=
  match ctx with
  | some ctx =>
    if !ctx.accessKeyHash.isEmpty then .bound ctx.accessKeyHash.bytes else .notFound
  | none => .notFound

/-- `variable_latency_us`: the text is copied to the request pool. -/
def variableLatencyUs (allocates : Bool) (ctx : Option RequestCtx) : VariableValue :=
  match ctx.bind (·.latencyUs) with
  | some latencyUs => if allocates then .bound (Decimal.write latencyUs.toNat) else .error
  | none => .notFound

/-- A request, and the mode of the location that it is served in. -/
structure Served where
  mode : Mode
  request : HttpRequest
  env : Surroundings
  deriving DecidableEq

/-- One request: what the handler leaves behind, and the configuration after it. -/
def serve (C : Crypto) (main : MainConf) (s : Served) : Outcome Empty (Handled × MainConf) :=
  let handled := sigv4VerifyAccessHandler C (some ⟨s.mode⟩) (some main) s.request s.env
  ok (handled, handled.main.getD main)

end SigV4
