import SigV4.NginxModule.Conf
import SigV4.Verifier.Verify

/-!
# The access-phase handler

`handle_request` and the handler around it, and the rule by which NGINX makes one decision
of the results of its access handlers.
-/

namespace SigV4

open Outcome

/-- What an access handler returns. -/
inductive Status where
  /-- `NGX_OK`. -/
  | ok
  /-- `NGX_DECLINED`. -/
  | declined
  /-- An HTTP status. -/
  | http (code : Nat)
  deriving DecidableEq, Repr

namespace Status

/-- `HTTPStatus::FORBIDDEN`. -/
def forbidden : Status := http 403

/-- `HTTPStatus::INTERNAL_SERVER_ERROR`. -/
def internalServerError : Status := http 500

end Status

/-! ## The request context -/

/-- `RESULT_*`. -/
inductive ResultText where
  | allow
  | deny
  | error
  | off
  | shadow
  deriving DecidableEq, Repr

/-- `RESULT_*`, as text. -/
def ResultText.text : ResultText → Str
  | allow => .lit "allow"
  | deny => .lit "deny"
  | error => .lit "error"
  | off => .lit "off"
  | shadow => .lit "shadow"

/-- A reason of the verifier, or one of the module's own. -/
inductive CtxReason where
  | verified (reason : Reason)
  /-- `REASON_PANIC`. -/
  | panic
  /-- `REASON_NOT_CONFIGURED`. -/
  | notConfigured
  deriving DecidableEq, Repr

/-- The reasons, as text. -/
def CtxReason.text : CtxReason → Str
  | verified reason => reason.text
  | panic => .lit "internal_error"
  | notConfigured => .lit "not_configured"

/-- What the variables of the module show; `none` is the empty text. -/
structure RequestCtx where
  result : Option ResultText
  reason : Option CtxReason
  accessKeyHash : Str
  latencyUs : Option UInt64
  deriving DecidableEq

/-- `RequestCtx::default()`. -/
def RequestCtx.default : RequestCtx where
  result := none
  reason := none
  accessKeyHash := .empty
  latencyUs := none

/-- A log line; the path is written as `from_utf8_lossy` gives it. -/
structure LogLine where
  result : Option ResultText
  reason : Option CtxReason
  accessKeyHash : Str
  method : Str
  host : Str
  path : Bytes
  deriving DecidableEq

/-! ## Handling a request -/

/-- What the handler reads of a request. -/
structure HttpRequest where
  methodName : Bytes
  unparsedUri : Bytes
  /-- `headers_in.host`, which may be null. -/
  host : Option Bytes
  deriving DecidableEq

/-- What the handler reads of its surroundings. -/
structure Surroundings where
  /-- The request pool has room for the context. -/
  allocates : Bool
  now : SystemTime
  /-- `started.elapsed()`. -/
  elapsed : Duration
  deriving DecidableEq

/-- What the handler leaves behind. -/
structure Handled where
  status : Status
  ctx : Option RequestCtx
  log : Option LogLine
  main : Option MainConf
  deriving DecidableEq

/-- `elapsed.as_micros().min(u64::MAX) as u64`. -/
def latencyUs (elapsed : Duration) : UInt64 :=
  UInt64.ofNat (min (elapsed.secs.toNat * 1000000 + elapsed.nanos.toNat / 1000) u64.hi.toNat)

/-- `std::str::from_utf8(v).unwrap_or("")`. -/
def textOrEmpty (v : Bytes) : Str := (Str.fromUtf8 v).getD .empty

/-- `ctx.result` of an outcome. -/
def resultOf (allowed : Bool) (mode : Mode) : ResultText :=
  match allowed, mode with
  | _, .shadow => .shadow
  | true, _ => .allow
  | false, _ => .deny

/-- The status of an outcome. -/
def statusOf (allowed : Bool) (mode : Mode) : Status :=
  match allowed, mode with
  | true, _ => .ok
  | false, .shadow => .ok
  | false, _ => .forbidden

/-- The log line of an outcome. -/
def logLine (main : MainConf) (outcome : VerifyResult) (ctx : RequestCtx) (method host : Str) :
    Option LogLine :=
  if main.logsAll || (!outcome.allowed && main.logsDenies) then
    some {
      result := ctx.result
      reason := ctx.reason
      accessKeyHash := if ctx.accessKeyHash.isEmpty then .lit "-" else ctx.accessKeyHash
      method
      host
      path := outcome.path }
  else none

/-- Verification was enabled but there is no verifier. -/
def notConfigured (main : Option MainConf) : Handled where
  status := .internalServerError
  ctx := some { RequestCtx.default with result := some .error, reason := some .notConfigured }
  log := none
  main := main

def handleRequest (C : Crypto) (loc : Option LocConf) (main : Option MainConf)
    (request : HttpRequest) (env : Surroundings) : Outcome Empty Handled :=
  match loc with
  | none => ok ⟨.internalServerError, none, none, main⟩
  | some loc =>
    if !env.allocates then ok ⟨.internalServerError, none, none, main⟩
    else if !loc.mode.verifies then
      ok ⟨.declined, some { RequestCtx.default with result := some .off }, none, main⟩
    else
      match main with
      | none => ok (notConfigured none)
      | some main =>
        match main.verifier with
        | none => ok (notConfigured (some main))
        | some verifier => do
          let method := textOrEmpty request.methodName
          let host := textOrEmpty (request.host.getD [])
          let (outcome, verifier) ← verifier.verify C method request.unparsedUri host env.now
          let ctx : RequestCtx := {
            result := some (resultOf outcome.allowed loc.mode)
            reason := some (.verified outcome.reason)
            accessKeyHash := outcome.accessKeyHash
            latencyUs := some (latencyUs env.elapsed) }
          ok {
            status := statusOf outcome.allowed loc.mode
            ctx := some ctx
            log := logLine main outcome ctx method host
            main := some { main with verifier := some verifier } }

/-- `sigv4_verify_access_handler`: a panic is answered with 500. -/
def sigv4VerifyAccessHandler (C : Crypto) (loc : Option LocConf) (main : Option MainConf)
    (request : HttpRequest) (env : Surroundings) : Handled :=
  match handleRequest C loc main request env with
  | .ok handled => handled
  | .exit e => e.elim
  | .panic _ =>
    let ctx : RequestCtx :=
      { RequestCtx.default with result := some .error, reason := some .panic }
    ⟨.internalServerError, if env.allocates then some ctx else none, none, main⟩

/-! ## The access phase -/

/-- `satisfy all` and `satisfy any`. -/
inductive Satisfy where
  | all
  | any
  deriving DecidableEq, Repr

/-- What becomes of the request. -/
inductive Decision where
  | granted
  | refused (code : Nat)
  deriving DecidableEq, Repr

/-- 401 and 403 leave the decision to the other handlers under `satisfy any`. -/
def isRefusal (code : Nat) : Bool := code == 401 || code == 403

/-- `r->access_code` after a refusal: a 401 is kept. -/
def remember (accessCode : Option Nat) (code : Nat) : Option Nat :=
  if accessCode = some 401 then accessCode else some code

/-- The decision after all handlers, and the one a handler makes early. -/
def accessPhase (satisfy : Satisfy) : Option Nat → List Status → Decision
  | none, [] => .granted
  | some code, [] => .refused code
  | accessCode, .declined :: rest => accessPhase satisfy accessCode rest
  | accessCode, .ok :: rest =>
    match satisfy with
    | .all => accessPhase satisfy accessCode rest
    | .any => .granted
  | accessCode, .http code :: rest =>
    match satisfy with
    | .all => .refused code
    | .any =>
      if isRefusal code then accessPhase satisfy (remember accessCode code) rest
      else .refused code

end SigV4
