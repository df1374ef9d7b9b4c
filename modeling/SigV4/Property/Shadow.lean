import SigV4.NginxModule.Handler
import SigV4.Property.Soundness

/-!
# What shadow mode changes

In shadow mode the handler answers `NGX_OK` whatever the verifier says, with the mode off
it answers `NGX_DECLINED`. Under `satisfy all` NGINX reads the two alike. Under
`satisfy any` it does not: `NGX_OK` grants access at once, over the heads of the handlers
that would refuse it.
-/

namespace SigV4

open Outcome

/-! ## The access phase -/

/-- Under `satisfy any` the status ends the phase. -/
def Status.settles : Status → Bool
  | ok => true
  | declined => false
  | http code => !isRefusal code

section AccessPhase

variable (satisfy : Satisfy) (accessCode : Option Nat) (rest : List Status)

@[simp] theorem accessPhase_declined :
    accessPhase satisfy accessCode (.declined :: rest) = accessPhase satisfy accessCode rest := by
  cases accessCode <;> rfl

@[simp] theorem accessPhase_all_ok :
    accessPhase .all accessCode (.ok :: rest) = accessPhase .all accessCode rest := by
  cases accessCode <;> rfl

@[simp] theorem accessPhase_any_ok :
    accessPhase .any accessCode (.ok :: rest) = .granted := by
  cases accessCode <;> rfl

@[simp] theorem accessPhase_all_http (code : Nat) :
    accessPhase .all accessCode (.http code :: rest) = .refused code := by
  cases accessCode <;> rfl

@[simp] theorem accessPhase_any_http (code : Nat) :
    accessPhase .any accessCode (.http code :: rest)
      = if isRefusal code then accessPhase .any (remember accessCode code) rest
        else .refused code := by
  cases accessCode <;> rfl

end AccessPhase

theorem remember_ne_none (accessCode : Option Nat) (code : Nat) :
    remember accessCode code ≠ none := by
  unfold remember
  split
  · rename_i h
    rw [h]
    simp
  · simp

/-- Under `satisfy all` it is the same to grant and to decline. -/
theorem accessPhase_all_ok_eq_declined (before after : List Status) (accessCode : Option Nat) :
    accessPhase .all accessCode (before ++ .ok :: after)
      = accessPhase .all accessCode (before ++ .declined :: after) := by
  induction before generalizing accessCode with
  | nil => simp
  | cons s before ih =>
      cases s with
      | ok => simpa using ih accessCode
      | declined => simpa using ih accessCode
      | http code => simp

/-- After a status that settles the phase nothing counts. -/
theorem accessPhase_settled {before : List Status} (h : ∃ s ∈ before, s.settles = true)
    (rest rest' : List Status) (accessCode : Option Nat) :
    accessPhase .any accessCode (before ++ rest)
      = accessPhase .any accessCode (before ++ rest') := by
  induction before generalizing accessCode with
  | nil =>
      obtain ⟨_, hmem, _⟩ := h
      exact absurd hmem List.not_mem_nil
  | cons s before ih =>
      rw [List.exists_mem_cons_iff] at h
      cases s with
      | ok => simp
      | declined =>
          have hbefore := h.resolve_left Bool.false_ne_true
          simpa using ih hbefore accessCode
      | http code =>
          rw [List.cons_append, List.cons_append, accessPhase_any_http, accessPhase_any_http]
          cases hcode : isRefusal code with
          | false => rfl
          | true =>
              have hnot : ¬(Status.http code).settles = true := by simp [Status.settles, hcode]
              exact ih (h.resolve_left hnot) (remember accessCode code)

/-- With no such status before it, `NGX_OK` grants. -/
theorem accessPhase_unsettled_ok {before : List Status} (h : ∀ s ∈ before, s.settles = false)
    (after : List Status) (accessCode : Option Nat) :
    accessPhase .any accessCode (before ++ .ok :: after) = .granted := by
  induction before generalizing accessCode with
  | nil => simp
  | cons s before ih =>
      rw [List.forall_mem_cons] at h
      obtain ⟨hs, hbefore⟩ := h
      cases s with
      | ok => exact Bool.noConfusion hs
      | declined => simpa using ih hbefore accessCode
      | http code =>
          have hcode : isRefusal code = true := by simpa [Status.settles] using hs
          rw [List.cons_append, accessPhase_any_http, hcode, if_pos rfl]
          exact ih hbefore (remember accessCode code)

/-- **When `satisfy any` grants**: the first status to settle the phase is `NGX_OK`, or
none settles it and none has refused. -/
theorem accessPhase_any_granted_iff (l : List Status) (accessCode : Option Nat) :
    accessPhase .any accessCode l = .granted
      ↔ l.find? Status.settles = some .ok ∨ (accessCode = none ∧ ∀ s ∈ l, s = .declined) := by
  induction l generalizing accessCode with
  | nil => cases accessCode <;> simp [accessPhase]
  | cons s l ih =>
      cases s with
      | ok => simp [Status.settles]
      | declined =>
          rw [accessPhase_declined, ih, List.find?_cons_of_neg (by simp [Status.settles]),
            List.forall_mem_cons]
          simp
      | http code =>
          rw [accessPhase_any_http]
          cases hcode : isRefusal code with
          | false =>
              rw [List.find?_cons_of_pos (by simp [Status.settles, hcode])]
              simp
          | true =>
              rw [if_pos rfl, ih, List.find?_cons_of_neg (by simp [Status.settles, hcode])]
              simp [remember_ne_none]

/-! ## The handler -/

/-- The status of the module's handler in a location of this mode. -/
def handlerStatus (C : Crypto) (mode : Mode) (main : MainConf) (request : HttpRequest)
    (env : Surroundings) : Status :=
  (sigv4VerifyAccessHandler C (some ⟨mode⟩) (some main) request env).status

/-- The decision, with the module's handler between others. -/
def decision (C : Crypto) (mode : Mode) (main : MainConf) (request : HttpRequest)
    (env : Surroundings) (satisfy : Satisfy) (before after : List Status) : Decision :=
  accessPhase satisfy none (before ++ handlerStatus C mode main request env :: after)

variable {C : Crypto} {settings : Settings} {credentials : List Credential} {v : Verifier}

/-- **What the handler does** where it verifies: it asks the verifier. -/
theorem handleRequest_eq (mode : Mode) (request : HttpRequest) {main : MainConf}
    {env : Surroundings} (hmode : mode.verifies = true) (hallocates : env.allocates = true)
    (hmain : main.verifier = some v) (hv : Running C settings credentials v) :
    ∃ result v', v.verify C (textOrEmpty request.methodName) request.unparsedUri
          (textOrEmpty (request.host.getD [])) env.now = ok (result, v')
      ∧ Running C settings credentials v'
      ∧ ∃ handled, handleRequest C (some ⟨mode⟩) (some main) request env = ok handled
        ∧ handled.status = statusOf result.allowed mode
        ∧ (∃ ctx, handled.ctx = some ctx ∧ ctx.reason = some (.verified result.reason))
        ∧ handled.main = some { main with verifier := some v' } := by
  obtain ⟨result, v', hverify, hv'⟩ := verify_total hv (textOrEmpty request.methodName)
    request.unparsedUri (textOrEmpty (request.host.getD [])) env.now
  refine ⟨result, v', hverify, hv', ?_⟩
  unfold handleRequest
  dsimp only
  rw [hallocates, hmode, hmain, Bool.not_true, if_neg Bool.false_ne_true,
    if_neg Bool.false_ne_true]
  dsimp only
  rw [hverify, ok_bind]
  exact ⟨_, rfl, rfl, ⟨_, rfl, rfl⟩, rfl⟩

theorem handlerStatus_shadow {main : MainConf} {request : HttpRequest} {env : Surroundings}
    (hallocates : env.allocates = true) (hmain : main.verifier = some v)
    (hv : Running C settings credentials v) : handlerStatus C .shadow main request env = .ok := by
  obtain ⟨result, _, _, _, handled, hhandled, hstatus, _⟩ :=
    handleRequest_eq .shadow request rfl hallocates hmain hv
  unfold handlerStatus sigv4VerifyAccessHandler
  rw [hhandled]
  cases hallowed : result.allowed with
  | false => rw [hallowed] at hstatus; exact hstatus
  | true => rw [hallowed] at hstatus; exact hstatus

theorem handlerStatus_off {main : MainConf} {request : HttpRequest} {env : Surroundings}
    (hallocates : env.allocates = true) : handlerStatus C .off main request env = .declined := by
  unfold handlerStatus sigv4VerifyAccessHandler handleRequest
  rw [hallocates]
  rfl

theorem handlerStatus_of_not_allocates {mode : Mode} {main : MainConf} {request : HttpRequest}
    {env : Surroundings} (hallocates : env.allocates = false) :
    handlerStatus C mode main request env = .internalServerError := by
  unfold handlerStatus sigv4VerifyAccessHandler handleRequest
  rw [hallocates]
  rfl

/-- Under `satisfy any`: a handler before the module's settles the phase, the first one
after it to do so grants, or all of them decline. -/
def OthersSettle (before after : List Status) : Prop :=
  (∃ s ∈ before, s.settles = true) ∨ after.find? Status.settles = some .ok
    ∨ ∀ s ∈ before ++ after, s = .declined

/--
**When shadow mode changes nothing.** With a verifier that runs, the decision in shadow
mode is the decision with the mode off exactly if there is no memory for the context, the
location says `satisfy all`, or the other handlers settle it.
-/
theorem shadow_eq_off_iff {main : MainConf} (hmain : main.verifier = some v)
    (hv : Running C settings credentials v) (request : HttpRequest) (env : Surroundings)
    (satisfy : Satisfy) (before after : List Status) :
    decision C .shadow main request env satisfy before after
        = decision C .off main request env satisfy before after
      ↔ env.allocates = false ∨ satisfy = .all ∨ OthersSettle before after := by
  unfold decision
  cases hallocates : env.allocates with
  | false =>
      rw [handlerStatus_of_not_allocates hallocates, handlerStatus_of_not_allocates hallocates]
      simp
  | true =>
      rw [handlerStatus_shadow hallocates hmain hv, handlerStatus_off hallocates]
      cases satisfy with
      | all => simp [accessPhase_all_ok_eq_declined]
      | any =>
          by_cases hbefore : ∃ s ∈ before, s.settles = true
          · exact iff_of_true (accessPhase_settled hbefore _ _ none)
              (Or.inr (Or.inr (Or.inl hbefore)))
          · -- `NGX_OK` grants, so the others have to
            have hunsettled : ∀ s ∈ before, s.settles = false := by
              intro s hs
              cases hsettles : s.settles with
              | false => rfl
              | true => exact absurd ⟨s, hs, hsettles⟩ hbefore
            have hfind : before.find? Status.settles = none := by
              rw [List.find?_eq_none]
              intro s hs
              rw [hunsettled s hs]
              exact Bool.false_ne_true
            have hown : (∀ s ∈ before ++ .declined :: after, s = Status.declined)
                ↔ ∀ s ∈ before ++ after, s = .declined := by
              rw [List.forall_mem_append, List.forall_mem_append, List.forall_mem_cons]
              simp
            rw [accessPhase_unsettled_ok hunsettled, eq_comm, accessPhase_any_granted_iff, hown,
              List.find?_append, hfind, Option.none_or,
              List.find?_cons_of_neg (by simp [Status.settles])]
            simp [OthersSettle, hbefore]

/-- The request is not signed, and the handler after the module's refuses it. -/
def unsignedRequest : HttpRequest where
  methodName := bytes "GET"
  unparsedUri := bytes "/bucket/file.jpg"
  host := some (bytes "minio.example.com")

def sampleMain : MainConf := { MainConf.default with verifier := some sampleVerifier }

def sampleSurroundings : Surroundings where
  allocates := true
  now := sampleRequest.now
  elapsed := .fromSecs 0

/-- Shadow mode grants an unsigned request that `deny all` would refuse. -/
theorem shadow_grants :
    decision sampleCrypto .shadow sampleMain unsignedRequest sampleSurroundings .any [] [.forbidden]
        = .granted
      ∧ decision sampleCrypto .off sampleMain unsignedRequest sampleSurroundings .any []
          [.forbidden] = .refused 403 := by
  have hshadow : handlerStatus sampleCrypto .shadow sampleMain unsignedRequest sampleSurroundings
      = .ok := handlerStatus_shadow rfl rfl sample_running
  have hoff : handlerStatus sampleCrypto .off sampleMain unsignedRequest sampleSurroundings
      = .declined := handlerStatus_off rfl
  unfold decision
  rw [hshadow, hoff]
  exact ⟨rfl, rfl⟩

/-- A handler before the module's that grants keeps shadow mode harmless. -/
theorem shadow_eq_off_sample :
    decision sampleCrypto .shadow sampleMain unsignedRequest sampleSurroundings .any [.ok]
        [.forbidden]
      = decision sampleCrypto .off sampleMain unsignedRequest sampleSurroundings .any [.ok]
        [.forbidden] :=
  (shadow_eq_off_iff rfl sample_running unsignedRequest sampleSurroundings .any [.ok]
    [.forbidden]).mpr (Or.inr (Or.inr (Or.inl ⟨.ok, List.mem_singleton.mpr rfl, rfl⟩)))

end SigV4
