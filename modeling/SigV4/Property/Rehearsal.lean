import SigV4.NginxModule.Variables
import SigV4.Property.Enforcement
import SigV4.Proof.Verdict

/-!
# Shadow rehearses on

A location is put into the mode `shadow` to see what `on` would do. Over any requests that a
worker serves, turning every `on` into `shadow` leaves the reason, the hash and the latency that
the variables show as they are, and the log lines too but for the result; and the reason says
`ok` exactly where `on` would have let the request pass.
-/

namespace SigV4

open Outcome Spec

variable {C : Crypto} {settings : Settings} {credentials : List Credential} {main : MainConf}
  {s : Served}

/-- The same request, where `on` is turned into `shadow`. -/
def Served.rehearse (s : Served) : Served :=
  if s.mode = .on then { s with mode := .shadow } else s

/-- A log line without its result. -/
def LogLine.forget (line : LogLine) : LogLine := { line with result := none }

/-- What the rehearsal `h'` of a request tells of the request itself, handled as `h`. -/
structure Rehearses (s : Served) (h h' : Handled) : Prop where
  reason : variableReason h.ctx = variableReason h'.ctx
  accessKeyHash : variableAccessKeyHash h.ctx = variableAccessKeyHash h'.ctx
  latencyUs : ∀ allocates, variableLatencyUs allocates h.ctx = variableLatencyUs allocates h'.ctx
  log : h.log.map LogLine.forget = h'.log.map LogLine.forget
  /-- Other modes are not rehearsed. -/
  other : s.mode ≠ .on → h' = h
  /-- What `on` would do is told by the reason. -/
  on : s.mode = .on → s.env.allocates = true →
    h'.status = .ok ∧ variableResult h'.ctx = .bound (bytes "shadow")
      ∧ ((h.status = .ok ∧ variableResult h.ctx = .bound (bytes "allow")
          ∧ variableReason h'.ctx = .bound (bytes "ok"))
        ∨ (h.status = .forbidden ∧ variableResult h.ctx = .bound (bytes "deny")
          ∧ ∃ reason, reason ≠ bytes "ok" ∧ variableReason h'.ctx = .bound reason))
  /-- Where the pool has no room for the context, both are errors. -/
  full : s.mode = .on → s.env.allocates = false →
    h.status = .internalServerError ∧ h'.status = .internalServerError

/-- The denials do not say `ok`. -/
theorem Check.reason_text_ne (c : Check) : c.reason.text.bytes ≠ bytes "ok" := by
  cases c <;> decide

/-- The reason of a verdict is `ok` exactly where it grants. -/
theorem Spec.Verdict.reason_text {r : Request} {result : VerifyResult}
    (h : Verdict C settings credentials r result) :
    (result.allowed = true ∧ result.reason = .ok)
      ∨ (result.allowed = false ∧ result.reason.text.bytes ≠ bytes "ok") := by
  cases h with
  | granted _ hg => exact Or.inl ⟨hg.allowed, hg.reason⟩
  | @denied c _ hd =>
      refine Or.inr ⟨hd.denied, ?_⟩
      rw [hd.reason]
      exact Check.reason_text_ne c

/-- The request that the verifier is asked about. -/
def Served.reading (s : Served) : Request where
  method := textOrEmpty s.request.methodName
  rawUri := s.request.unparsedUri
  host := textOrEmpty (s.request.host.getD [])
  now := s.env.now

/-- What a verifying handler leaves behind, of the answer `result`. -/
def Served.handled (s : Served) (main : MainConf) (mode : Mode) (result : VerifyResult)
    (v : Verifier) : Handled :=
  let ctx : RequestCtx := {
    result := some (resultOf result.allowed mode)
    reason := some (.verified result.reason)
    accessKeyHash := result.accessKeyHash
    latencyUs := some (latencyUs s.env.elapsed) }
  { status := statusOf result.allowed mode
    ctx := some ctx
    log := logLine main result ctx s.reading.method s.reading.host
    main := some { main with verifier := some v } }

/-- **A verifying location** hands out the verdict, in its own mode. -/
theorem serve_verifies (hmain : HasVerifier C settings credentials main)
    (hallocates : s.env.allocates = true) :
    ∃ result v, Verdict C settings credentials s.reading result
      ∧ HasVerifier C settings credentials { main with verifier := some v }
      ∧ ∀ mode : Mode, mode.verifies = true → serve C main { s with mode }
        = ok (s.handled main mode result v, { main with verifier := some v }) := by
  obtain ⟨v, hv, hrunning⟩ := hmain
  obtain ⟨result, v', hverify, hverdict⟩ := exists_verdict hrunning s.reading
  refine ⟨result, v', hverdict, ⟨v', rfl, .verified hrunning hverify⟩, fun mode hmode => ?_⟩
  unfold serve sigv4VerifyAccessHandler handleRequest
  dsimp only
  rw [hallocates, hmode, hv, Bool.not_true, if_neg Bool.false_ne_true, if_neg Bool.false_ne_true]
  dsimp only
  unfold Served.reading at hverify
  rw [hverify]
  rfl

/-- The rehearsal of a request that is left alone. -/
theorem rehearses_self {h : Handled}
    (hquiet : s.mode = .on → s.env.allocates = false ∧ h.status = .internalServerError) :
    Rehearses s h h where
  reason := rfl
  accessKeyHash := rfl
  latencyUs _ := rfl
  log := rfl
  other _ := rfl
  on hon hallocates := absurd (hallocates.symm.trans (hquiet hon).1) Bool.noConfusion
  full hon _ := ⟨(hquiet hon).2, (hquiet hon).2⟩

/-- The rehearsal of a request that `on` decides. -/
theorem rehearses_on (hmode : s.mode = .on) (hallocates : s.env.allocates = true)
    {result : VerifyResult} (v : Verifier)
    (hverdict : Verdict C settings credentials s.reading result) :
    Rehearses s (s.handled main .on result v) (s.handled main .shadow result v) where
  reason := rfl
  accessKeyHash := rfl
  latencyUs _ := rfl
  log := by
    unfold Served.handled logLine
    split <;> rfl
  other hne := absurd hmode hne
  full _ hfull := absurd (hallocates.symm.trans hfull) Bool.noConfusion
  on _ _ := by
    have hreason := hverdict.reason_text
    refine ⟨?_, ?_, ?_⟩
    · unfold Served.handled
      cases result.allowed <;> rfl
    · unfold Served.handled
      cases result.allowed <;> rfl
    · cases hreason with
      | inl h =>
          unfold Served.handled
          rw [h.1, h.2]
          exact Or.inl ⟨rfl, rfl, rfl⟩
      | inr h =>
          unfold Served.handled
          rw [h.1]
          exact Or.inr ⟨rfl, rfl, result.reason.text.bytes, h.2, rfl⟩

/-- One request leaves a verifier that runs. -/
theorem serve_hasVerifier (hmain : HasVerifier C settings credentials main) (s : Served) :
    ∃ h main', serve C main s = ok (h, main') ∧ HasVerifier C settings credentials main' := by
  refine ⟨_, _, rfl, ?_⟩
  cases hm : (sigv4VerifyAccessHandler C (some ⟨s.mode⟩) (some main) s.request s.env).main with
  | none => exact hmain
  | some main' => exact hasVerifier_step hmain hm

/-- Without room for the context every mode is an error. -/
theorem serve_of_not_allocates (hallocates : s.env.allocates = false) (main : MainConf)
    (mode : Mode) : serve C main { s with mode }
      = ok (⟨.internalServerError, none, none, some main⟩, main) := by
  unfold serve sigv4VerifyAccessHandler handleRequest
  dsimp only
  rw [hallocates]
  rfl

/-- **One request** is rehearsed, and leaves the same configuration. -/
theorem serve_rehearses (hmain : HasVerifier C settings credentials main) (s : Served) :
    ∃ h h' main', serve C main s = ok (h, main') ∧ serve C main s.rehearse = ok (h', main')
      ∧ Rehearses s h h' ∧ HasVerifier C settings credentials main' := by
  obtain ⟨h, main', hserve, hmain'⟩ := serve_hasVerifier hmain s
  by_cases hon : s.mode = .on
  · have hrehearse : s.rehearse = { s with mode := .shadow } := if_pos hon
    rw [hrehearse]
    cases hallocates : s.env.allocates with
    | false =>
        exact ⟨_, _, main, serve_of_not_allocates hallocates main s.mode,
          serve_of_not_allocates hallocates main .shadow,
          rehearses_self fun _ => ⟨hallocates, rfl⟩, hmain⟩
    | true =>
        obtain ⟨result, v, hverdict, hrunning, hmodes⟩ := serve_verifies hmain hallocates
        have hself : ({ s with mode := .on } : Served) = s := by rw [← hon]
        have hserved := hmodes .on rfl
        rw [hself] at hserved
        exact ⟨_, _, _, hserved, hmodes .shadow rfl, rehearses_on hon hallocates v hverdict,
          hrunning⟩
  · have hrehearse : s.rehearse = s := if_neg hon
    rw [hrehearse]
    exact ⟨h, h, main', hserve, hserve, rehearses_self fun h => absurd h hon, hmain'⟩

/--
**Shadow rehearses on.** A worker whose verifier runs serves the same requests twice, the second
time with every `on` turned into `shadow`. Request by request, the variables and the log tell the
same but for the result, no request is refused that `on` would have decided, and the reason is
`ok` exactly where `on` lets the request pass; a request whose context cannot be allocated is an
error both times. Both times leave the worker alike.
-/
theorem shadow_rehearses (hmain : HasVerifier C settings credentials main)
    (served : List Served) :
    ∃ hs hs' main', runs (serve C) main served = ok (hs, main')
      ∧ runs (serve C) main (served.map Served.rehearse) = ok (hs', main')
      ∧ Along Rehearses served hs hs' := by
  have hstep : ∀ m m' s, m = m' ∧ HasVerifier C settings credentials m →
      ∃ h m₁ h' m₁', serve C m (id s) = ok (h, m₁) ∧ serve C m' s.rehearse = ok (h', m₁')
        ∧ Rehearses s h h' ∧ m₁ = m₁' ∧ HasVerifier C settings credentials m₁ := by
    rintro m _ s ⟨rfl, hm⟩
    obtain ⟨h, h', main', hserve, hserve', hrehearses, hmain'⟩ := serve_rehearses hm s
    exact ⟨h, main', h', main', hserve, hserve', hrehearses, rfl, hmain'⟩
  obtain ⟨hs, main', hs', _, hruns, hruns', halong, rfl, _⟩ :=
    runs_along (f := id) (g := Served.rehearse) hstep served main main ⟨rfl, hmain⟩
  rw [List.map_id] at hruns
  exact ⟨hs, hs', main', hruns, hruns', halong⟩

/-- A request without a signature, in two locations. -/
theorem shadow_rehearses_sample :
    ∃ hs hs' main', runs (serve sampleCrypto) sampleMain
          [⟨.on, unsignedRequest, sampleSurroundings⟩, ⟨.off, unsignedRequest, sampleSurroundings⟩]
        = ok (hs, main')
      ∧ runs (serve sampleCrypto) sampleMain
          [⟨.shadow, unsignedRequest, sampleSurroundings⟩,
            ⟨.off, unsignedRequest, sampleSurroundings⟩] = ok (hs', main')
      ∧ Along Rehearses [⟨.on, unsignedRequest, sampleSurroundings⟩,
          ⟨.off, unsignedRequest, sampleSurroundings⟩] hs hs' :=
  shadow_rehearses ⟨sampleVerifier, rfl, sample_running⟩ _

end SigV4
