import SigV4.Property.Malleability
import SigV4.Property.Reordering

/-!
# The log tells nothing of a signature

The raw query is never logged: it contains the signature. Neither is anything else that is made
of it, but the outcome. Two workers serve the same requests, with other signatures; then the log
lines, the variables and the statuses are the same unless one signature matches and the other does
not, and then they differ by that alone.
-/

namespace SigV4

open Outcome Spec

variable {C : Crypto} {settings : Settings} {credentials : List Credential} {main : MainConf}
  {r r' : Request} {ps ps' : List Pair} {value value' : Bytes} {s : Served}

namespace Resigned

theorem symm (h : Resigned r r' ps ps' value value') (huri : ValidUri r.rawUri) :
    Resigned r' r ps' ps value' value where
  method := h.method.symm
  host := h.host.symm
  now := h.now.symm
  uri := huri
  path := h.path.symm
  reads := h.reads'
  reads' := h.reads
  signed := h.signed.symm
  value := h.value'
  value' := h.value

theorem hashOfNamed (h : Resigned r r' ps ps' value value') (hash : Str)
    (hhash : HashOfNamed C r hash) : HashOfNamed C r' hash := by
  obtain ⟨f, key, hf, hkey, hhash⟩ := hhash
  exact ⟨f, key, h.sameBut.scopes Known.noConfusion hf, hkey, hhash⟩

theorem toldPath (h : Resigned r r' ps ps' value value') (huri : ValidUri r.rawUri) (c : Check) :
    Spec.toldPath r' c = Spec.toldPath r c := by
  by_cases hc : c = .metadata
  · rw [hc]
    rfl
  · rw [← toldPath_of_valid hc h.uri, ← toldPath_of_valid hc huri, h.path]

theorem grants (h : Resigned r r' ps ps' value value') (result : VerifyResult)
    (hg : Grants C r result) : Grants C r' result where
  allowed := hg.allowed
  reason := hg.reason
  path := hg.path.trans h.path.symm
  accessKey := by
    obtain ⟨f, key, hf, hkey, hsome, hhash⟩ := hg.accessKey
    exact ⟨f, key, h.sameBut.scopes Known.noConfusion hf, hkey, hsome, hhash⟩

theorem denies (h : Resigned r r' ps ps' value value') (huri : ValidUri r.rawUri) (c : Check)
    (result : VerifyResult) (hd : Denies C r c result) : Denies C r' c result where
  denied := hd.denied
  reason := hd.reason
  path := hd.path.trans (h.toldPath huri c).symm
  accessKey := hd.accessKey
  hash := by
    have hhash := hd.hash
    cases hc : c.anonymous with
    | true => rwa [hc] at hhash
    | false =>
        rw [hc] at hhash
        exact h.hashOfNamed _ hhash

/-- **Another signature** changes what a signature decides and nothing else. -/
theorem alike (h : Resigned r r' ps ps' value value') (huri : ValidUri r.rawUri)
    {result result' : VerifyResult} (hv : Verdict C settings credentials r result)
    (hv' : Verdict C settings credentials r' result') : AlikeButSignature result result' := by
  refine alike_of_passes (fun c hc => ?_) h.grants (h.denies huri) hv hv'
  have hne : c ≠ .signature := fun he => signature_not_mem (he ▸ hc)
  exact ⟨h.passes hne, (h.symm huri).passes hne⟩

end Resigned

/-! ## Requests sent again -/

/-- A request, and the same request with another signature in its URI; the parameters may be
written otherwise too. Both URIs can be read. -/
structure Resent where
  served : Served
  uri : Bytes
  valid : ValidUri served.request.unparsedUri
  resigned : ∃ ps ps' value value',
    Resigned served.reading { served.reading with rawUri := uri } ps ps' value value'

/-- The request as it is sent again. -/
def Resent.again (sent : Resent) : Served :=
  { sent.served with request := { sent.served.request with unparsedUri := sent.uri } }

/-- A log line without its outcome. -/
def LogLine.veil (line : LogLine) : LogLine := { line with result := none, reason := none }

/-- The reason that the comparison of a signature gives. -/
def signatureReason (isMatch : Bool) : Reason := if isMatch then .ok else .signatureMismatch

/-- What a handling tells of a signature that has been compared: whether it matches, and nothing
else that `told` does not hold. -/
structure TellsOutcome (main : MainConf) (mode : Mode) (isMatch : Bool) (told : RequestCtx)
    (h : Handled) : Prop where
  status : h.status = statusOf isMatch mode
  ctx : h.ctx = some { told with
    result := some (resultOf isMatch mode)
    reason := some (.verified (signatureReason isMatch)) }
  logged : h.log.isSome = (main.logsAll || (!isMatch && main.logsDenies))
  line : ∀ line, h.log = some line → line.result = some (resultOf isMatch mode)
    ∧ line.reason = some (.verified (signatureReason isMatch))

/-- What one handling tells, the other does, but for whether the signature matches. -/
structure TellsAlike (main : MainConf) (mode : Mode) (h h' : Handled) : Prop where
  /-- Of two log lines, nothing but the outcome differs. -/
  log : ∀ line line', h.log = some line → h'.log = some line' → line.veil = line'.veil
  accessKeyHash : variableAccessKeyHash h.ctx = variableAccessKeyHash h'.ctx
  latencyUs : ∀ allocates, variableLatencyUs allocates h.ctx = variableLatencyUs allocates h'.ctx
  /-- Where anything differs, one signature matches and the other does not. -/
  outcome : (h.status = h'.status ∧ h.ctx = h'.ctx ∧ h.log = h'.log)
    ∨ ∃ isMatch told, TellsOutcome main mode isMatch told h
      ∧ TellsOutcome main mode (!isMatch) told h'

theorem TellsAlike.of_answersAlike {mode : Mode} {h h' : Handled} (ha : AnswersAlike h h') :
    TellsAlike main mode h h' where
  log line line' hl hl' := by rw [Option.some.inj (hl.symm.trans (ha.log.trans hl'))]
  accessKeyHash := by rw [ha.ctx]
  latencyUs _ := by rw [ha.ctx]
  outcome := Or.inl ⟨ha.status, ha.ctx, ha.log⟩

/-- A worker logs what the configuration says that it logs. -/
structure LogsAs (main m : MainConf) : Prop where
  logDenies : m.logDenies = main.logDenies
  logAll : m.logAll = main.logAll

theorem LogsAs.logged {m : MainConf} (h : LogsAs main m) (denied : Bool) :
    (m.logsAll || (denied && m.logsDenies)) = (main.logsAll || (denied && main.logsDenies)) := by
  unfold MainConf.logsAll MainConf.logsDenies
  rw [h.logDenies, h.logAll]

/-- A line that is logged is made of these. -/
theorem logLine_eq_some {outcome : VerifyResult} {ctx : RequestCtx} {method host : Str}
    {line : LogLine} (h : logLine main outcome ctx method host = some line) :
    line = ⟨ctx.result, ctx.reason,
      if ctx.accessKeyHash.isEmpty then .lit "-" else ctx.accessKeyHash, method, host,
      outcome.path⟩ := by
  unfold logLine at h
  split at h
  · exact (Option.some.inj h).symm
  · exact absurd h (by simp)

theorem isSome_logLine (main : MainConf) (outcome : VerifyResult) (ctx : RequestCtx)
    (method host : Str) : (logLine main outcome ctx method host).isSome
      = (main.logsAll || (!outcome.allowed && main.logsDenies)) := by
  unfold logLine
  split
  · next h => rw [h]; rfl
  · next h => rw [Bool.eq_false_iff.mpr h]; rfl

/-- What a request leaves behind whose signature has been compared. -/
theorem tellsOutcome_handled {m : MainConf} (hlogs : LogsAs main m) (s : Served) (mode : Mode)
    (v : Verifier) {result : VerifyResult} {isMatch : Bool} (hallowed : result.allowed = isMatch)
    (hreason : result.reason = signatureReason isMatch) :
    TellsOutcome main mode isMatch { RequestCtx.default with
        accessKeyHash := result.accessKeyHash, latencyUs := some (latencyUs s.env.elapsed) }
      (s.handled m mode result v) where
  status := by rw [← hallowed]; rfl
  ctx := by
    rw [← hreason, ← hallowed]
    rfl
  logged := by
    rw [← hlogs.logged, ← hallowed]
    exact isSome_logLine _ _ _ _ _
  line line hl := by
    rw [logLine_eq_some hl, ← hreason, ← hallowed]
    exact ⟨rfl, rfl⟩

/-- Alike answers leave alike traces; the verifiers that they leave may differ. -/
theorem tellsAlike_of_alike (sent : Resent) (mode : Mode) {result result' : VerifyResult}
    (h : AlikeButSignature result result') (v v' : Verifier) {m m' : MainConf}
    (hlogs : LogsAs main m) (hlogs' : LogsAs main m') :
    TellsAlike main mode (sent.served.handled m mode result v)
      (sent.again.handled m' mode result' v') where
  log line line' hl hl' := by
    rw [logLine_eq_some hl, logLine_eq_some hl']
    unfold LogLine.veil
    rw [h.path]
    dsimp only
    rw [h.accessKeyHash]
    rfl
  accessKeyHash := by
    unfold Served.handled variableAccessKeyHash
    dsimp only
    rw [h.accessKeyHash]
  latencyUs _ := rfl
  outcome := by
    rcases h.outcome with rfl | hout | hout
    · refine Or.inl ⟨rfl, rfl, ?_⟩
      unfold Served.handled logLine
      rw [hlogs.logged, hlogs'.logged]
      rfl
    · refine Or.inr ⟨true, _, tellsOutcome_handled hlogs sent.served mode v hout.allowed
        hout.reason, ?_⟩
      rw [h.accessKeyHash]
      exact tellsOutcome_handled hlogs' sent.again mode v' hout.allowed' hout.reason'
    · refine Or.inr ⟨false, _, tellsOutcome_handled hlogs sent.served mode v hout.allowed'
        hout.reason', ?_⟩
      rw [h.accessKeyHash]
      exact tellsOutcome_handled hlogs' sent.again mode v' hout.allowed hout.reason

/-- **One request** tells alike, and leaves two workers that work alike. -/
theorem serve_tellsAlike {m m' : MainConf}
    (h : WorksAlike C settings credentials credentials m m') (hlogs : LogsAs main m)
    (sent : Resent) :
    ∃ handled m₁ handled' m₁', serve C m sent.served = ok (handled, m₁)
      ∧ serve C m' sent.again = ok (handled', m₁')
      ∧ TellsAlike main sent.served.mode handled handled'
      ∧ WorksAlike C settings credentials credentials m₁ m₁' ∧ LogsAs main m₁ := by
  cases hpasses : sent.served.passesBy with
  | true =>
      obtain ⟨handled, handled', hserve, hserve', halike⟩ :=
        serve_alike_of_passesBy hpasses m m' sent.again.request
      exact ⟨handled, m, handled', m', hserve, hserve', .of_answersAlike halike, h, hlogs⟩
  | false =>
      rcases h.verifier with ⟨hnone, hnone'⟩ | ⟨hv, hv'⟩
      · refine ⟨_, m, _, m', serve_of_not_configured hpasses hnone,
          serve_of_not_configured (s := sent.again) hpasses hnone', ?_, h, hlogs⟩
        exact .of_answersAlike ⟨rfl, rfl, rfl⟩
      · obtain ⟨hallocates, hmode⟩ := Bool.or_eq_false_iff.mp hpasses
        rw [Bool.not_eq_false'] at hallocates hmode
        obtain ⟨result, v, hverdict, hkeeps, hserves⟩ := serve_verifies hv hallocates
        obtain ⟨result', v', hverdict', hkeeps', hserves'⟩ :=
          serve_verifies (s := sent.again) hv' hallocates
        obtain ⟨ps, ps', value, value', hresigned⟩ := sent.resigned
        have hlogs' : LogsAs main m' :=
          ⟨h.logDenies.symm.trans hlogs.logDenies, h.logAll.symm.trans hlogs.logAll⟩
        refine ⟨_, _, _, _, hserves sent.served.mode hmode, hserves' sent.served.mode hmode, ?_,
          ⟨h.logDenies, h.logAll, Or.inr ⟨hkeeps, hkeeps'⟩⟩, hlogs.logDenies, hlogs.logAll⟩
        exact tellsAlike_of_alike sent sent.served.mode
          (hresigned.alike sent.valid hverdict hverdict') v v' hlogs hlogs'

/--
**The log tells nothing of a signature.** A configuration is loaded, and two workers of it serve
the same requests, but for their signatures; both URIs of a request can be read. Request by
request, nothing differs in the log lines but the outcome, and no status, variable or log line
differs at all unless one signature matches and the other does not: then the status, the result,
the reason and whether a line is logged are those of a match for the one and of a mismatch for the
other.
-/
theorem log_signature_blind {fs : FileSystem} {http : Block} {locations : Locations}
    (hload : loadHttp C fs http = ok (main, locations)) (sent : List Resent) :
    ∃ hs main₁ hs' main₁', runs (serve C) main (sent.map Resent.served) = ok (hs, main₁)
      ∧ runs (serve C) main (sent.map Resent.again) = ok (hs', main₁')
      ∧ Along (fun again => TellsAlike main again.served.mode) sent hs hs' := by
  obtain ⟨parsed, hconfigures, hloaded, _⟩ := loadHttp_iff.mp hload
  obtain ⟨settings, cs, hworks⟩ : ∃ settings cs, WorksAlike C settings cs cs main main := by
    cases hloaded with
    | bare _ _ => exact ⟨main.settings, [], rfl, rfl,
        Or.inl ⟨hconfigures.verifier, hconfigures.verifier⟩⟩
    | @compiled cs v _ _ _ hv => exact ⟨parsed.settings, cs, rfl, rfl,
        Or.inr ⟨⟨v, rfl, .fresh hv⟩, ⟨v, rfl, .fresh hv⟩⟩⟩
  have hstep := fun m m' again (h : WorksAlike C settings cs cs m m' ∧ LogsAs main m) =>
    serve_tellsAlike h.1 h.2 again
  obtain ⟨hs, main₁, hs', main₁', hruns, hruns', halong, _⟩ :=
    runs_along (f := Resent.served) (g := Resent.again) hstep sent main main ⟨hworks, rfl, rfl⟩
  exact ⟨hs, main₁, hs', main₁', hruns, hruns', halong⟩

/-- The sample request, as a client sends it and with its signature in upper case. -/
def sampleResent : Resent where
  served := ⟨.on, ⟨bytes "GET", sampleRequest.rawUri, some sampleRequest.host.bytes⟩,
    sampleSurroundings⟩
  uri := shoutedRequest.rawUri
  valid := (splitOriginalUri_eq_ok.mp sample_uri).1
  resigned := ⟨_, _, _, _, resigned_sample⟩

theorem log_signature_blind_sample :
    ∃ main locations hs main₁ hs' main₁',
      loadHttp sampleCrypto noFiles sampleHttp = ok (main, locations)
        ∧ runs (serve sampleCrypto) main [sampleResent.served] = ok (hs, main₁)
        ∧ runs (serve sampleCrypto) main [sampleResent.again] = ok (hs', main₁')
        ∧ Along (fun again => TellsAlike main again.served.mode) [sampleResent] hs hs' := by
  have hok : (loadHttp sampleCrypto noFiles sampleHttp).isOk = true := by rfl
  obtain ⟨⟨main, locations⟩, hload⟩ := isOk_iff.mp hok
  obtain ⟨hs, main₁, hs', main₁', hruns, hruns', halike⟩ :=
    log_signature_blind hload [sampleResent]
  exact ⟨main, locations, hs, main₁, hs', main₁', hload, hruns, hruns', halike⟩

end SigV4
