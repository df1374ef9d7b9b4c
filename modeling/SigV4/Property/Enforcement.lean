import SigV4.Proof.HttpBlock
import SigV4.Property.Directive
import SigV4.Property.Shadow

/-!
# What is loaded is enforced

`enabled_anywhere` is set while the file is read, long before the modes of the locations
are merged. It is enough all the same: a location that verifies has its mode from a level
that states it, and reading that level has set the flag. So a configuration that loads has
a verifier wherever one is asked for, and it keeps it while requests are served.
-/

namespace SigV4

open Outcome

variable {C : Crypto} {fs : FileSystem} {http : Block} {main main' : MainConf}
  {locations : Locations}

/-! ## The verifier of a configuration -/

theorem resolveNext_foldlM {directives : List CredentialDirective}
    {credentials : List Credential} (h : directives.foldlM (resolveNext fs) [] = ok credentials) :
    List.Forall₂ (fun directive credential => directive.resolve fs = ok credential) directives
      credentials := by
  refine foldlM_inv (P := List.Forall₂ fun directive credential =>
    CredentialDirective.resolve directive fs = ok credential) .nil ?_ h
  intro pre directive acc acc' hacc hstep
  obtain ⟨credential, hresolve, hpush⟩ := bind_eq_ok.mp hstep
  rw [← Outcome.ok.inj hpush]
  exact List.rel_append hacc (.cons (mapExit_eq_ok.mp hresolve) .nil)

/-- **What `init_main_conf` does**: it builds the verifier, unless nothing asks for one. -/
theorem initMainConf_eq_ok (h : initMainConf C fs main = ok main') :
    (main.enabledAnywhere = false ∧ main' = main)
      ∨ ∃ credentials v,
          List.Forall₂ (fun directive credential => directive.resolve fs = ok credential)
              main.credentials credentials
            ∧ Verifier.new C main.settings credentials = ok v
            ∧ main' = { main with verifier := some v } := by
  unfold initMainConf at h
  rw [guardConf_eq_ok] at h
  cases hempty : main.credentials.isEmpty with
  | true =>
      rw [hempty, if_pos rfl] at h
      cases henabled : main.enabledAnywhere with
      | true => rw [henabled, if_pos rfl] at h; exact absurd h (by simp)
      | false =>
          rw [henabled, if_neg Bool.false_ne_true] at h
          exact Or.inl ⟨rfl, (Outcome.ok.inj h).symm⟩
  | false =>
      rw [hempty, if_neg Bool.false_ne_true] at h
      obtain ⟨_, _, h⟩ := bind_eq_ok.mp h
      obtain ⟨credentials, hcredentials, h⟩ := bind_eq_ok.mp h
      obtain ⟨v, hv, h⟩ := bind_eq_ok.mp h
      exact Or.inr ⟨credentials, v, resolveNext_foldlM hcredentials, mapExit_eq_ok.mp hv,
        (Outcome.ok.inj h).symm⟩

/-- The verifier is built from the credentials of the file, all of them and no others. -/
structure CompiledFrom (C : Crypto) (fs : FileSystem) (http : Block) (main : MainConf)
    (credentials : List Credential) (v : Verifier) : Prop where
  reads : List.Forall₂ ReadsCredential http.credentialArgs main.credentials
  distinct : (main.credentials.map (·.accessKey)).Nodup
  resolves : List.Forall₂ (fun directive credential => directive.resolve fs = ok credential)
    main.credentials credentials
  compiles : Verifier.new C main.settings credentials = ok v
  installed : main.verifier = some v

/-- What loading consists of. -/
theorem loadHttp_eq_ok (h : loadHttp C fs http = ok (main, locations)) :
    ∃ parsed loc nested, http.parse .http .default .default = ok (parsed, loc, nested)
      ∧ initMainConf C fs parsed = ok main ∧ locations = nested.merge loc := by
  obtain ⟨⟨parsed, loc, nested⟩, hparse, h⟩ := bind_eq_ok.mp h
  obtain ⟨main', hinit, h⟩ := bind_eq_ok.mp h
  obtain ⟨rfl, rfl⟩ := Prod.mk.inj (Outcome.ok.inj h)
  exact ⟨parsed, loc, nested, hparse, hinit, rfl⟩

/-- The outermost level inherits nothing. -/
theorem inheritedMode_http (hne : http.ownMode ≠ some .unset) (levels : List Block) :
    inheritedMode (http.ownMode.getD .unset) levels = nearestMode (levels ++ [http]) := by
  show _ = inheritedMode .unset (levels ++ [http])
  rw [inheritedMode_append hne]
  unfold inheritedMode
  cases http.ownMode with
  | none => rfl
  | some mode => rfl

/-- **The mode of a location** is that of the nearest level to state one. -/
theorem find_of_load (h : loadHttp C fs http = ok (main, locations)) {path : List Nat}
    (hpath : path ≠ []) :
    locations.find path = (http.levels path).map fun levels => ⟨nearestMode levels⟩ := by
  obtain ⟨parsed, loc, nested, hparse, _, rfl⟩ := loadHttp_eq_ok h
  obtain ⟨rfl, hne⟩ := parse_default_mode hparse
  cases path with
  | nil => exact absurd rfl hpath
  | cons n path =>
      rw [find_merge hparse, Block.levels]
      cases http.nth n with
      | none => rfl
      | some inner =>
          show (inner.levels path).map _ = ((inner.levels path).map (· ++ [http])).map _
          rw [Option.map_map]
          refine congrArg (Option.map · (inner.levels path)) (funext fun levels => ?_)
          exact congrArg LocConf.mk (inheritedMode_http hne levels)

theorem find_nil (locations : Locations) : locations.find [] = none := by
  cases locations <;> rfl

/-- The mode of a level is found where it is stated. -/
theorem exists_level_of_verifies {levels : List Block} (h : (nearestMode levels).verifies = true) :
    ∃ inner ∈ levels, inner.ownMode = some (nearestMode levels) := by
  unfold nearestMode at h ⊢
  cases hfind : levels.findSome? Block.ownMode with
  | none => rw [hfind] at h; exact absurd h (by decide)
  | some mode => exact List.exists_of_findSome?_eq_some hfind

/-- **A location that verifies has a verifier**, built from the credentials of the file. -/
theorem compiled_of_load (h : loadHttp C fs http = ok (main, locations)) {path : List Nat}
    {loc : LocConf} (hfind : locations.find path = some loc) (hverifies : loc.mode.verifies = true) :
    ∃ credentials v, CompiledFrom C fs http main credentials v := by
  have hpath : path ≠ [] := by
    rintro rfl
    rw [find_nil] at hfind
    exact absurd hfind (by simp)
  rw [find_of_load h hpath, Option.map_eq_some_iff] at hfind
  obtain ⟨levels, hlevels, rfl⟩ := hfind
  obtain ⟨inner, hmem, hmode⟩ := exists_level_of_verifies hverifies
  obtain ⟨parsed, _, _, hparse, hinit, _⟩ := loadHttp_eq_ok h
  have henabled := enabledAnywhere_of_level hparse hlevels hmem hmode hverifies
  rcases initMainConf_eq_ok hinit with ⟨hdisabled, _⟩ | ⟨credentials, v, hresolves, hnew, rfl⟩
  · rw [henabled] at hdisabled
    exact absurd hdisabled (by simp)
  · obtain ⟨directives, hdirectives, hreads⟩ := parse_credentials hparse
    have hdistinct := parse_distinct hparse List.nodup_nil
    rw [show MainConf.default.credentials = [] from rfl, List.nil_append] at hdirectives
    exact ⟨credentials, v, hdirectives ▸ hreads, hdistinct, hresolves, hnew, rfl⟩

/-! ## Serving requests -/

/-- The configurations a worker has while it serves requests: what it was loaded with, and
what each request leaves behind. -/
inductive Serving (C : Crypto) (loaded : MainConf) : MainConf → Prop where
  | loaded : Serving C loaded loaded
  | handled {main main' : MainConf} {loc : Option LocConf} {request : HttpRequest}
      {env : Surroundings} : Serving C loaded main →
      (sigv4VerifyAccessHandler C loc (some main) request env).main = some main' →
      Serving C loaded main'

section Serving

variable {settings : Settings} {credentials : List Credential}

/-- The verifier runs. -/
def HasVerifier (C : Crypto) (settings : Settings) (credentials : List Credential)
    (main : MainConf) : Prop :=
  ∃ v, main.verifier = some v ∧ Running C settings credentials v

/-- One request leaves a running verifier. -/
theorem hasVerifier_step {loc : Option LocConf} {request : HttpRequest} {env : Surroundings}
    (h : HasVerifier C settings credentials main)
    (hmain : (sigv4VerifyAccessHandler C loc (some main) request env).main = some main') :
    HasVerifier C settings credentials main' := by
  obtain ⟨v, hv, hrunning⟩ := h
  have hsame : some main = some main' → HasVerifier C settings credentials main' := by
    intro heq
    rw [← Option.some.inj heq]
    exact ⟨v, hv, hrunning⟩
  cases loc with
  | none => exact hsame hmain
  | some loc =>
      obtain ⟨mode⟩ := loc
      cases hallocates : env.allocates with
      | false =>
          unfold sigv4VerifyAccessHandler handleRequest at hmain
          rw [hallocates] at hmain
          exact hsame hmain
      | true =>
          cases hmode : mode.verifies with
          | false =>
              unfold sigv4VerifyAccessHandler handleRequest at hmain
              dsimp only at hmain
              rw [hallocates, hmode] at hmain
              exact hsame hmain
          | true =>
              obtain ⟨_, v', _, hrunning', handled, hhandled, _, _, hmain'⟩ :=
                handleRequest_eq mode request hmode hallocates hv hrunning
              unfold sigv4VerifyAccessHandler at hmain
              rw [hhandled] at hmain
              rw [← Option.some.inj (hmain'.symm.trans hmain)]
              exact ⟨v', rfl, hrunning'⟩

/-- **The verifier runs as long as the worker does.** -/
theorem hasVerifier_serving {loaded : MainConf}
    (h : HasVerifier C settings credentials loaded) (hserving : Serving C loaded main) :
    HasVerifier C settings credentials main := by
  induction hserving with
  | loaded => exact h
  | handled _ hmain ih => exact hasVerifier_step ih hmain

/-- What the handler answers where the mode is `on`. -/
structure Enforces (C : Crypto) (settings : Settings) (credentials : List Credential)
    (main : MainConf) (request : HttpRequest) (env : Surroundings) (handled : Handled) : Prop where
  configured : ∀ ctx, handled.ctx = some ctx → ctx.reason ≠ some .notConfigured
  not_declined : handled.status ≠ .declined
  allowed : handled.status = .ok → ∃ v result v', main.verifier = some v
    ∧ Running C settings credentials v
    ∧ v.verify C (textOrEmpty request.methodName) request.unparsedUri
        (textOrEmpty (request.host.getD [])) env.now = ok (result, v')
    ∧ result.allowed = true

/-- **With a verifier the mode `on` enforces.** -/
theorem enforces_of_hasVerifier (h : HasVerifier C settings credentials main)
    (request : HttpRequest) (env : Surroundings) :
    ∃ handled, handleRequest C (some ⟨.on⟩) (some main) request env = ok handled
      ∧ Enforces C settings credentials main request env handled := by
  obtain ⟨v, hv, hrunning⟩ := h
  cases hallocates : env.allocates with
  | false =>
      unfold handleRequest
      rw [hallocates]
      refine ⟨_, rfl, fun ctx hctx => ?_, ?_, fun hok => ?_⟩
      · exact absurd hctx (by simp)
      · simp [Status.internalServerError]
      · exact absurd hok (by simp [Status.internalServerError])
  | true =>
      obtain ⟨result, v', hverify, _, handled, hhandled, hstatus, ⟨ctx, hctx, hreason⟩, _⟩ :=
        handleRequest_eq .on request rfl hallocates hv hrunning
      refine ⟨handled, hhandled, fun ctx' hctx' => ?_, ?_, fun hok => ?_⟩
      · rw [hctx] at hctx'
        rw [← Option.some.inj hctx', hreason]
        simp
      · rw [hstatus]
        cases result.allowed <;> simp [statusOf, Status.forbidden]
      · refine ⟨v, result, v', hv, hrunning, hverify, ?_⟩
        cases hallowed : result.allowed with
        | true => rfl
        | false =>
            rw [hstatus, hallowed] at hok
            exact absurd hok (by simp [statusOf, Status.forbidden])

end Serving

/--
**What is loaded is enforced.** The mode of each location is that of the nearest level to
state one, and off if none does; where it verifies there is a verifier, built from exactly
the credentials of the file; and where it is `on`, no request that a worker serves passes
without the leave of that verifier.
-/
theorem load_enforces (h : loadHttp C fs http = ok (main, locations)) :
    (∀ path, path ≠ [] →
        locations.find path = (http.levels path).map fun levels => ⟨nearestMode levels⟩)
      ∧ ∀ path loc, locations.find path = some loc → loc.mode.verifies = true →
        ∃ credentials v, CompiledFrom C fs http main credentials v
          ∧ (loc.mode = .on → ∀ main', Serving C main main' → ∀ request env,
            ∃ handled, handleRequest C (some loc) (some main') request env = ok handled
              ∧ Enforces C main.settings credentials main' request env handled) := by
  refine ⟨fun path hpath => find_of_load h hpath, ?_⟩
  intro path loc hfind hverifies
  obtain ⟨credentials, v, hcompiled⟩ := compiled_of_load h hfind hverifies
  refine ⟨credentials, v, hcompiled, ?_⟩
  intro hon main' hserving request env
  obtain ⟨mode⟩ := loc
  obtain rfl : mode = .on := hon
  have hloaded : HasVerifier C main.settings credentials main :=
    ⟨v, hcompiled.installed, .fresh hcompiled.compiles⟩
  exact enforces_of_hasVerifier (hasVerifier_serving hloaded hserving) request env

/-! ## A configuration

The credential stands after the server that needs it. The server verifies, its second
location does not, and one inside that does again.
-/

def sampleHttp : Block :=
  .block
    (.block .done
      (.directive .verify [bytes "on"]
        (.block
          (.directive .verify [bytes "off"] (.block (.directive .verify [bytes "on"] .done) .done))
          .done)))
    (.directive .credential
      [bytes "AKIATEST", bytes "secret_key=test-secret", bytes "allow_any_host",
        bytes "allowed_method=GET", bytes "allowed_prefix=/bucket/"] .done)

theorem load_enforces_sample :
    ∃ main locations, loadHttp sampleCrypto noFiles sampleHttp = ok (main, locations)
      ∧ [[0], [0, 0], [0, 1], [0, 1, 0]].map locations.find
          = [some ⟨.on⟩, some ⟨.on⟩, some ⟨.off⟩, some ⟨.on⟩]
      ∧ ∃ credentials v, CompiledFrom sampleCrypto noFiles sampleHttp main credentials v
        ∧ ∃ handled, handleRequest sampleCrypto (some ⟨.on⟩) (some main) unsignedRequest
            sampleSurroundings = ok handled
          ∧ Enforces sampleCrypto main.settings credentials main unsignedRequest
            sampleSurroundings handled := by
  have hok : (loadHttp sampleCrypto noFiles sampleHttp).isOk = true := by rfl
  obtain ⟨⟨main, locations⟩, hload⟩ := isOk_iff.mp hok
  obtain ⟨hmodes, hverifier⟩ := load_enforces hload
  have hfind : [[0], [0, 0], [0, 1], [0, 1, 0]].map locations.find
      = [some ⟨.on⟩, some ⟨.on⟩, some ⟨.off⟩, some ⟨.on⟩] := by
    simp only [List.map_cons, List.map_nil]
    rw [hmodes [0] (by simp), hmodes [0, 0] (by simp), hmodes [0, 1] (by simp),
      hmodes [0, 1, 0] (by simp)]
    rfl
  have h0 : locations.find [0] = some ⟨.on⟩ := (List.cons.inj hfind).1
  obtain ⟨credentials, v, hcompiled, hserves⟩ := hverifier [0] ⟨.on⟩ h0 rfl
  obtain ⟨handled, hhandled, henforces⟩ :=
    hserves rfl main .loaded unsignedRequest sampleSurroundings
  exact ⟨main, locations, hload, hfind, credentials, v, hcompiled, handled, hhandled, henforces⟩

end SigV4
