import SigV4.Property.Configuration
import SigV4.Property.Rehearsal
import SigV4.Property.Verdict

/-!
# The order of the directives

NGINX calls the handlers in file order, and the order of the credentials is that in which
`Verifier::new` installs them. Neither is seen from outside: directives may change places with one
another and with the blocks among which they stand, and a worker that loads the one file answers
every sequence of requests as a worker that loads the other.
-/

namespace SigV4

open Outcome Spec Slots CredentialDirective

variable {C : Crypto} {fs : FileSystem} {b b' http http' : Block} {main main' : MainConf}

/-- One block holds the directives of the other, and the same blocks in the same order. -/
inductive Reordered : Block → Block → Prop where
  | done : Reordered .done .done
  | directive {command : Command} {args : List Bytes} {rest rest' : Block} : Reordered rest rest' →
      Reordered (.directive command args rest) (.directive command args rest')
  | block {inner inner' rest rest' : Block} : Reordered inner inner' → Reordered rest rest' →
      Reordered (.block inner rest) (.block inner' rest')
  | swap (c c' : Command) (args args' : List Bytes) (rest : Block) :
      Reordered (.directive c args (.directive c' args' rest))
        (.directive c' args' (.directive c args rest))
  | past (command : Command) (args : List Bytes) (inner rest : Block) :
      Reordered (.directive command args (.block inner rest))
        (.block inner (.directive command args rest))
  | symm {b b' : Block} : Reordered b b' → Reordered b' b
  | trans {b b' b'' : Block} : Reordered b b' → Reordered b' b'' → Reordered b b''

/-! ## What the order leaves alone -/

theorem Block.own_directive (c command : Command) (args : List Bytes) (rest : Block) :
    (Block.directive c args rest).own command
      = (if c = command then [args] else []) ++ rest.own command := by
  by_cases h : c = command
  · rw [if_pos h, h, Block.own_directive_self]
    rfl
  · rw [if_neg h, Block.own_directive_of_ne h]
    rfl

theorem Block.all_directive (c command : Command) (args : List Bytes) (rest : Block) :
    (Block.directive c args rest).all command
      = (if c = command then [args] else []) ++ rest.all command := by
  by_cases h : c = command
  · rw [if_pos h, h, Block.all_directive_self]
    rfl
  · rw [if_neg h, Block.all_directive_of_ne h]
    rfl

theorem Reordered.own_perm (h : Reordered b b') (command : Command) :
    (b.own command).Perm (b'.own command) := by
  induction h with
  | done => exact .nil
  | directive _ ih =>
      rw [Block.own_directive, Block.own_directive]
      exact ih.append_left _
  | block _ _ _ ihrest => exact ihrest
  | swap c c' args args' rest =>
      simp only [Block.own_directive]
      exact List.perm_append_comm_assoc _ _ _
  | past c args inner rest =>
      rw [Block.own_directive]
      exact .of_eq (Block.own_directive c command args rest).symm
  | symm _ ih => exact ih.symm
  | trans _ _ ih ih' => exact ih.trans ih'

theorem Reordered.all_perm (h : Reordered b b') (command : Command) :
    (b.all command).Perm (b'.all command) := by
  induction h with
  | done => exact .nil
  | directive _ ih =>
      rw [Block.all_directive, Block.all_directive]
      exact ih.append_left _
  | block _ _ ihinner ihrest => exact ihinner.append ihrest
  | swap c c' args args' rest =>
      simp only [Block.all_directive]
      exact List.perm_append_comm_assoc _ _ _
  | past c args inner rest =>
      have hpast := List.perm_append_comm_assoc (if c = command then [args] else [])
        (inner.all command) (rest.all command)
      rw [← Block.all_directive] at hpast
      rw [Block.all_directive]
      exact hpast
  | symm _ ih => exact ih.symm
  | trans _ _ ih ih' => exact ih.trans ih'

/-- A nested block may hold nothing but one mode. -/
def Block.Nestable (b : Block) : Prop :=
  (∀ command, command ≠ .verify → b.own command = [])
    ∧ ∃ mode, Fills StatesMode none (b.own .verify) mode

theorem Reordered.nestable (h : Reordered b b') : b.Nestable ↔ b'.Nestable := by
  have hown : ∀ command, b.own command = [] ↔ b'.own command = [] := fun command => by
    rw [← List.length_eq_zero_iff, ← List.length_eq_zero_iff, (h.own_perm command).length_eq]
  unfold Block.Nestable
  simp only [hown, fills_perm (h.own_perm .verify)]

theorem Reordered.blocks_nestable (h : Reordered b b') :
    (∀ inner ∈ b.blocks, inner.Nestable) ↔ ∀ inner ∈ b'.blocks, inner.Nestable := by
  induction h with
  | done => exact Iff.rfl
  | directive _ ih => exact ih
  | block hinner _ ihinner ihrest =>
      simp only [Block.blocks, List.forall_mem_cons, List.forall_mem_append, hinner.nestable, ihinner,
        ihrest]
  | swap => exact Iff.rfl
  | past => exact Iff.rfl
  | symm _ ih => exact ih.symm
  | trans _ _ ih ih' => exact ih.trans ih'

/-- The mode of a block that states one at most. -/
theorem Block.ownMode_eq (b : Block) :
    b.ownMode = (b.own .verify).head?.bind fun args => args.head?.bind modeOfText := by
  induction b with
  | done => rfl
  | directive command args rest ih =>
      cases command with
      | verify => rfl
      | _ => exact ih
  | block _ _ _ ihrest => exact ihrest

theorem Reordered.ownMode (h : Reordered b b')
    (hmode : ∃ mode, Fills StatesMode none (b.own .verify) mode) : b.ownMode = b'.ownMode := by
  have hperm := h.own_perm .verify
  obtain ⟨mode, hmode⟩ := hmode
  rw [Block.ownMode_eq, Block.ownMode_eq]
  match hown : b.own .verify with
  | [] =>
      rw [hown] at hperm
      rw [List.nil_perm.mp hperm]
  | [args] =>
      rw [hown] at hperm
      rw [List.singleton_perm.mp hperm]
  | _ :: _ :: _ =>
      rw [hown] at hmode
      exact absurd hmode id

theorem Reordered.locations (h : Reordered b b') (hblocks : ∀ inner ∈ b.blocks, inner.Nestable) :
    b.locations = b'.locations := by
  induction h with
  | done => rfl
  | directive _ ih => exact ih hblocks
  | block hinner _ ihinner ihrest =>
      obtain ⟨hown, hblocks⟩ := List.forall_mem_cons.mp hblocks
      rw [List.forall_mem_append] at hblocks
      simp only [Block.locations]
      rw [hinner.ownMode hown.2, ihinner hblocks.1, ihrest hblocks.2]
  | swap => rfl
  | past => rfl
  | symm h ih => exact (ih (h.blocks_nestable.mpr hblocks)).symm
  | trans h _ ih ih' => exact (ih hblocks).trans (ih' (h.blocks_nestable.mp hblocks))

/-! ## The configuration -/

/-- The same settings, and the same credentials in some order. -/
structure Alike (main main' : MainConf) : Prop where
  slots : ∀ command, main.slot command = main'.slot command
  credentials : main.credentials.Perm main'.credentials
  enabledAnywhere : main.enabledAnywhere = main'.enabledAnywhere

/-- **A block configures the same** in another order. -/
theorem Reordered.configures (h : Reordered http http') (hc : Configures http main) :
    ∃ main', Configures http' main' ∧ Alike main main' := by
  have hnested : ∀ inner ∈ http.blocks, inner.Nestable := fun inner hinner =>
    ⟨hc.placed inner hinner, hc.modes inner (List.mem_cons_of_mem _ hinner)⟩
  have hnested' := h.blocks_nestable.mp hnested
  obtain ⟨ds, hstates, hperm⟩ := List.perm_comp_forall₂ (h.all_perm .credential).symm hc.credentials
  have hmode : ∃ mode, Fills StatesMode none (http'.own .verify) mode := by
    obtain ⟨mode, hmode⟩ := hc.modes http List.mem_cons_self
    exact ⟨mode, (fills_perm (h.own_perm .verify)).mp hmode⟩
  refine ⟨{ main with credentials := ds }, ⟨fun b hb => (hnested' b hb).1, ?_, fun c hset => ?_,
    hstates, ?_, ?_, hc.verifier⟩, fun c => by cases c <;> rfl, hperm.symm, rfl⟩
  · exact List.forall_mem_cons.mpr ⟨hmode, fun b hb => (hnested' b hb).2⟩
  · have hslot : ({ main with credentials := ds } : MainConf).slot c = main.slot c := by
      cases c <;> rfl
    rw [hslot, ← fills_perm (h.all_perm c)]
    exact hc.slots c hset
  · exact ((hperm.map (·.accessKey)).nodup_iff).mpr hc.distinct
  · refine hc.enabledAnywhere.trans (exists_congr fun args => and_congr_left fun _ => ?_)
    exact (h.all_perm .verify).mem_iff

theorem Alike.usable (h : Alike main main') : Usable fs main → Usable fs main' := by
  have hexpires : main.defaultMaxExpires = main'.defaultMaxExpires :=
    Option.map_injective (fun _ _ => Value.duration.inj) (h.slots .defaultMaxExpires)
  unfold Usable
  rw [h.enabledAnywhere, hexpires]
  rintro (⟨hnil, hdisabled⟩ | ⟨hne, hweek, hready⟩)
  · have hperm := h.credentials
    rw [hnil] at hperm
    exact Or.inl ⟨List.nil_perm.mp hperm, hdisabled⟩
  · refine Or.inr ⟨fun hnil => hne ?_, hweek, fun d hd => hready d (h.credentials.mem_iff.mpr hd)⟩
    have hperm := h.credentials
    rw [hnil] at hperm
    exact List.perm_nil.mp hperm

theorem Alike.settings (h : Alike main main') : main.settings = main'.settings := by
  have hclock : main.clockSkew = main'.clockSkew :=
    Option.map_injective (fun _ _ => Value.duration.inj) (h.slots .clockSkew)
  have hexpires : main.defaultMaxExpires = main'.defaultMaxExpires :=
    Option.map_injective (fun _ _ => Value.duration.inj) (h.slots .defaultMaxExpires)
  have hmethods := MainConf.supportedMethods_of_slot (h.slots .methods)
  unfold MainConf.settings
  rw [hclock, hexpires, hmethods]

/-- What the workers have in common, and keep. -/
structure WorksAlike (C : Crypto) (settings : Settings) (cs cs' : List Credential)
    (main main' : MainConf) : Prop where
  logDenies : main.logDenies = main'.logDenies
  logAll : main.logAll = main'.logAll
  verifier : (main.verifier = none ∧ main'.verifier = none)
    ∨ (HasVerifier C settings cs main ∧ HasVerifier C settings cs' main')

/-- **What is loaded works alike**: the verifiers hold the same credentials. -/
theorem Alike.loaded {main₁ main₁' : MainConf} (h : Alike main main')
    (hnone : main.verifier = none) (hnone' : main'.verifier = none)
    (hload : Loaded C fs main main₁) (hload' : Loaded C fs main' main₁') :
    ∃ cs cs', cs.Perm cs' ∧ WorksAlike C main.settings cs cs' main₁ main₁' := by
  have hdenies : main.logDenies = main'.logDenies :=
    Option.map_injective (fun _ _ => Value.flag.inj) (h.slots .logDenies)
  have hall : main.logAll = main'.logAll :=
    Option.map_injective (fun _ _ => Value.flag.inj) (h.slots .logAll)
  cases hload with
  | bare hnil _ =>
      cases hload' with
      | bare _ _ => exact ⟨[], [], .nil, hdenies, hall, Or.inl ⟨hnone, hnone'⟩⟩
      | compiled hne _ _ _ =>
          have hperm := h.credentials
          rw [hnil] at hperm
          exact absurd (List.nil_perm.mp hperm) hne
  | @compiled cs v hne _ hcs hv =>
      cases hload' with
      | bare hnil _ =>
          have hperm := h.credentials
          rw [hnil] at hperm
          exact absurd (List.perm_nil.mp hperm) hne
      | @compiled cs' v' _ _ hcs' hv' =>
          obtain ⟨cs'', hcs'', hperm⟩ := List.perm_comp_forall₂ h.credentials.symm hcs
          -- a directive is resolved in one way
          have heq : cs'' = cs' := by
            have hfold := foldlM_resolveNext_iff.mpr hcs''
            rw [foldlM_resolveNext_iff.mpr hcs'] at hfold
            exact (Outcome.ok.inj hfold).symm
          rw [← h.settings] at hv'
          exact ⟨cs, cs', heq ▸ hperm.symm, hdenies, hall,
            Or.inr ⟨⟨v, rfl, .fresh hv⟩, ⟨v', rfl, .fresh hv'⟩⟩⟩

/-! ## The workers -/

/-- What a request is answered and what is told of it. -/
structure AnswersAlike (h h' : Handled) : Prop where
  status : h.status = h'.status
  ctx : h.ctx = h'.ctx
  log : h.log = h'.log

section Serving

variable {settings : Settings} {cs cs' : List Credential} {s : Served}

/-- Where the handler does not come to the verifier. -/
def Served.passesBy (s : Served) : Bool := !s.env.allocates || !s.mode.verifies

theorem serve_of_passesBy (h : s.passesBy = true) (main : MainConf) :
    serve C main s = ok (if s.env.allocates then
        ⟨.declined, some { RequestCtx.default with result := some .off }, none, some main⟩
      else ⟨.internalServerError, none, none, some main⟩, main) := by
  unfold Served.passesBy at h
  unfold serve sigv4VerifyAccessHandler handleRequest
  dsimp only
  cases hallocates : s.env.allocates with
  | false => rfl
  | true =>
      rw [hallocates, Bool.not_true, Bool.false_or] at h
      rw [h]
      rfl

/-- There the answer depends on no configuration and on no request. -/
theorem serve_alike_of_passesBy (h : s.passesBy = true) (main main' : MainConf)
    (request' : HttpRequest) : ∃ handled handled', serve C main s = ok (handled, main)
      ∧ serve C main' { s with request := request' } = ok (handled', main')
      ∧ AnswersAlike handled handled' := by
  refine ⟨_, _, serve_of_passesBy h main,
    serve_of_passesBy (s := { s with request := request' }) h main', ?_⟩
  cases hallocates : s.env.allocates <;> exact ⟨rfl, rfl, rfl⟩

theorem serve_of_not_configured (h : s.passesBy = false) (hnone : main.verifier = none) :
    serve C main s = ok (notConfigured (some main), main) := by
  obtain ⟨hallocates, hmode⟩ := Bool.or_eq_false_iff.mp h
  unfold serve sigv4VerifyAccessHandler handleRequest
  dsimp only
  rw [hallocates, hmode, hnone]
  rfl

/-- **One request** is answered alike. -/
theorem serve_alike (hperm : cs.Perm cs') (h : WorksAlike C settings cs cs' main main')
    (s : Served) :
    ∃ handled main₁ handled' main₁', serve C main s = ok (handled, main₁)
      ∧ serve C main' s = ok (handled', main₁') ∧ AnswersAlike handled handled'
      ∧ WorksAlike C settings cs cs' main₁ main₁' := by
  cases hpasses : s.passesBy with
  | true =>
      obtain ⟨handled, handled', hserve, hserve', halike⟩ :=
        serve_alike_of_passesBy hpasses main main' s.request
      exact ⟨handled, main, handled', main', hserve, hserve', halike, h⟩
  | false =>
      rcases h.verifier with ⟨hnone, hnone'⟩ | ⟨hv, hv'⟩
      · exact ⟨_, main, _, main', serve_of_not_configured hpasses hnone,
          serve_of_not_configured hpasses hnone', ⟨rfl, rfl, rfl⟩, h⟩
      · obtain ⟨hallocates, hmode⟩ := Bool.or_eq_false_iff.mp hpasses
        rw [Bool.not_eq_false'] at hallocates hmode
        obtain ⟨result, v, hverdict, hkeeps, hserves⟩ := serve_verifies hv hallocates
        obtain ⟨result', v', hverdict', hkeeps', hserves'⟩ := serve_verifies hv' hallocates
        -- both hold the credential that the request names, or neither does
        have hagree : AgreeOn s.reading cs cs' := fun c _ => hperm.mem_iff
        have hresult : result = result' := (verdict_congr (fun c =>
          ⟨hagree.passes c, hagree.symm.passes c⟩) hverdict).unique hverdict'
        subst hresult
        refine ⟨_, _, _, _, hserves s.mode hmode, hserves' s.mode hmode, ⟨rfl, rfl, ?_⟩,
          h.logDenies, h.logAll, Or.inr ⟨hkeeps, hkeeps'⟩⟩
        unfold Served.handled logLine MainConf.logsAll MainConf.logsDenies
        rw [h.logDenies, h.logAll]

end Serving

/--
**The order of the directives does not matter.** Two `http` blocks that hold the same directives in
the same blocks, in whichever order, load or are refused together; where they load, their locations
have the same modes, and two workers that serve the same requests give the same statuses, the same
variables and the same log lines.
-/
theorem http_reordered (h : Reordered http http') :
    ((∃ r, loadHttp C fs http = ok r) ↔ ∃ r, loadHttp C fs http' = ok r)
      ∧ ∀ main locations main' locations', loadHttp C fs http = ok (main, locations) →
        loadHttp C fs http' = ok (main', locations') →
        locations = locations' ∧ ∀ served, ∃ hs main₁ hs' main₁',
          runs (serve C) main served = ok (hs, main₁)
            ∧ runs (serve C) main' served = ok (hs', main₁')
            ∧ List.Forall₂ AnswersAlike hs hs' := by
  have hload : ∀ {http http' : Block}, Reordered http http' →
      (∃ r, loadHttp C fs http = ok r) → ∃ r, loadHttp C fs http' = ok r := by
    intro http http' h hloads
    obtain ⟨parsed, hconfigures, husable⟩ := loads_iff.mp hloads
    obtain ⟨parsed', hconfigures', halike⟩ := h.configures hconfigures
    exact loads_iff.mpr ⟨parsed', hconfigures', halike.usable husable⟩
  refine ⟨⟨hload h, hload h.symm⟩, fun main locations main' locations' hl hl' => ?_⟩
  obtain ⟨parsed, hconfigures, hloaded, rfl⟩ := loadHttp_iff.mp hl
  obtain ⟨parsed', hconfigures', hloaded', rfl⟩ := loadHttp_iff.mp hl'
  obtain ⟨parsed'', hconfigures'', halike⟩ := h.configures hconfigures
  obtain rfl := hconfigures'.unique hconfigures''
  refine ⟨?_, fun served => ?_⟩
  · have hmode := hconfigures.modes http List.mem_cons_self
    have hnested : ∀ inner ∈ http.blocks, inner.Nestable := fun inner hinner =>
      ⟨hconfigures.placed inner hinner, hconfigures.modes inner (List.mem_cons_of_mem _ hinner)⟩
    rw [h.ownMode hmode, h.locations hnested]
  · obtain ⟨cs, cs', hperm, hworks⟩ :=
      halike.loaded hconfigures.verifier hconfigures'.verifier hloaded hloaded'
    have hstep : ∀ m m' s, WorksAlike C parsed.settings cs cs' m m' →
        ∃ o m₁ p m₁', serve C m (id s) = ok (o, m₁) ∧ serve C m' (id s) = ok (p, m₁')
          ∧ AnswersAlike o p ∧ WorksAlike C parsed.settings cs cs' m₁ m₁' :=
      fun m m' s hm => serve_alike hperm hm s
    obtain ⟨hs, main₁, hs', main₁', hruns, hruns', halong, _⟩ :=
      runs_along (f := id) (g := id) (Q := fun _ => AnswersAlike) hstep served main main' hworks
    rw [List.map_id] at hruns hruns'
    exact ⟨hs, main₁, hs', main₁', hruns, hruns', halong.outputs⟩

/-- The sample, with the credential before the server. -/
theorem http_reordered_sample :
    ∃ http main locations main', Reordered sampleHttp http
      ∧ loadHttp sampleCrypto noFiles sampleHttp = ok (main, locations)
      ∧ loadHttp sampleCrypto noFiles http = ok (main', locations)
      ∧ ∃ hs main₁ hs' main₁',
        runs (serve sampleCrypto) main [⟨.on, unsignedRequest, sampleSurroundings⟩] = ok (hs, main₁)
          ∧ runs (serve sampleCrypto) main' [⟨.on, unsignedRequest, sampleSurroundings⟩]
            = ok (hs', main₁')
          ∧ List.Forall₂ AnswersAlike hs hs' := by
  have hok : (loadHttp sampleCrypto noFiles sampleHttp).isOk = true := by rfl
  have hreordered := (Reordered.past .credential
    [bytes "AKIATEST", bytes "secret_key=test-secret", bytes "allow_any_host",
      bytes "allowed_method=GET", bytes "allowed_prefix=/bucket/"]
    (.block .done
      (.directive .verify [bytes "on"]
        (.block
          (.directive .verify [bytes "off"] (.block (.directive .verify [bytes "on"] .done) .done))
          .done))) .done).symm
  obtain ⟨hloads, hsame⟩ := http_reordered (C := sampleCrypto) hreordered
  obtain ⟨⟨main, locations⟩, hload⟩ := isOk_iff.mp hok
  obtain ⟨⟨main', locations'⟩, hload'⟩ := hloads.mp ⟨_, hload⟩
  obtain ⟨rfl, hserves⟩ := hsame main locations main' locations' hload hload'
  exact ⟨_, main, locations, main', hreordered, hload, hload', hserves _⟩

end SigV4
