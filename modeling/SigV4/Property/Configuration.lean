import SigV4.Lib.Trim
import SigV4.Proof.Configuration
import SigV4.Proof.Rules
import SigV4.Property.Enforcement

/-!
# Which configurations load

NGINX calls one handler after the other, and each refuses what it can see of the whole: a second
value of a setting, a second credential of one access key. What they let through together is what
`Configures` reads off the block; what `init_main_conf` and `Verifier::new` let through of that is
`Usable`. So whether a configuration loads is told without running a handler, and without the
cryptography.
-/

namespace SigV4

open Outcome Spec Slots CredentialDirective

variable {C : Crypto} {fs : FileSystem} {http : Block} {main main' : MainConf}
  {d : CredentialDirective}

/-! ## The block -/

/-- What `http` configures is what it adds to an empty configuration. -/
theorem configures_iff_adds : Configures http main
      ↔ ∃ loc, http.Adds .http .default .default main loc := by
  have hfresh : ∀ command, MainConf.default.slot command = none := by
    intro command
    cases command <;> rfl
  refine ⟨fun h => ?_, ?_⟩
  · obtain ⟨⟨mode, hmode⟩, hmodes⟩ := List.forall_mem_cons.mp h.modes
    refine ⟨⟨mode.getD .unset⟩, fun hlevel => Level.noConfusion hlevel,
      fun inner hinner => ⟨h.placed inner hinner, hmodes inner hinner⟩, ?_, fun c hc => ?_,
      ⟨main.credentials, rfl, h.credentials⟩, h.distinct, ?_, h.verifier⟩
    · rw [Block.stated_getD hmode]
      exact hmode
    · rw [hfresh]
      exact h.slots c hc
    · exact h.enabledAnywhere.trans (or_iff_right Bool.false_ne_true).symm
  · rintro ⟨loc, h⟩
    obtain ⟨ds, hds, hstates⟩ := h.credentials
    refine ⟨fun b hb => (h.nested b hb).1, ?_, fun c hc => ?_, ?_, h.distinct, ?_, h.verifier⟩
    · exact List.forall_mem_cons.mpr ⟨⟨_, h.mode⟩, fun b hb => (h.nested b hb).2⟩
    · rw [← hfresh c]
      exact h.slots c hc
    · rw [hds]
      exact hstates
    · exact h.enabledAnywhere.trans (or_iff_right Bool.false_ne_true)

theorem default_distinct : (MainConf.default.credentials.map (·.accessKey)).Nodup := List.nodup_nil

/-- **What `http` is read as** is what it configures. -/
theorem parse_http_iff {loc : LocConf} {locations : Locations} :
    http.parse .http .default .default = ok (main, loc, locations) ↔ Configures http main
      ∧ loc = ⟨http.ownMode.getD .unset⟩ ∧ locations = http.locations := by
  refine ⟨fun h => ?_, ?_⟩
  · obtain ⟨hadds, hlocations⟩ := (Block.parse_adds default_distinct).mp h
    exact ⟨configures_iff_adds.mpr ⟨loc, hadds⟩, (parse_default_mode h).1, hlocations⟩
  · rintro ⟨hconfigures, rfl, rfl⟩
    obtain ⟨loc, hadds⟩ := configures_iff_adds.mp hconfigures
    have hparse := (Block.parse_adds default_distinct).mpr ⟨hadds, rfl⟩
    rw [hparse, (parse_default_mode hparse).1]

/-- **A block configures one thing.** -/
theorem Spec.Configures.unique (h : Configures http main) (h' : Configures http main') :
    main = main' := by
  have hparse := parse_http_iff.mpr ⟨h, rfl, rfl⟩
  rw [parse_http_iff.mpr ⟨h', rfl, rfl⟩] at hparse
  exact (Prod.mk.inj (Outcome.ok.inj hparse)).1.symm

/-! ## The credentials -/

/-- A directive is ready if its credential keeps the rules of `Verifier::new`. -/
theorem ready_iff {texts : List Str} (hdirects : Directs texts d) :
    Ready fs d ↔ ∃ c, Resolves fs d c ∧ CredentialRules c := by
  obtain ⟨first, as, _, hsaid⟩ := hdirects
  have hprefixes : ∀ p ∈ d.allowedPrefixes, p.bytes ≠ [] := by
    intro p hp
    rw [hsaid.allowedPrefixes, List.mem_filterMap] at hp
    obtain ⟨a, ha, hap⟩ := hp
    have husable := hsaid.usable a ha
    cases a with
    | free _ => cases hap
    | keyed key value =>
        cases key with
        | allowed dim =>
            have hap : (if dim = Dimension.path then some value else none) = some p := hap
            by_cases hdim : dim = Dimension.path
            · rw [if_pos hdim] at hap
              rw [← Option.some.inj hap]
              exact isEmpty_eq_false.mp (isEmpty_of_trim husable)
            · rw [if_neg hdim] at hap
              cases hap
        | _ => cases hap
  refine ⟨fun h => ?_, ?_⟩
  · obtain ⟨source, secret, hsource, hholding, hne⟩ := h.secret
    let c : Credential := {
      accessKey := d.accessKey
      secretKey := secret
      enabled := d.enabled.getD true
      maxExpires := d.maxExpires.getD (.fromSecs 0)
      allowedHosts := d.allowedHosts
      allowedMethods := d.allowedMethods
      allowedPrefixes := d.allowedPrefixes.map Str.bytes }
    refine ⟨c, ⟨⟨source, hsource, hholding, hne⟩, rfl⟩, ?_, hne, ?_, h.allowedHosts,
      h.allowedMethods, fun p hp => Or.inr ?_⟩
    · show d.accessKey.trim.bytes ≠ []
      have hkey := hsaid.accessKey_ne.1
      rw [hsaid.accessKey] at hkey ⊢
      rwa [Str.trim_trim]
    · show nanoseconds (d.maxExpires.getD (.fromSecs 0)) ≤ sevenDays
      cases hm : d.maxExpires with
      | none => exact Nat.zero_le _
      | some m => exact (hsaid.inWeek m hm).2
    · obtain ⟨q, hq, rfl⟩ := List.mem_map.mp hp
      exact h.allowedPrefixes q hq
  · rintro ⟨c, hresolves, hrules⟩
    obtain ⟨source, hsource, hholding, hne⟩ := hresolves.secretKey
    have hrest := hresolves.rest
    refine ⟨⟨source, c.secretKey, hsource, hholding, hne⟩, ?_, ?_, fun p hp => ?_⟩
    · have h := hrules.allowedHosts
      rw [hrest] at h
      exact h
    · have h := hrules.allowedMethods
      rw [hrest] at h
      exact h
    · have h := hrules.allowedPrefixes p.bytes
      rw [hrest] at h
      exact (h (List.mem_map_of_mem hp)).resolve_left (hprefixes p hp)

/-- The loop over the credentials resolves each. -/
theorem foldlM_resolveNext_iff {directives : List CredentialDirective} {cs : List Credential} :
    directives.foldlM (resolveNext fs) [] = ok cs ↔ List.Forall₂ (Resolves fs) directives cs := by
  have hstep : ∀ {acc acc' : List Credential} {d : CredentialDirective},
      resolveNext fs acc d = ok acc' ↔ ∃ c, Resolves fs d c ∧ acc' = acc ++ [c] := by
    intro acc acc' d
    unfold resolveNext
    rw [bind_eq_ok]
    simp only [mapExit_eq_ok, resolve_eq_ok_iff, Outcome.ok.injEq, eq_comm]
  have hrun : ∀ (acc : List Credential), directives.foldlM (resolveNext fs) acc = ok cs
      ↔ ∃ cs', List.Forall₂ (Resolves fs) directives cs' ∧ cs = acc ++ cs' := by
    induction directives with
    | nil =>
        intro acc
        refine ⟨fun h => ⟨[], .nil, ?_⟩, ?_⟩
        · rw [List.append_nil, Outcome.ok.inj h]
        · rintro ⟨_, ⟨⟩, rfl⟩
          rw [List.append_nil]
          rfl
    | cons d directives ih =>
        intro acc
        rw [List.foldlM_cons, bind_eq_ok]
        refine ⟨?_, ?_⟩
        · rintro ⟨acc', hacc, h⟩
          obtain ⟨c, hc, rfl⟩ := hstep.mp hacc
          obtain ⟨cs', hcs, rfl⟩ := (ih _).mp h
          exact ⟨c :: cs', .cons hc hcs, List.append_assoc _ _ _⟩
        · rintro ⟨_, hcs, rfl⟩
          cases hcs with
          | @cons _ c _ cs' hc hcs =>
              exact ⟨_, hstep.mpr ⟨c, hc, rfl⟩, (ih _).mpr ⟨cs', hcs, List.append_cons _ _ _⟩⟩
  refine (hrun []).trans ⟨?_, fun h => ⟨cs, h, rfl⟩⟩
  rintro ⟨_, h, rfl⟩
  exact h

/-! ## The verifier -/

/-- **What `init_main_conf` does**, and when. -/
theorem initMainConf_iff : initMainConf C fs main = ok main'
      ↔ (main.credentials = [] ∧ main.enabledAnywhere = false ∧ main' = main)
        ∨ (main.credentials ≠ [] ∧ (∀ d, main.defaultMaxExpires = some d → InWeek d)
          ∧ ∃ cs v, List.Forall₂ (Resolves fs) main.credentials cs
            ∧ Verifier.new C main.settings cs = ok v
            ∧ main' = { main with verifier := some v }) := by
  unfold initMainConf
  rw [guardConf_eq_ok]
  cases hcredentials : main.credentials with
  | nil =>
      rw [List.isEmpty_nil, if_pos rfl]
      cases henabled : main.enabledAnywhere with
      | true => exact iff_of_false (by simp) (by simp)
      | false =>
          rw [if_neg Bool.false_ne_true, Outcome.ok.injEq]
          refine ⟨fun h => Or.inl ⟨rfl, rfl, h.symm⟩, ?_⟩
          rintro (⟨_, _, h⟩ | ⟨hne, _⟩)
          · exact h.symm
          · exact absurd rfl hne
  | cons d ds =>
      have hexpires : main.defaultMaxExpires.any (fun d => d.isZero || maxSigv4Expires.lt d) = false
          ↔ ∀ d, main.defaultMaxExpires = some d → InWeek d := by
        cases main.defaultMaxExpires with
        | none => exact iff_of_true rfl fun _ h => absurd h (by simp)
        | some m =>
            rw [Option.any_some, Bool.or_eq_false_iff, ← inWeek_iff]
            refine ⟨fun h m' hm => ?_, fun h => h m rfl⟩
            rw [← Option.some.inj hm]
            exact h
      rw [List.isEmpty_cons, if_neg Bool.false_ne_true, bind_eq_ok]
      refine ⟨?_, ?_⟩
      · rintro ⟨_, hcheck, h⟩
        obtain ⟨cs, hcs, h⟩ := bind_eq_ok.mp h
        obtain ⟨v, hv, h⟩ := bind_eq_ok.mp h
        exact Or.inr ⟨List.cons_ne_nil d ds, hexpires.mp (exitIf_eq_ok.mp hcheck), cs, v,
          foldlM_resolveNext_iff.mp hcs, mapExit_eq_ok.mp hv, (Outcome.ok.inj h).symm⟩
      · rintro (⟨h, _⟩ | ⟨_, hweek, cs, v, hcs, hv, rfl⟩)
        · cases h
        · refine ⟨(), exitIf_eq_ok.mpr (hexpires.mpr hweek), ?_⟩
          rw [foldlM_resolveNext_iff.mpr hcs, ok_bind, mapExit_eq_ok.mpr hv, ok_bind]

/-- The access keys are trimmed, and are told apart as they are. -/
theorem keys_of_resolves {args : List (List Bytes)} {ds : List CredentialDirective}
    {cs : List Credential} (hstates : List.Forall₂ StatesCredential args ds)
    (hcs : List.Forall₂ (Resolves fs) ds cs) :
    cs.map (fun c => c.accessKey.trim) = ds.map (·.accessKey) := by
  induction hcs generalizing args with
  | nil => rfl
  | cons hc _ ih =>
      rcases hstates with _ | ⟨⟨_, _, _, _, _, hsaid⟩, hstates⟩
      rw [List.map_cons, List.map_cons, ih hstates, hc.rest, hsaid.accessKey, Str.trim_trim]

theorem service_trim : Settings.default.supportedService.trim = .lit "s3" := by decide

/-- Of the rules of `Verifier::new`, those for single credentials are left to check. -/
theorem rules_iff (h : Configures http main) {cs : List Credential}
    (hcs : List.Forall₂ (Resolves fs) main.credentials cs) :
    Rules main.settings cs ↔ ∀ c ∈ cs, CredentialRules c := by
  refine ⟨Rules.credentials, fun hrules => ⟨Or.inr service_trim, ?_, ?_, hrules⟩⟩
  · have hslot := h.slots .methods rfl
    have hserved : ∀ m : Str, IsMethod m → IsMethod (normalMethod m) := by
      rintro m (rfl | rfl)
      · exact Or.inl (by decide)
      · exact Or.inr (by decide)
    intro m hm
    refine hserved m ?_
    unfold MainConf.settings at hm
    cases hmethods : main.supportedMethods with
    | nil =>
        rw [hmethods] at hm
        have hm : m ∈ [Str.lit "GET", Str.lit "HEAD"] := hm
        simpa [IsMethod] using hm
    | cons m₀ ms =>
        rw [hmethods] at hm
        have hstated : main.slot .methods = some (.methods (m₀ :: ms)) := by
          rw [← hmethods]
          exact if_neg (by simp [hmethods])
        rw [hstated] at hslot
        obtain ⟨_, _, hsets⟩ := hslot.of_some
        cases hsets with
        | methods _ hall => exact hall m hm
  · rw [keys_of_resolves h.credentials hcs]
    exact h.distinct

/-- All directives are ready if they have credentials that keep the rules. -/
theorem forall_ready_iff {args : List (List Bytes)} {ds : List CredentialDirective}
    (hstates : List.Forall₂ StatesCredential args ds) :
    (∀ d ∈ ds, Ready fs d)
      ↔ ∃ cs, List.Forall₂ (Resolves fs) ds cs ∧ ∀ c ∈ cs, CredentialRules c := by
  induction hstates with
  | nil => exact iff_of_true (by simp) ⟨[], .nil, by simp⟩
  | cons hd _ ih =>
      obtain ⟨_, _, hdirects⟩ := hd
      rw [List.forall_mem_cons, ih, ready_iff hdirects]
      refine ⟨?_, ?_⟩
      · rintro ⟨⟨c, hc, hrules⟩, cs, hcs, hall⟩
        exact ⟨c :: cs, .cons hc hcs, List.forall_mem_cons.mpr ⟨hrules, hall⟩⟩
      · rintro ⟨_, hcs, hall⟩
        rcases hcs with _ | ⟨hc, hcs⟩
        rw [List.forall_mem_cons] at hall
        exact ⟨⟨_, hc, hall.1⟩, _, hcs, hall.2⟩

/-- What a configuration that has been read is loaded as. -/
inductive Loaded (C : Crypto) (fs : FileSystem) (parsed : MainConf) : MainConf → Prop where
  | bare : parsed.credentials = [] → parsed.enabledAnywhere = false → Loaded C fs parsed parsed
  | compiled {cs : List Credential} {v : Verifier} : parsed.credentials ≠ [] →
      (∀ d, parsed.defaultMaxExpires = some d → InWeek d) →
      List.Forall₂ (Resolves fs) parsed.credentials cs → Verifier.new C parsed.settings cs = ok v →
      Loaded C fs parsed { parsed with verifier := some v }

theorem loaded_iff : initMainConf C fs main = ok main' ↔ Loaded C fs main main' := by
  rw [initMainConf_iff]
  refine ⟨?_, ?_⟩
  · rintro (⟨hnil, hdisabled, rfl⟩ | ⟨hne, hweek, cs, v, hcs, hv, rfl⟩)
    · exact .bare hnil hdisabled
    · exact .compiled hne hweek hcs hv
  · rintro (⟨hnil, hdisabled⟩ | ⟨hne, hweek, hcs, hv⟩)
    · exact Or.inl ⟨hnil, hdisabled, rfl⟩
    · exact Or.inr ⟨hne, hweek, _, _, hcs, hv, rfl⟩

/-- **What is usable is loaded**, and nothing else. -/
theorem exists_loaded_iff (h : Configures http main) :
    (∃ main', Loaded C fs main main') ↔ Usable fs main := by
  unfold Usable
  rw [forall_ready_iff h.credentials]
  refine ⟨?_, ?_⟩
  · rintro ⟨_, ⟨hnil, hdisabled⟩ | ⟨hne, hweek, hcs, hv⟩⟩
    · exact Or.inl ⟨hnil, hdisabled⟩
    · exact Or.inr ⟨hne, hweek, _, hcs, (rules_iff h hcs).mp (new_isOk_iff.mp ⟨_, hv⟩)⟩
  · rintro (⟨hnil, hdisabled⟩ | ⟨hne, hweek, cs, hcs, hrules⟩)
    · exact ⟨main, .bare hnil hdisabled⟩
    · obtain ⟨v, hv⟩ := new_isOk_iff.mpr ((rules_iff h hcs).mpr hrules)
      exact ⟨_, .compiled hne hweek hcs hv⟩

theorem loadHttp_iff {locations : Locations} :
    loadHttp C fs http = ok (main, locations) ↔ ∃ parsed, Configures http parsed
      ∧ Loaded C fs parsed main ∧ locations = http.locations.merge ⟨http.ownMode.getD .unset⟩ := by
  refine ⟨fun h => ?_, ?_⟩
  · obtain ⟨parsed, loc, nested, hparse, hinit, hlocations⟩ := loadHttp_eq_ok h
    obtain ⟨hconfigures, rfl, rfl⟩ := parse_http_iff.mp hparse
    exact ⟨parsed, hconfigures, loaded_iff.mp hinit, hlocations⟩
  · rintro ⟨parsed, hconfigures, hloaded, rfl⟩
    unfold loadHttp
    rw [parse_http_iff.mpr ⟨hconfigures, rfl, rfl⟩, ok_bind]
    dsimp only
    rw [loaded_iff.mpr hloaded, ok_bind]

theorem loads_iff : (∃ r, loadHttp C fs http = ok r)
      ↔ ∃ parsed, Configures http parsed ∧ Usable fs parsed := by
  refine ⟨?_, ?_⟩
  · rintro ⟨⟨main, locations⟩, h⟩
    obtain ⟨parsed, hconfigures, hloaded, _⟩ := loadHttp_iff.mp h
    exact ⟨parsed, hconfigures, (exists_loaded_iff hconfigures).mp ⟨main, hloaded⟩⟩
  · rintro ⟨parsed, hconfigures, husable⟩
    obtain ⟨main, hloaded⟩ := (exists_loaded_iff hconfigures).mpr husable
    exact ⟨_, loadHttp_iff.mpr ⟨parsed, hconfigures, hloaded, rfl⟩⟩

/--
**Which configurations load.** An `http` block loads exactly if it configures something that is
usable, whatever the cryptography is; it is loaded as what it configures, with the verifier that
its credentials make, and each location has the mode that is inherited down to it.
-/
theorem http_exact (C : Crypto) (fs : FileSystem) (http : Block) :
    ((∃ r, loadHttp C fs http = ok r) ↔ ∃ parsed, Configures http parsed ∧ Usable fs parsed)
      ∧ ∀ main locations, loadHttp C fs http = ok (main, locations) ↔ ∃ parsed,
        Configures http parsed ∧ Loaded C fs parsed main
          ∧ locations = http.locations.merge ⟨http.ownMode.getD .unset⟩ :=
  ⟨loads_iff, fun _ _ => loadHttp_iff⟩

/-- The sample configures something, and it is usable. -/
theorem http_exact_sample : ∃ parsed, Configures sampleHttp parsed ∧ Usable noFiles parsed := by
  have hok : (loadHttp sampleCrypto noFiles sampleHttp).isOk = true := by rfl
  exact (http_exact sampleCrypto noFiles sampleHttp).1.mp (isOk_iff.mp hok)

end SigV4
