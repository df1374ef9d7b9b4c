import SigV4.Property.History
import SigV4.Proof.Rules

/-!
# Every state that is installed is sound

`SoundState` is what `verify` relies on without looking. `compile_state` establishes it from
any configuration it accepts, so it holds of every state in every run of `new` and `reload`;
and it accepts just those that keep the rules, so the others change nothing.
-/

namespace SigV4

open Outcome Ascii Spec

variable {C : Crypto}

/-- A compiled credential, under its key. -/
structure SoundCredential (key : Str) (c : CompiledCredential) : Prop where
  accessKey : c.accessKey = key
  trimmed : key.trim = key
  nonempty : key.bytes ≠ []
  maxExpires_pos : 0 < nanoseconds c.maxExpires
  maxExpires_le : nanoseconds c.maxExpires ≤ sevenDays
  allowedMethods : ∀ m ∈ c.allowedMethods, IsMethod m
  hosts_trimmed : ∀ h ∈ c.allowedHosts, h.trim = h
  hosts_lower : ∀ h ∈ c.allowedHosts, h.toAsciiLowercase = h
  hosts_nonempty : ∀ h ∈ c.allowedHosts, h.bytes ≠ []
  hosts_plain : ∀ h ∈ c.allowedHosts, ∀ b ∈ h.bytes, b ∉ hostSeparators
  prefixes_nonempty : ∀ p ∈ c.allowedPrefixes, p ≠ []
  prefixes_valid : ∀ p ∈ c.allowedPrefixes, validateRawPath p = ok ()
  prefixes_once : c.allowedPrefixes.Nodup
  secretSeed : ∃ secret, secret ≠ [] ∧ c.secretSeed = bytes "AWS4" ++ secret
  signingCache : c.signingCache = ⟨[], false⟩

/-- A state, for the credentials that were supplied. -/
structure SoundState (C : Crypto) (settings : Settings) (credentials : List Credential)
    (st : State) : Prop where
  each : ∀ key c, st.credentials.lookup key = some c → SoundCredential key c
  /-- None is lost. -/
  stored : ∀ credential ∈ credentials, ∃ c,
    st.credentials.lookup credential.accessKey.trim = some c
      ∧ compileCredential C credential (defaultMaxExpires settings) = ok c
  count : st.credentials.entries.length = credentials.length
  default_pos : 0 < nanoseconds st.settings.defaultMaxExpires
  default_le : nanoseconds st.settings.defaultMaxExpires ≤ sevenDays
  methods_nonempty : ∃ m, m ∈ st.supportedMethods
  supportedMethods : ∀ m ∈ st.supportedMethods, IsMethod m

/-! ## What is compiled is sound -/

theorem soundCredential_of_compiled {d : Duration} {credential : Credential}
    {c : CompiledCredential} (h : Compiled C d credential c) (hrules : CredentialRules credential) :
    SoundCredential credential.accessKey.trim c where
  accessKey := h.accessKey
  trimmed := Str.trim_trim _
  nonempty := hrules.accessKey
  maxExpires_pos := isZero_eq_false_iff.mp h.maxExpires_pos
  maxExpires_le := maxSigv4Expires_nanoseconds ▸ lt_eq_false_iff.mp h.maxExpires_le
  allowedMethods := by
    intro m hm
    obtain ⟨m', hm', rfl⟩ := (h.allowedMethods m).mp hm
    exact hrules.allowedMethods m' hm'
  hosts_trimmed := by
    intro x hx
    obtain ⟨_, a, _, rfl⟩ := (h.allowedHosts x).mp hx
    exact Str.trim_toAsciiLowercase_trim a
  hosts_lower := by
    intro x hx
    obtain ⟨_, a, _, rfl⟩ := (h.allowedHosts x).mp hx
    exact Str.toAsciiLowercase_toAsciiLowercase a.trim
  hosts_nonempty := fun x hx => ((h.allowedHosts x).mp hx).1
  hosts_plain := by
    intro x hx
    obtain ⟨_, a, ha, rfl⟩ := (h.allowedHosts x).mp hx
    exact hrules.allowedHosts a ha
  prefixes_nonempty := fun p hp => ((h.allowedPrefixes p).mp hp).1
  prefixes_valid := fun p hp => validateRawPath_eq_ok.mpr (h.validPrefixes p hp)
  prefixes_once := h.prefixes_nodup
  secretSeed := ⟨credential.secretKey.bytes, h.secret_ne, h.secretSeed⟩
  signingCache := h.signingCache

/-- One entry for each credential. -/
theorem length_of_insertCredentials {d : Duration} {credentials : List Credential}
    {map : AList (fun _ : Str => CompiledCredential)}
    (h : credentials.foldlM (insertCredential C d) ∅ = ok map) :
    map.entries.length = credentials.length := by
  refine foldlM_inv (P := fun pre map => map.entries.length = pre.length) rfl ?_ h
  intro pre a map map' hlen hstep
  obtain ⟨c, _, hins⟩ := bind_eq_ok.mp hstep
  by_cases hm : c.accessKey ∈ map
  · rw [if_pos hm] at hins
    exact absurd hins (by simp)
  · rw [if_neg hm] at hins
    rw [← Outcome.ok.inj hins, AList.entries_insert_of_notMem hm, List.length_cons, hlen,
      List.length_append, List.length_singleton]

/-- Some method is supported, by default or by the list. -/
theorem exists_supported (settings : Settings) : ∃ m, Supported settings m := by
  by_cases he : settings.supportedMethods = []
  · refine ⟨.lit "GET", ?_⟩
    rw [Supported, if_pos he]
    exact Or.inl rfl
  · obtain ⟨m, ms, hms⟩ := List.exists_cons_of_ne_nil he
    refine ⟨normalMethod m, ?_⟩
    rw [Supported, if_neg he]
    exact ⟨m, hms ▸ List.mem_cons_self, rfl⟩

/-- **`compile_state` gives sound states.** -/
theorem soundState_of_new {settings : Settings} {credentials : List Credential} {v : Verifier}
    (h : Verifier.new C settings credentials = ok v) :
    SoundState C settings credentials v.state := by
  have hrules := new_isOk_iff.mp ⟨v, h⟩
  have hstate := compileState_eq_ok (new_eq_ok.mp h)
  have hdefault : v.state.settings.defaultMaxExpires = defaultMaxExpires settings := by
    rw [hstate.effective]
    rfl
  have husable := usableDefault_defaultMaxExpires settings
  refine {
    each := ?_, stored := ?_, count := ?_, default_pos := ?_, default_le := ?_,
    methods_nonempty := ?_, supportedMethods := ?_ }
  · intro key c hc
    obtain ⟨credential, hmem, rfl, hcompile⟩ := (hstate.installed.find key c).mp hc
    exact soundCredential_of_compiled (compileCredential_eq_ok hcompile)
      (hrules.credentials credential hmem)
  · intro credential hmem
    obtain ⟨c, hc⟩ := hstate.installed.compiles credential hmem
    exact ⟨c, (hstate.installed.find _ _).mpr ⟨credential, hmem, rfl, hc⟩, hc⟩
  · have hcompile := new_eq_ok.mp h
    unfold compileState at hcompile
    obtain ⟨_, _, hcompile⟩ := bind_eq_ok.mp hcompile
    obtain ⟨methods, _, hcompile⟩ := bind_eq_ok.mp hcompile
    obtain ⟨map, hmap, hcompile⟩ := bind_eq_ok.mp hcompile
    rw [← Outcome.ok.inj hcompile]
    exact length_of_insertCredentials hmap
  · rw [hdefault]
    exact husable.pos
  · rw [hdefault]
    exact husable.le
  · obtain ⟨m, hm⟩ := exists_supported settings
    exact ⟨m, (hstate.supportedMethods m).mpr hm⟩
  · intro m hm
    exact supported_get_or_head (new_eq_ok.mp h) hm

/-! ## Runs -/

/-- The call is `Verifier::new` or `reload`, with this configuration. -/
inductive Op.Supplies : Op → Settings → List Credential → Prop
  | new (settings : Settings) (credentials : List Credential) :
      Supplies (.new settings credentials) settings credentials
  | reload (i : Nat) (settings : Settings) (credentials : List Credential) :
      Supplies (.reload i settings credentials) settings credentials

/-- Each state is sound, for the credentials of a call that was made. -/
def Clones.Sound (C : Crypto) (ops : List Op) (w : Clones) : Prop :=
  ∀ st ∈ w.states, ∃ settings credentials, (∃ op ∈ ops, op.Supplies settings credentials)
    ∧ SoundState C settings credentials st

theorem Clones.Sound.mono {ops : List Op} {w : Clones} (h : w.Sound C ops) (op : Op) :
    w.Sound C (ops ++ [op]) := by
  intro st hst
  obtain ⟨settings, credentials, ⟨o, ho, hsupplies⟩, hsound⟩ := h st hst
  exact ⟨settings, credentials, ⟨o, List.mem_append_left _ ho, hsupplies⟩, hsound⟩

/-- A state is added. -/
theorem Clones.Sound.add {ops : List Op} {w w' : Clones} (h : w.Sound C ops) {op : Op}
    {settings : Settings} {credentials : List Credential} {v : Verifier}
    (hop : op.Supplies settings credentials)
    (hnew : Verifier.new C settings credentials = ok v) (hw : w'.states = w.states ++ [v.state]) :
    w'.Sound C (ops ++ [op]) := by
  intro st hst
  rw [hw] at hst
  rcases List.mem_append.mp hst with hst | hst
  · exact h.mono op st hst
  · rw [List.mem_singleton.mp hst]
    exact ⟨settings, credentials,
      ⟨op, List.mem_append_right _ List.mem_cons_self, hop⟩, soundState_of_new hnew⟩

/-- **A call keeps the states sound**, whether it is accepted or not. -/
theorem sound_step {ops : List Op} {w : Clones} {op : Op}
    (hop : ∃ settings credentials, op.Supplies settings credentials) (h : w.Sound C ops) :
    ∃ output w', Clones.step C w op = ok (output, w') ∧ w'.Sound C (ops ++ [op]) := by
  obtain ⟨settings, credentials, hop⟩ := hop
  cases hop with
  | new =>
      rcases new_ok_or_exit C settings credentials with ⟨v, hnew⟩ | ⟨e, hnew⟩
      · exact ⟨_, _, step_new_ok hnew, h.add (.new ..) hnew rfl⟩
      · exact ⟨_, _, step_new_exit hnew, h.mono _⟩
  | reload i =>
      cases hi : w.verifiers[i]? with
      | none => exact ⟨_, _, step_reload_absent hi settings credentials, h.mono _⟩
      | some a =>
          rcases new_ok_or_exit C settings credentials with ⟨v, hnew⟩ | ⟨e, hnew⟩
          · exact ⟨_, _, step_reload_ok hi hnew, h.add (.reload ..) hnew rfl⟩
          · exact ⟨_, _, step_reload_exit hi hnew, h.mono _⟩

/-- A configuration that breaks a rule is an error. -/
theorem new_exit_of_not_rules {settings : Settings} {credentials : List Credential}
    (h : ¬Rules settings credentials) : ∃ e, Verifier.new C settings credentials = exit e := by
  rcases new_ok_or_exit C settings credentials with hok | hexit
  · exact absurd (new_isOk_iff.mp hok) h
  · exact hexit

/--
**Compiled states are sound**, after every run of `Verifier::new` and `reload` calls on any
number of verifiers, with any configurations. Every state there is satisfies `SoundState` for
the credentials of the call that installed it. A configuration that breaks a rule is refused
with an error by either call, and nothing changes; one that keeps them all is accepted.
-/
theorem compiled_state_invariant (C : Crypto) {ops : List Op}
    (hops : ∀ op ∈ ops, ∃ settings credentials, op.Supplies settings credentials) :
    ∃ outputs w, runs (Clones.step C) Clones.empty ops = ok (outputs, w)
      ∧ (∀ st ∈ w.states, ∃ settings credentials, (∃ op ∈ ops, op.Supplies settings credentials)
        ∧ SoundState C settings credentials st)
      ∧ ∀ settings credentials,
        (¬Rules settings credentials →
          (∃ e, Clones.step C w (.new settings credentials) = ok (.rejected e, w))
            ∧ ∀ i a, w.verifiers[i]? = some a →
              ∃ e, Clones.step C w (.reload i settings credentials) = ok (.rejected e, w))
          ∧ (Rules settings credentials → ∃ v, Verifier.new C settings credentials = ok v) := by
  obtain ⟨outputs, w, hrun, hsound⟩ := runs_inv (I := fun pre w => Clones.Sound C pre w)
    (fun pre w op hop h => sound_step hop h) ops [] Clones.empty hops
    (fun st hst => absurd hst List.not_mem_nil)
  refine ⟨outputs, w, hrun, hsound, fun settings credentials => ⟨?_, new_isOk_iff.mpr⟩⟩
  intro hrules
  obtain ⟨e, he⟩ := new_exit_of_not_rules (C := C) hrules
  exact ⟨⟨e, step_new_exit he⟩, fun i a hi => ⟨e, step_reload_exit hi he⟩⟩

theorem compiled_state_invariant_sample :
    ∃ outputs w, runs (Clones.step sampleCrypto) Clones.empty
          [.new sampleSettings [sampleCredential], .reload 0 sampleSettings [sampleCredential]]
        = ok (outputs, w)
      ∧ ∀ st ∈ w.states, ∃ settings credentials,
        (∃ op ∈ [Op.new sampleSettings [sampleCredential],
            .reload 0 sampleSettings [sampleCredential]], op.Supplies settings credentials)
          ∧ SoundState sampleCrypto settings credentials st := by
  obtain ⟨outputs, w, hrun, hsound, _⟩ := compiled_state_invariant sampleCrypto (by
    intro op hop
    rcases List.mem_cons.mp hop with rfl | hop
    · exact ⟨_, _, .new sampleSettings [sampleCredential]⟩
    · rw [List.mem_singleton.mp hop]
      exact ⟨_, _, .reload 0 sampleSettings [sampleCredential]⟩)
  exact ⟨outputs, w, hrun, hsound⟩

end SigV4
