import SigV4.Lib.Machine
import SigV4.Property.Soundness
import SigV4.Verifier.Clones

/-!
# A verifier has no history

The machine of `Clones.step`, with its shared states and their caches, gives the same
outputs as one that keeps nothing but the configuration last installed in each verifier
and answers each request on a fresh one (`Config`, `freshStep`). The two are related by
`Agrees`: behind each pointer is the state of its configuration, with sound caches.
-/

namespace SigV4

open Outcome Spec

variable {C : Crypto}

/-! ## Building a verifier does not panic -/

theorem safe_validateRawPath (p : Bytes) : Safe (validateRawPath p) := by
  by_cases h : ValidPath p
  · rw [validateRawPath_ok h]
    exact trivial
  · rw [validateRawPath_exit h]
    exact trivial

theorem safe_normalizeMethod (s : Str) : Safe (normalizeMethod s) := by
  unfold normalizeMethod
  exact ends_ite (fun _ => trivial) (fun _ => trivial)

theorem safe_normalizeHost (s : Str) : Safe (normalizeHost s) := by
  unfold normalizeHost
  refine ends_ite (fun _ => trivial) (fun _ => ?_)
  exact ends_ite (fun _ => trivial) (fun _ => trivial)

theorem safe_compileMethods (methods : List Str) : Safe (compileMethods methods) := by
  refine ends_foldlM _ _ fun acc m _ => ?_
  exact ends_bind (safe_normalizeMethod m) fun _ _ => trivial

theorem safe_compileCredential (C : Crypto) (credential : Credential) (d : Duration) :
    Safe (compileCredential C credential d) := by
  unfold compileCredential
  refine ends_bind (ends_exitIf trivial _) fun _ _ => ?_
  refine ends_bind (ends_exitIf trivial _) fun _ _ => ?_
  refine ends_bind (ends_exitIf trivial _) fun _ _ => ?_
  refine ends_bind ?_ fun _ _ => ?_
  · refine ends_foldlM _ _ fun acc h _ => ?_
    refine ends_bind (safe_normalizeHost h) fun _ _ => ?_
    exact ends_ite (fun _ => trivial) (fun _ => trivial)
  refine ends_bind (safe_compileMethods _) fun _ _ => ?_
  refine ends_bind ?_ fun _ _ => ?_
  · refine ends_bind (ends_foldlM _ _ fun acc p _ => ?_) fun _ _ => trivial
    refine ends_ite (fun _ => trivial) (fun _ => ?_)
    refine ends_bind (ends_mapExit (safe_validateRawPath p) fun _ => trivial) fun _ _ => ?_
    exact ends_ite (fun _ => trivial) (fun _ => trivial)
  rw [hashAccessKey_eq, ok_bind]
  exact trivial

/-- **`Verifier::new` ends without a panic**, in a verifier or an error. -/
theorem safe_new (C : Crypto) (settings : Settings) (credentials : List Credential) :
    Safe (Verifier.new C settings credentials) := by
  unfold Verifier.new compileState
  refine ends_bind ?_ fun _ _ => trivial
  refine ends_bind (ends_exitIf trivial _) fun _ _ => ?_
  refine ends_bind (safe_compileMethods _) fun _ _ => ?_
  refine ends_bind (ends_foldlM _ _ fun acc credential _ => ?_) fun _ _ => trivial
  refine ends_bind (safe_compileCredential C credential _) fun _ _ => ?_
  exact ends_ite (fun _ => trivial) (fun _ => trivial)

theorem new_ne_panic (C : Crypto) (settings : Settings) (credentials : List Credential)
    (p : Panic) : Verifier.new C settings credentials ≠ .panic p := by
  intro hp
  have hsafe := safe_new C settings credentials
  rw [hp] at hsafe
  exact hsafe

/-- `Verifier::new` accepts a configuration, or it is an error. -/
theorem new_ok_or_exit (C : Crypto) (settings : Settings) (credentials : List Credential) :
    (∃ v, Verifier.new C settings credentials = ok v)
      ∨ ∃ e, Verifier.new C settings credentials = exit e := by
  cases hnew : Verifier.new C settings credentials with
  | ok v => exact Or.inl ⟨v, rfl⟩
  | exit e => exact Or.inr ⟨e, rfl⟩
  | panic p => exact absurd hnew (new_ne_panic C settings credentials p)

/-! ## The calls that install a state -/

theorem step_new_ok {w : Clones} {settings : Settings} {credentials : List Credential}
    {v : Verifier} (h : Verifier.new C settings credentials = ok v) :
    Clones.step C w (.new settings credentials) = ok (.made, w.push v) := by
  unfold Clones.step
  dsimp only
  rw [h]

theorem step_new_exit {w : Clones} {settings : Settings} {credentials : List Credential}
    {e : ConfigError} (h : Verifier.new C settings credentials = exit e) :
    Clones.step C w (.new settings credentials) = ok (.rejected e, w) := by
  unfold Clones.step
  dsimp only
  rw [h]

/-- A live pointer is reloaded as a verifier is made. -/
theorem step_reload_live {w : Clones} {i a : Nat} (hi : w.verifiers[i]? = some a)
    (settings : Settings) (credentials : List Credential) :
    Clones.step C w (.reload i settings credentials)
      = match Verifier.new C settings credentials with
        | .ok v => ok (.reloaded, w.redirect i v)
        | .exit e => ok (.rejected e, w)
        | .panic p => .panic p := by
  unfold Clones.step
  dsimp only
  split
  · rfl
  · rename_i hnone
    rw [hi] at hnone
    exact absurd hnone (Option.some_ne_none a)

theorem step_reload_ok {w : Clones} {i a : Nat} (hi : w.verifiers[i]? = some a)
    {settings : Settings} {credentials : List Credential} {v : Verifier}
    (h : Verifier.new C settings credentials = ok v) :
    Clones.step C w (.reload i settings credentials) = ok (.reloaded, w.redirect i v) := by
  rw [step_reload_live hi, h]

theorem step_reload_exit {w : Clones} {i a : Nat} (hi : w.verifiers[i]? = some a)
    {settings : Settings} {credentials : List Credential} {e : ConfigError}
    (h : Verifier.new C settings credentials = exit e) :
    Clones.step C w (.reload i settings credentials) = ok (.rejected e, w) := by
  rw [step_reload_live hi, h]

theorem step_reload_absent {w : Clones} {i : Nat} (hi : w.verifiers[i]? = none)
    (settings : Settings) (credentials : List Credential) :
    Clones.step C w (.reload i settings credentials) = ok (.absent, w) := by
  unfold Clones.step
  dsimp only
  split
  · rename_i a ha
    rw [hi] at ha
    exact absurd ha.symm (Option.some_ne_none a)
  · rfl

/-! ## The machine without a history -/

/-- A configuration that compiles, and the fresh verifier it gives. -/
structure Config (C : Crypto) where
  settings : Settings
  credentials : List Credential
  fresh : Verifier
  compiled : Verifier.new C settings credentials = ok fresh

/-- The configuration and its fresh verifier, or why there is none. -/
def Config.compile (C : Crypto) (settings : Settings) (credentials : List Credential) :
    Outcome ConfigError (Config C) :=
  match h : Verifier.new C settings credentials with
  | .ok v => ok ⟨settings, credentials, v, h⟩
  | .exit e => exit e
  | .panic p => .panic p

/-- The same operations on the configurations alone. -/
def freshStep (C : Crypto) (configs : List (Config C)) :
    Op → Outcome Empty (Output × List (Config C))
  | .new settings credentials =>
    match Config.compile C settings credentials with
    | .ok config => ok (.made, configs ++ [config])
    | .exit e => ok (.rejected e, configs)
    | .panic p => .panic p
  | .clone i =>
    match configs[i]? with
    | some config => ok (.made, configs ++ [config])
    | none => ok (.absent, configs)
  | .verify i method rawUri host now =>
    match configs[i]? with
    | some config => do
        let (result, _) ← config.fresh.verify C method rawUri host now
        ok (.answered result, configs)
    | none => ok (.absent, configs)
  | .reload i settings credentials =>
    match configs[i]? with
    | some _ =>
        match Config.compile C settings credentials with
        | .ok config => ok (.reloaded, configs.set i config)
        | .exit e => ok (.rejected e, configs)
        | .panic p => .panic p
    | none => ok (.absent, configs)

/-- Behind each pointer is the state of its configuration, and all caches are sound. -/
structure Agrees (w : Clones) (configs : List (Config C)) : Prop where
  length : w.verifiers.length = configs.length
  state : ∀ (i a : Nat) (st : State) (config : Config C), w.verifiers[i]? = some a →
    w.states[a]? = some st → configs[i]? = some config → SameConfig st config.fresh.state
  sane : ∀ (a : Nat) (st : State), w.states[a]? = some st → (Verifier.mk st).Sane C

theorem agrees_empty : Agrees Clones.empty ([] : List (Config C)) :=
  ⟨rfl, fun _ _ _ _ h => by simp [Clones.empty] at h, fun _ _ h => by simp [Clones.empty] at h⟩

/-- An entry of an extended list is an entry of the list, or the new one. -/
theorem getElem?_concat {α : Type} {l : List α} {x y : α} {i : Nat}
    (h : (l ++ [x])[i]? = some y) : l[i]? = some y ∨ (i = l.length ∧ y = x) := by
  rcases Nat.lt_or_ge i l.length with hi | hi
  · rw [List.getElem?_append_left hi] at h
    exact Or.inl h
  · have hlt := (List.getElem?_eq_some_iff.mp h).1
    rw [List.length_append, List.length_singleton] at hlt
    obtain rfl : i = l.length := by omega
    rw [List.getElem?_concat_length] at h
    exact Or.inr ⟨rfl, (Option.some.inj h).symm⟩

/-- A verifier that stays where it is keeps its state when a state is added. -/
theorem state_of_concat {w : Clones} {s st : State} {i a : Nat} (hi : w.verifiers[i]? = some a)
    (h : (w.states ++ [s])[a]? = some st) : w.states[a]? = some st := by
  rw [List.getElem?_append_left (w.live a (List.mem_of_getElem? hi))] at h
  exact h

theorem sane_concat {w : Clones} {configs : List (Config C)} (h : Agrees w configs)
    {settings : Settings} {credentials : List Credential} {v : Verifier}
    (hnew : Verifier.new C settings credentials = ok v) {a : Nat} {st : State}
    (hst : (w.states ++ [v.state])[a]? = some st) : (Verifier.mk st).Sane C := by
  rcases getElem?_concat hst with hst | ⟨_, rfl⟩
  · exact h.sane a st hst
  · exact new_sane hnew

theorem Agrees.push {w : Clones} {configs : List (Config C)} (h : Agrees w configs)
    {settings : Settings} {credentials : List Credential} {v : Verifier}
    (hnew : Verifier.new C settings credentials = ok v) :
    Agrees (w.push v) (configs ++ [⟨settings, credentials, v, hnew⟩]) := by
  refine ⟨?_, ?_, fun a st hst => sane_concat h hnew hst⟩
  · show (w.verifiers ++ [_]).length = _
    rw [List.length_append, List.length_append, h.length]
    rfl
  · intro i a st config hi ha hc
    rcases getElem?_concat hi with hi | ⟨rfl, rfl⟩
    · rcases getElem?_concat hc with hc | ⟨rfl, _⟩
      · exact h.state i a st config hi (state_of_concat hi ha) hc
      · have hlt := (List.getElem?_eq_some_iff.mp hi).1
        rw [h.length] at hlt
        exact absurd hlt (Nat.lt_irrefl _)
    · -- the new verifier points to the new state
      have ha : (w.states ++ [v.state])[w.states.length]? = some st := ha
      rw [h.length, List.getElem?_concat_length] at hc
      rw [List.getElem?_concat_length] at ha
      rw [← Option.some.inj ha, ← Option.some.inj hc]
      exact SameConfig.refl _

theorem Agrees.copy {w : Clones} {configs : List (Config C)} (h : Agrees w configs) {i a : Nat}
    (hi : w.verifiers[i]? = some a) {config : Config C} (hc : configs[i]? = some config) :
    Agrees (w.copy hi) (configs ++ [config]) := by
  refine ⟨?_, ?_, h.sane⟩
  · show (w.verifiers ++ [_]).length = _
    rw [List.length_append, List.length_append, h.length]
    rfl
  · intro j b st config' hj hb hc'
    rcases getElem?_concat hj with hj | ⟨rfl, rfl⟩
    · rcases getElem?_concat hc' with hc' | ⟨rfl, _⟩
      · exact h.state j b st config' hj hb hc'
      · have hlt := (List.getElem?_eq_some_iff.mp hj).1
        rw [h.length] at hlt
        exact absurd hlt (Nat.lt_irrefl _)
    · rw [h.length, List.getElem?_concat_length] at hc'
      rw [← Option.some.inj hc']
      exact h.state i b st config hi hb hc

/-- A state whose caches have changed agrees with all that point to it. -/
theorem Agrees.write {w : Clones} {configs : List (Config C)} (h : Agrees w configs) {a : Nat}
    {st : State} (ha : w.states[a]? = some st) {v : Verifier} (hsame : SameConfig v.state st)
    (hsane : v.Sane C) : Agrees (w.write a v) configs := by
  have hstates : ∀ b st', (w.states.set a v.state)[b]? = some st' →
      (b = a ∧ st' = v.state) ∨ w.states[b]? = some st' := by
    intro b st' hb
    by_cases hab : a = b
    · subst hab
      rw [List.getElem?_set_self (List.getElem?_eq_some_iff.mp ha).1] at hb
      exact Or.inl ⟨rfl, (Option.some.inj hb).symm⟩
    · rw [List.getElem?_set_ne hab] at hb
      exact Or.inr hb
  refine ⟨h.length, ?_, ?_⟩
  · intro i b st' config hi hb hc
    rcases hstates b st' hb with ⟨rfl, rfl⟩ | hb
    · exact hsame.trans (h.state i b st config hi ha hc)
    · exact h.state i b st' config hi hb hc
  · intro b st' hb
    rcases hstates b st' hb with ⟨rfl, rfl⟩ | hb
    · exact hsane
    · exact h.sane b st' hb

theorem Agrees.redirect {w : Clones} {configs : List (Config C)} (h : Agrees w configs) {i : Nat}
    {settings : Settings} {credentials : List Credential} {v : Verifier}
    (hnew : Verifier.new C settings credentials = ok v) :
    Agrees (w.redirect i v) (configs.set i ⟨settings, credentials, v, hnew⟩) := by
  refine ⟨?_, ?_, fun a st hst => sane_concat h hnew hst⟩
  · show (w.verifiers.set i _).length = _
    rw [List.length_set, List.length_set, h.length]
  · intro j a st config hj ha hc
    have hj : (w.verifiers.set i w.states.length)[j]? = some a := hj
    have ha : (w.states ++ [v.state])[a]? = some st := ha
    by_cases hij : i = j
    · -- the verifier that is reloaded points to the new state
      subst hij
      have hlt := (List.getElem?_eq_some_iff.mp hj).1
      rw [List.length_set] at hlt
      rw [List.getElem?_set_self hlt] at hj
      rw [List.getElem?_set_self (h.length ▸ hlt)] at hc
      rw [← Option.some.inj hj, List.getElem?_concat_length] at ha
      rw [← Option.some.inj ha, ← Option.some.inj hc]
      exact SameConfig.refl _
    · rw [List.getElem?_set_ne hij] at hj hc
      exact h.state j a st config hj (state_of_concat hj ha) hc

/-! ## Every run gives the fresh answers -/

theorem Agrees.config {w : Clones} {configs : List (Config C)} (h : Agrees w configs) {i a : Nat}
    (hi : w.verifiers[i]? = some a) : ∃ config, configs[i]? = some config := by
  have hlt := (List.getElem?_eq_some_iff.mp hi).1
  rw [h.length] at hlt
  exact ⟨_, List.getElem?_eq_getElem hlt⟩

theorem Agrees.absent {w : Clones} {configs : List (Config C)} (h : Agrees w configs) {i : Nat}
    (hi : w.verifiers[i]? = none) : configs[i]? = none := by
  rw [List.getElem?_eq_none_iff] at hi ⊢
  rw [← h.length]
  exact hi

/-- A configuration compiles, or is rejected with the same error. -/
theorem compile_cases (C : Crypto) (settings : Settings) (credentials : List Credential) :
    (∃ v, ∃ h : Verifier.new C settings credentials = ok v,
        Config.compile C settings credentials = ok ⟨settings, credentials, v, h⟩)
      ∨ ∃ e, Verifier.new C settings credentials = exit e
        ∧ Config.compile C settings credentials = exit e := by
  unfold Config.compile
  split
  · rename_i v h
    exact Or.inl ⟨v, h, rfl⟩
  · rename_i e h
    exact Or.inr ⟨e, h, rfl⟩
  · rename_i p h
    exact absurd h (new_ne_panic C settings credentials p)

/-- **Every step** gives the output of the fresh verifier. -/
theorem step_matches (C : Crypto) (w : Clones) (configs : List (Config C)) (op : Op)
    (h : Agrees w configs) : Matches (Clones.step C) (freshStep C) Agrees w configs op := by
  cases op with
  | new settings credentials =>
      unfold Matches freshStep
      dsimp only
      rcases compile_cases C settings credentials with ⟨v, hnew, hc⟩ | ⟨e, hnew, hc⟩
      · rw [step_new_ok hnew, hc]
        exact ⟨.made, _, _, rfl, rfl, h.push hnew⟩
      · rw [step_new_exit hnew, hc]
        exact ⟨.rejected e, _, _, rfl, rfl, h⟩
  | clone i =>
      unfold Matches Clones.step freshStep
      dsimp only
      split
      · rename_i a hi
        obtain ⟨config, hc⟩ := h.config hi
        rw [hc]
        exact ⟨.made, _, _, rfl, rfl, h.copy hi hc⟩
      · rename_i hi
        rw [h.absent hi]
        exact ⟨.absent, _, _, rfl, rfl, h⟩
  | verify i method rawUri host now =>
      unfold Matches Clones.step freshStep
      dsimp only
      split
      · rename_i a hi
        obtain ⟨config, hc⟩ := h.config hi
        have ha := w.state_eq hi
        -- the state behind the pointer answers as the fresh one does
        obtain ⟨v, hv, hsame, hsane⟩ := verify_eq (h.sane a _ ha) method rawUri host now
        obtain ⟨v₀, hv₀, _, _⟩ := verify_eq (new_sane config.compiled) method rawUri host now
        have hanswer := answer_congr (C := C) (h.state i a _ config hi ha hc) method rawUri host now
        rw [hc]
        dsimp only
        rw [hv, hv₀, ok_bind, ok_bind, ← hanswer]
        exact ⟨_, _, _, rfl, rfl, h.write ha hsame hsane⟩
      · rename_i hi
        rw [h.absent hi]
        exact ⟨.absent, _, _, rfl, rfl, h⟩
  | reload i settings credentials =>
      unfold Matches freshStep
      dsimp only
      cases hi : w.verifiers[i]? with
      | none =>
          rw [step_reload_absent hi, h.absent hi]
          exact ⟨.absent, _, _, rfl, rfl, h⟩
      | some a =>
          obtain ⟨config, hconfig⟩ := h.config hi
          rw [hconfig]
          dsimp only
          rcases compile_cases C settings credentials with ⟨v, hnew, hc⟩ | ⟨e, hnew, hc⟩
          · rw [step_reload_ok hi hnew, hc]
            exact ⟨.reloaded, _, _, rfl, rfl, h.redirect hnew⟩
          · rw [step_reload_exit hi hnew, hc]
            exact ⟨.rejected e, _, _, rfl, rfl, h⟩

/-- **No stale key**: what a cache holds was derived from the secret that is configured now. -/
theorem Agrees.current {w : Clones} {configs : List (Config C)} (h : Agrees w configs) {i a : Nat}
    {config : Config C} (hi : w.verifiers[i]? = some a) (hc : configs[i]? = some config)
    {accessKey : Str} {c : CompiledCredential}
    (hl : (w.state hi).credentials.lookup accessKey = some c) :
    ∃ credential ∈ config.credentials, credential.accessKey.trim = accessKey
      ∧ ∀ entry ∈ c.signingCache.value, entry.key = Spec.signingKey C credential.secretKey.bytes
          entry.date.bytes entry.region.bytes entry.service.bytes := by
  have ha := w.state_eq hi
  have hfind := (h.state i a _ config hi ha hc).find accessKey
  rw [hl, Option.map_some] at hfind
  obtain ⟨c₀, hl₀, herase⟩ := Option.map_eq_some_iff.mp hfind.symm
  have hstate := compileState_eq_ok (new_eq_ok.mp config.compiled)
  obtain ⟨credential, hmem, hkey, hcompile⟩ := (hstate.installed.find _ _).mp hl₀
  have hseed : c.secretSeed = bytes "AWS4" ++ credential.secretKey.bytes := by
    rw [← (compileCredential_eq_ok hcompile).secretSeed]
    exact (congrArg CompiledCredential.secretSeed herase).symm
  refine ⟨credential, hmem, hkey, ?_⟩
  intro entry hentry
  have hkey := (h.sane a _ ha accessKey c hl).keys entry hentry
  rw [hseed, deriveSigningKey_eq] at hkey
  exact hkey

/--
**A verifier has no history.** Over any operations on any number of verifiers that share
their states, the outputs are those of the machine that answers each request on a fresh
verifier of the configuration last installed; and no cache holds a key of another
secret than the configured one.
-/
theorem history_independent (C : Crypto) (ops : List Op) :
    ∃ outputs w configs, runs (Clones.step C) Clones.empty ops = ok (outputs, w)
      ∧ runs (freshStep C) [] ops = ok (outputs, configs)
      ∧ ∀ i a config (hi : w.verifiers[i]? = some a), configs[i]? = some config →
          ∀ accessKey c, (w.state hi).credentials.lookup accessKey = some c →
            ∃ credential ∈ config.credentials, credential.accessKey.trim = accessKey
              ∧ ∀ entry ∈ c.signingCache.value, entry.key = Spec.signingKey C
                  credential.secretKey.bytes entry.date.bytes entry.region.bytes
                  entry.service.bytes := by
  obtain ⟨outputs, w, configs, hw, hconfigs, hagrees⟩ :=
    runs_of_simulation (step_matches C) ops Clones.empty [] agrees_empty
  exact ⟨outputs, w, configs, hw, hconfigs,
    fun i a config hi hc accessKey c hl => hagrees.current hi hc hl⟩

end SigV4
