import SigV4.Proof.Rules
import SigV4.Property.Directive

/-!
# Arguments may come in any order

Read alone, an argument gives a directive with one field set. What a list of arguments
gives is the `join` of these, which is there unless two of them set a field that is set
once (`Apart`). So arguments commute, up to the order in which values are listed.
-/

namespace SigV4

open Outcome Ascii Spec

namespace CredentialDirective

variable {d d' : CredentialDirective} {a : Argument}

/-! ## Joining -/

/-- No field that is set once is set in both. -/
structure Apart (d e : CredentialDirective) : Prop where
  secret : d.secret = none ∨ e.secret = none
  enabled : d.enabled = none ∨ e.enabled = none
  maxExpires : d.maxExpires = none ∨ e.maxExpires = none

/-- What both say. -/
def join (d e : CredentialDirective) : CredentialDirective where
  accessKey := d.accessKey
  secret := d.secret.or e.secret
  enabled := d.enabled.or e.enabled
  maxExpires := d.maxExpires.or e.maxExpires
  allowedHosts := d.allowedHosts ++ e.allowedHosts
  allowAnyHost := d.allowAnyHost || e.allowAnyHost
  allowedMethods := d.allowedMethods ++ e.allowedMethods
  allowDefaultMethods := d.allowDefaultMethods || e.allowDefaultMethods
  allowedPrefixes := d.allowedPrefixes ++ e.allowedPrefixes
  allowAnyPrefix := d.allowAnyPrefix || e.allowAnyPrefix

/-- The same, up to the order of the values in a list. -/
structure Same (d e : CredentialDirective) : Prop where
  accessKey : d.accessKey = e.accessKey
  secret : d.secret = e.secret
  enabled : d.enabled = e.enabled
  maxExpires : d.maxExpires = e.maxExpires
  allowAnyHost : d.allowAnyHost = e.allowAnyHost
  allowDefaultMethods : d.allowDefaultMethods = e.allowDefaultMethods
  allowAnyPrefix : d.allowAnyPrefix = e.allowAnyPrefix
  allowedHosts : d.allowedHosts.Perm e.allowedHosts
  allowedMethods : d.allowedMethods.Perm e.allowedMethods
  allowedPrefixes : d.allowedPrefixes.Perm e.allowedPrefixes

theorem Same.refl (d : CredentialDirective) : Same d d :=
  ⟨rfl, rfl, rfl, rfl, rfl, rfl, rfl, .refl _, .refl _, .refl _⟩

theorem Same.trans {d e f : CredentialDirective} (h : Same d e) (h' : Same e f) : Same d f where
  accessKey := h.accessKey.trans h'.accessKey
  secret := h.secret.trans h'.secret
  enabled := h.enabled.trans h'.enabled
  maxExpires := h.maxExpires.trans h'.maxExpires
  allowAnyHost := h.allowAnyHost.trans h'.allowAnyHost
  allowDefaultMethods := h.allowDefaultMethods.trans h'.allowDefaultMethods
  allowAnyPrefix := h.allowAnyPrefix.trans h'.allowAnyPrefix
  allowedHosts := h.allowedHosts.trans h'.allowedHosts
  allowedMethods := h.allowedMethods.trans h'.allowedMethods
  allowedPrefixes := h.allowedPrefixes.trans h'.allowedPrefixes

theorem Same.symm {d e : CredentialDirective} (h : Same d e) : Same e d where
  accessKey := h.accessKey.symm
  secret := h.secret.symm
  enabled := h.enabled.symm
  maxExpires := h.maxExpires.symm
  allowAnyHost := h.allowAnyHost.symm
  allowDefaultMethods := h.allowDefaultMethods.symm
  allowAnyPrefix := h.allowAnyPrefix.symm
  allowedHosts := h.allowedHosts.symm
  allowedMethods := h.allowedMethods.symm
  allowedPrefixes := h.allowedPrefixes.symm

theorem Same.join {d e : CredentialDirective} (h : Same d e) (x : CredentialDirective) :
    Same (d.join x) (e.join x) where
  accessKey := h.accessKey
  secret := congrArg (·.or x.secret) h.secret
  enabled := congrArg (·.or x.enabled) h.enabled
  maxExpires := congrArg (·.or x.maxExpires) h.maxExpires
  allowAnyHost := congrArg (· || x.allowAnyHost) h.allowAnyHost
  allowDefaultMethods := congrArg (· || x.allowDefaultMethods) h.allowDefaultMethods
  allowAnyPrefix := congrArg (· || x.allowAnyPrefix) h.allowAnyPrefix
  allowedHosts := h.allowedHosts.append_right _
  allowedMethods := h.allowedMethods.append_right _
  allowedPrefixes := h.allowedPrefixes.append_right _

theorem Same.apart {d e x : CredentialDirective} (h : Same d e) (hx : Apart d x) : Apart e x where
  secret := h.secret ▸ hx.secret
  enabled := h.enabled ▸ hx.enabled
  maxExpires := h.maxExpires ▸ hx.maxExpires

theorem or_eq_none_cases {α : Type} {x y z : Option α} (h : x.or y = none ∨ z = none) :
    (x = none ∨ z = none) ∧ (y = none ∨ z = none) := by
  rcases h with h | h
  · obtain ⟨hx, hy⟩ := Option.or_eq_none_iff.mp h
    exact ⟨Or.inl hx, Or.inl hy⟩
  · exact ⟨Or.inr h, Or.inr h⟩

theorem or_none_of_cases {α : Type} {x y z : Option α} (hx : x = none ∨ z = none)
    (hy : y = none ∨ z = none) : x.or y = none ∨ z = none := by
  rcases hx with rfl | rfl
  · rw [Option.none_or]
    exact hy
  · exact Or.inr rfl

/-- What is set once is the same in either order. -/
theorem or_or_comm {α : Type} (x : Option α) {y z : Option α} (h : y = none ∨ z = none) :
    (x.or y).or z = (x.or z).or y := by
  rcases h with rfl | rfl <;> simp

theorem apart_join {d x y : CredentialDirective} :
    Apart (d.join x) y ↔ Apart d y ∧ Apart x y := by
  refine ⟨?_, ?_⟩
  · intro h
    have hs := or_eq_none_cases h.secret
    have he := or_eq_none_cases h.enabled
    have hm := or_eq_none_cases h.maxExpires
    exact ⟨⟨hs.1, he.1, hm.1⟩, ⟨hs.2, he.2, hm.2⟩⟩
  · intro h
    exact ⟨or_none_of_cases h.1.secret h.2.secret, or_none_of_cases h.1.enabled h.2.enabled,
      or_none_of_cases h.1.maxExpires h.2.maxExpires⟩

theorem Apart.symm {d e : CredentialDirective} (h : Apart d e) : Apart e d :=
  ⟨h.secret.symm, h.enabled.symm, h.maxExpires.symm⟩

theorem perm_append_append_comm {α : Type} (l x y : List α) : (l ++ x ++ y).Perm (l ++ y ++ x) := by
  rw [List.append_assoc, List.append_assoc]
  exact List.perm_append_comm.append_left l

theorem same_join_comm (d : CredentialDirective) {x y : CredentialDirective} (h : Apart x y) :
    Same ((d.join x).join y) ((d.join y).join x) where
  accessKey := rfl
  secret := or_or_comm _ h.secret
  enabled := or_or_comm _ h.enabled
  maxExpires := or_or_comm _ h.maxExpires
  allowAnyHost := Bool.or_right_comm _ _ _
  allowDefaultMethods := Bool.or_right_comm _ _ _
  allowAnyPrefix := Bool.or_right_comm _ _ _
  allowedHosts := perm_append_append_comm ..
  allowedMethods := perm_append_append_comm ..
  allowedPrefixes := perm_append_append_comm ..

/-! ## Reading -/

section Alone

variable (d)

theorem join_setFree (dim : Dimension) :
    d.join ((start .empty).setFree dim) = d.setFree dim := by
  cases d
  cases dim <;> simp [join, start, setFree]

theorem join_push (value : Str) (dim : Dimension) :
    d.join ((start .empty).push value dim) = d.push value dim := by
  cases d
  cases dim <;> simp [join, start, push]

theorem join_secret (h : d.secret = none) (source : SecretSource) :
    d.join { start .empty with secret := some source } = { d with secret := some source } := by
  cases d
  obtain rfl := h
  simp [join, start]

theorem join_enabled (h : d.enabled = none) (b : Bool) :
    d.join { start .empty with enabled := some b } = { d with enabled := some b } := by
  cases d
  obtain rfl := h
  simp [join, start]

theorem join_maxExpires (h : d.maxExpires = none) (m : Duration) :
    d.join { start .empty with maxExpires := some m } = { d with maxExpires := some m } := by
  cases d
  obtain rfl := h
  simp [join, start]

/-- A flag sets nothing that is set once. -/
theorem apart_setFree (dim : Dimension) : Apart d ((start .empty).setFree dim) := by
  cases dim <;> exact ⟨Or.inr rfl, Or.inr rfl, Or.inr rfl⟩

theorem apart_push (value : Str) (dim : Dimension) : Apart d ((start .empty).push value dim) := by
  cases dim <;> exact ⟨Or.inr rfl, Or.inr rfl, Or.inr rfl⟩

end Alone

/-- **An argument is read** by joining what it says alone, unless that sets a field twice. -/
theorem reads_iff : Reads d a d' ↔ ∃ x, Reads (start .empty) a x ∧ Apart d x ∧ d.join x = d' := by
  refine ⟨?_, ?_⟩
  · intro h
    cases h with
    | free dim => exact ⟨_, .free dim, apart_setFree d dim, join_setFree d dim⟩
    | secretKeyFile hvalue hnone =>
        exact ⟨_, .secretKeyFile hvalue rfl, ⟨Or.inl hnone, Or.inr rfl, Or.inr rfl⟩,
          join_secret d hnone _⟩
    | secretKey hvalue hnone =>
        exact ⟨_, .secretKey hvalue rfl, ⟨Or.inl hnone, Or.inr rfl, Or.inr rfl⟩,
          join_secret d hnone _⟩
    | enabled hnone hvalue =>
        exact ⟨_, .enabled rfl hvalue, ⟨Or.inr rfl, Or.inl hnone, Or.inr rfl⟩,
          join_enabled d hnone _⟩
    | maxExpires hnone hvalue =>
        exact ⟨_, .maxExpires rfl hvalue, ⟨Or.inr rfl, Or.inr rfl, Or.inl hnone⟩,
          join_maxExpires d hnone _⟩
    | allowed dim hvalue => exact ⟨_, .allowed dim hvalue, apart_push d _ dim, join_push d _ dim⟩
  · intro hc
    obtain ⟨x, h, hx, rfl⟩ := hc
    cases h with
    | free dim =>
        rw [join_setFree]
        exact .free dim
    | secretKeyFile hvalue =>
        have hnone := hx.secret.resolve_right (Option.some_ne_none _)
        rw [join_secret d hnone]
        exact .secretKeyFile hvalue hnone
    | secretKey hvalue =>
        have hnone := hx.secret.resolve_right (Option.some_ne_none _)
        rw [join_secret d hnone]
        exact .secretKey hvalue hnone
    | enabled _ hvalue =>
        have hnone := hx.enabled.resolve_right (Option.some_ne_none _)
        rw [join_enabled d hnone]
        exact .enabled hnone hvalue
    | maxExpires _ hvalue =>
        have hnone := hx.maxExpires.resolve_right (Option.some_ne_none _)
        rw [join_maxExpires d hnone]
        exact .maxExpires hnone hvalue
    | allowed dim hvalue =>
        rw [join_push]
        exact .allowed dim hvalue

/-- An argument does the same to the same directive. -/
theorem parseArg_same {e : CredentialDirective} {arg : Str} (h : Same d e)
    (ha : d.parseArg arg = ok d') : ∃ e', e.parseArg arg = ok e' ∧ Same d' e' := by
  obtain ⟨a, rfl, hr⟩ := parseArg_eq_ok.mp ha
  obtain ⟨x, halone, hx, rfl⟩ := reads_iff.mp hr
  exact ⟨e.join x, parseArg_eq_ok.mpr ⟨a, rfl, reads_iff.mpr ⟨x, halone, h.apart hx, rfl⟩⟩,
    h.join x⟩

/-- **Two arguments commute.** -/
theorem parseArg_swap {e f : CredentialDirective} {arg arg' : Str} (h : d.parseArg arg = ok e)
    (h' : e.parseArg arg' = ok f) :
    ∃ e' f', d.parseArg arg' = ok e' ∧ e'.parseArg arg = ok f' ∧ Same f f' := by
  obtain ⟨a, rfl, hr⟩ := parseArg_eq_ok.mp h
  obtain ⟨b, rfl, hr'⟩ := parseArg_eq_ok.mp h'
  obtain ⟨x, hax, hx, rfl⟩ := reads_iff.mp hr
  obtain ⟨y, hby, hy, rfl⟩ := reads_iff.mp hr'
  obtain ⟨hdy, hxy⟩ := apart_join.mp hy
  refine ⟨d.join y, (d.join y).join x, parseArg_eq_ok.mpr ⟨b, rfl, ?_⟩,
    parseArg_eq_ok.mpr ⟨a, rfl, ?_⟩, same_join_comm d hxy⟩
  · exact reads_iff.mpr ⟨y, hby, hdy, rfl⟩
  · exact reads_iff.mpr ⟨x, hax, apart_join.mpr ⟨hx, hxy.symm⟩, rfl⟩

/-- The validation does not see the order. -/
theorem validate_same {e : CredentialDirective} (h : Same d e) : d.validate = e.validate := by
  unfold validate validateIf
  rw [h.accessKey, h.secret, h.maxExpires, h.allowAnyHost, h.allowDefaultMethods,
    h.allowAnyPrefix, h.allowedHosts.isEmpty_eq, h.allowedMethods.isEmpty_eq,
    h.allowedPrefixes.isEmpty_eq]

/-- **What is parsed** from one order is parsed from any other. -/
theorem parse_of_perm {accessKey : Str} {rest rest' : List Str} (h : rest.Perm rest')
    (hparse : parse (accessKey :: rest) = ok d) :
    ∃ d', parse (accessKey :: rest') = ok d' ∧ Same d d' := by
  unfold parse at hparse
  obtain ⟨_, hempty, hparse⟩ := bind_eq_ok.mp hparse
  obtain ⟨_, hequals, hparse⟩ := bind_eq_ok.mp hparse
  obtain ⟨d₀, hread, hparse⟩ := bind_eq_ok.mp hparse
  obtain ⟨_, hvalid, hparse⟩ := bind_eq_ok.mp hparse
  obtain rfl := Outcome.ok.inj hparse
  obtain ⟨d', hread', hsame⟩ :=
    foldlM_perm (f := parseArg) Same.refl Same.trans parseArg_same parseArg_swap h hread
  rw [validate_same hsame] at hvalid
  refine ⟨d', ?_, hsame⟩
  unfold parse
  dsimp only
  rw [hempty, ok_bind, hequals, ok_bind, hread', ok_bind, hvalid, ok_bind]

theorem parse_perm_iff {accessKey : Str} {rest rest' : List Str} (h : rest.Perm rest') :
    (∃ d, parse (accessKey :: rest) = ok d) ↔ ∃ d, parse (accessKey :: rest') = ok d := by
  refine ⟨?_, ?_⟩
  · intro hc
    obtain ⟨d, hd⟩ := hc
    obtain ⟨d', hd', _⟩ := parse_of_perm h hd
    exact ⟨d', hd'⟩
  · intro hc
    obtain ⟨d, hd⟩ := hc
    obtain ⟨d', hd', _⟩ := parse_of_perm h.symm hd
    exact ⟨d', hd'⟩

end CredentialDirective

/-! ## What is admitted -/

section Admitted

open CredentialDirective

variable {C : Crypto} {settings : Settings} {credential credential' : Credential}

/-- The same, up to the order of the values in a list. -/
structure SameCredential (a b : Credential) : Prop where
  accessKey : a.accessKey = b.accessKey
  secretKey : a.secretKey = b.secretKey
  enabled : a.enabled = b.enabled
  maxExpires : a.maxExpires = b.maxExpires
  allowedHosts : a.allowedHosts.Perm b.allowedHosts
  allowedMethods : a.allowedMethods.Perm b.allowedMethods
  allowedPrefixes : a.allowedPrefixes.Perm b.allowedPrefixes

theorem SameCredential.symm (h : SameCredential credential credential') :
    SameCredential credential' credential where
  accessKey := h.accessKey.symm
  secretKey := h.secretKey.symm
  enabled := h.enabled.symm
  maxExpires := h.maxExpires.symm
  allowedHosts := h.allowedHosts.symm
  allowedMethods := h.allowedMethods.symm
  allowedPrefixes := h.allowedPrefixes.symm

/-- The secret file is read alike, and the lists are copied. -/
theorem resolve_same {d d' : CredentialDirective} (h : Same d d') (fs : FileSystem)
    (hresolve : d.resolve fs = ok credential) :
    ∃ credential', d'.resolve fs = ok credential' ∧ SameCredential credential credential' := by
  obtain ⟨secretKey, hsecret, rfl⟩ := resolve_eq_ok hresolve
  have hload : d'.loadSecret fs = ok secretKey := by
    rw [← hsecret]
    unfold loadSecret readSecret
    rw [h.secret, h.accessKey]
  refine ⟨_, by rw [resolve, hload, ok_bind], ?_⟩
  exact {
    accessKey := h.accessKey
    secretKey := rfl
    enabled := congrArg (·.getD true) h.enabled
    maxExpires := congrArg (·.getD (.fromSecs 0)) h.maxExpires
    allowedHosts := h.allowedHosts
    allowedMethods := h.allowedMethods
    allowedPrefixes := h.allowedPrefixes.map _ }

theorem resolve_isOk_iff {d d' : CredentialDirective} (h : Same d d') (fs : FileSystem) :
    (∃ credential, d.resolve fs = ok credential) ↔ ∃ credential, d'.resolve fs = ok credential := by
  refine ⟨?_, ?_⟩
  · intro hc
    obtain ⟨credential, hresolve⟩ := hc
    obtain ⟨credential', hresolve', _⟩ := resolve_same h fs hresolve
    exact ⟨credential', hresolve'⟩
  · intro hc
    obtain ⟨credential, hresolve⟩ := hc
    obtain ⟨credential', hresolve', _⟩ := resolve_same h.symm fs hresolve
    exact ⟨credential', hresolve'⟩

/-- The key is the one that was written. -/
theorem key_of_resolved {accessKey : Str} {rest : List Str} {d : CredentialDirective}
    {fs : FileSystem} (hparse : parse (accessKey :: rest) = ok d)
    (hresolve : d.resolve fs = ok credential) : credential.accessKey.trim = accessKey.trim := by
  obtain ⟨first, rest', hargs, _, hread, _⟩ := parse_eq_ok hparse
  obtain ⟨rfl, rfl⟩ := List.cons.inj hargs
  obtain ⟨secretKey, _, rfl⟩ := resolve_eq_ok hresolve
  show d.accessKey.trim = accessKey.trim
  rw [hread.accessKey, Str.trim_trim]

theorem credentialRules_same (h : SameCredential credential credential')
    (hrules : CredentialRules credential) : CredentialRules credential' where
  accessKey := h.accessKey ▸ hrules.accessKey
  secretKey := h.secretKey ▸ hrules.secretKey
  maxExpires := h.maxExpires ▸ hrules.maxExpires
  allowedHosts x hx := hrules.allowedHosts x (h.allowedHosts.mem_iff.mpr hx)
  allowedMethods x hx := hrules.allowedMethods x (h.allowedMethods.mem_iff.mpr hx)
  allowedPrefixes x hx := hrules.allowedPrefixes x (h.allowedPrefixes.mem_iff.mpr hx)

theorem rules_same (h : SameCredential credential credential') {pre post : List Credential}
    (hrules : Rules settings (pre ++ credential :: post)) :
    Rules settings (pre ++ credential' :: post) := by
  refine { hrules with distinct := ?_, credentials := ?_ }
  · have hdistinct := hrules.distinct
    rw [List.map_append, List.map_cons] at hdistinct ⊢
    rw [← h.accessKey]
    exact hdistinct
  · intro c hc
    rcases List.mem_append.mp hc with hc | hc
    · exact hrules.credentials c (List.mem_append_left _ hc)
    · rcases List.mem_cons.mp hc with rfl | hc
      · exact credentialRules_same h
          (hrules.credentials credential (List.mem_append_right _ List.mem_cons_self))
      · exact hrules.credentials c (List.mem_append_right _ (List.mem_cons_of_mem _ hc))

/-- The three checks of `verify` admit the same. -/
structure AdmitsAlike (c c' : CompiledCredential) : Prop where
  hosts : ∀ host, c.hostAllowed host = c'.hostAllowed host
  methods : ∀ method, c.methodAllowed method = c'.methodAllowed method
  paths : ∀ path, c.pathAllowed path = c'.pathAllowed path

/-- What is compiled does not show the order. -/
theorem admitsAlike_of_same (h : SameCredential credential credential') {d : Duration}
    {c c' : CompiledCredential} (hc : Compiled C d credential c)
    (hc' : Compiled C d credential' c') : AdmitsAlike c c' := by
  refine ⟨fun host => Bool.eq_iff_iff.mpr ?_, fun method => Bool.eq_iff_iff.mpr ?_,
    fun path => Bool.eq_iff_iff.mpr ?_⟩
  · rw [hostAllowed_iff hc, hostAllowed_iff hc']
    simp only [h.allowedHosts.mem_iff]
  · rw [methodAllowed_iff hc, methodAllowed_iff hc']
    unfold AllowsMethod
    simp only [h.allowedMethods.mem_iff, List.eq_nil_iff_forall_not_mem]
  · rw [pathAllowed_iff_allowsPath hc, pathAllowed_iff_allowsPath hc']
    unfold AllowsPath
    simp only [h.allowedPrefixes.mem_iff]

/-- The verifiers that are built with either. -/
theorem new_same (h : SameCredential credential credential') {pre post : List Credential} :
    (∃ v, Verifier.new C settings (pre ++ credential :: post) = ok v)
      ↔ ∃ v, Verifier.new C settings (pre ++ credential' :: post) = ok v := by
  rw [new_isOk_iff, new_isOk_iff]
  exact ⟨rules_same h, rules_same h.symm⟩

end Admitted

/--
**The order of the arguments does not matter.** After any access key, permuted arguments are
accepted alike; the directives differ in the order of their lists only, and are resolved
alike; and with whatever other settings and credentials `Verifier::new` accepts both, with
the same hosts, methods and paths, or neither.
-/
theorem argument_order_irrelevant (C : Crypto) (fs : FileSystem) (accessKey : Str)
    {rest rest' : List Str} (h : rest.Perm rest') :
    ((∃ d, CredentialDirective.parse (accessKey :: rest) = ok d)
        ↔ ∃ d, CredentialDirective.parse (accessKey :: rest') = ok d)
      ∧ ∀ d d', CredentialDirective.parse (accessKey :: rest) = ok d →
        CredentialDirective.parse (accessKey :: rest') = ok d' →
        CredentialDirective.Same d d'
          ∧ ((∃ credential, d.resolve fs = ok credential)
            ↔ ∃ credential, d'.resolve fs = ok credential)
          ∧ ∀ credential credential', d.resolve fs = ok credential →
            d'.resolve fs = ok credential' → ∀ settings pre post,
            ((∃ v, Verifier.new C settings (pre ++ credential :: post) = ok v)
                ↔ ∃ v, Verifier.new C settings (pre ++ credential' :: post) = ok v)
              ∧ ∀ v v', Verifier.new C settings (pre ++ credential :: post) = ok v →
                Verifier.new C settings (pre ++ credential' :: post) = ok v' →
                ∃ c c', v.state.credentials.lookup accessKey.trim = some c
                  ∧ v'.state.credentials.lookup accessKey.trim = some c' ∧ AdmitsAlike c c' := by
  refine ⟨CredentialDirective.parse_perm_iff h, fun d d' hd hd' => ?_⟩
  obtain ⟨e, he, hsame⟩ := CredentialDirective.parse_of_perm h hd
  obtain rfl : d' = e := Outcome.ok.inj (hd'.symm.trans he)
  refine ⟨hsame, resolve_isOk_iff hsame fs, fun credential credential' hc hc' settings pre post => ?_⟩
  obtain ⟨b, hb, hcred⟩ := resolve_same hsame fs hc
  obtain rfl : credential' = b := Outcome.ok.inj (hc'.symm.trans hb)
  refine ⟨new_same hcred, fun v v' hv hv' => ?_⟩
  obtain ⟨c, hlookup, hcompiled⟩ :=
    compiled_of_mem hv (List.mem_append_right pre List.mem_cons_self)
  obtain ⟨c', hlookup', hcompiled'⟩ :=
    compiled_of_mem hv' (List.mem_append_right pre List.mem_cons_self)
  have hkey : credential.accessKey.trim = accessKey.trim := key_of_resolved hd hc
  refine ⟨c, c', ?_, ?_, admitsAlike_of_same hcred hcompiled hcompiled'⟩
  · rw [← hkey]
    exact hlookup
  · rw [← hkey, hcred.accessKey]
    exact hlookup'

/-- The sample's arguments from last to first. -/
theorem argument_order_irrelevant_sample :
    ∃ d, CredentialDirective.parse (.lit " AKIATEST" :: sampleArguments.tail.reverse) = ok d
      ∧ CredentialDirective.Same sampleDirective d := by
  obtain ⟨haccepted, hsame⟩ := argument_order_irrelevant sampleCrypto noFiles (.lit " AKIATEST")
    (List.reverse_perm sampleArguments.tail).symm
  obtain ⟨d, hd⟩ := haccepted.mp ⟨sampleDirective, sampleArguments_parse⟩
  exact ⟨d, hd, (hsame sampleDirective d sampleArguments_parse hd).1⟩

end SigV4
