import SigV4.Proof.Path
import SigV4.Proof.Sign
import SigV4.Spec.Policy
import SigV4.Verifier.Config

/-!
# What the configuration is compiled into

`Compiled` relates a credential of the configuration to the compiled one, field by
field, and `compileState` keeps exactly one compiled credential for each access key.
Nothing an operator wrote is dropped but blank hosts and empty prefixes.
-/

namespace SigV4

open Outcome Ascii Spec

variable {ε : Type}

/-! ## Lists of methods, hosts and prefixes -/

theorem normalizeMethod_eq_ok {s m : Str} :
    normalizeMethod s = ok m ↔ normalMethod s = m ∧ (m = .lit "GET" ∨ m = .lit "HEAD") := by
  unfold normalizeMethod normalMethod
  dsimp only
  split
  · rename_i h
    simp only [Bool.or_eq_true, beq_iff_eq] at h
    refine ⟨?_, ?_⟩
    · intro hm
      have hm := Outcome.ok.inj hm
      exact ⟨hm, hm ▸ h⟩
    · intro hc
      obtain ⟨hm, _⟩ := hc
      rw [hm]
  · rename_i h
    simp only [Bool.or_eq_true, beq_iff_eq] at h
    refine ⟨?_, ?_⟩
    · intro hm
      exact absurd hm (by simp)
    · intro hc
      obtain ⟨rfl, hm⟩ := hc
      exact absurd hm h

theorem normalizeHost_eq_ok {s h : Str} : normalizeHost s = ok h →
    normalHost s = h ∧ h.bytes.any ambiguousInHost = false := by
  unfold normalizeHost normalHost
  dsimp only
  intro heq
  split at heq
  · rename_i he
    have heq := Outcome.ok.inj heq
    refine ⟨heq, ?_⟩
    rw [← heq, Str.isEmpty_iff.mp he]
    rfl
  · split at heq
    · exact absurd heq (by simp)
    · rename_i hany
      have heq := Outcome.ok.inj heq
      exact ⟨heq, heq ▸ Bool.eq_false_iff.mpr hany⟩

/-- **The compiled methods** are the configured ones. -/
theorem mem_compileMethods {methods : List Str} {s : Finset Str}
    (h : compileMethods methods = ok s) (x : Str) :
    x ∈ s ↔ ∃ m ∈ methods, normalMethod m = x := by
  refine foldlM_inv (P := fun pre s => ∀ x, x ∈ s ↔ ∃ m ∈ pre, normalMethod m = x) ?_ ?_ h x
  · intro x
    simp
  · intro pre a t t' hP hstep x
    obtain ⟨n, hn, hins⟩ := bind_eq_ok.mp hstep
    rw [← Outcome.ok.inj hins, Finset.mem_insert, hP x, ← (normalizeMethod_eq_ok.mp hn).1]
    simp only [List.mem_append, List.mem_singleton]
    refine ⟨?_, ?_⟩
    · intro hc
      rcases hc with rfl | ⟨m, hm, hx⟩
      · exact ⟨a, Or.inr rfl, rfl⟩
      · exact ⟨m, Or.inl hm, hx⟩
    · intro hc
      obtain ⟨m, hm | rfl, hx⟩ := hc
      · exact Or.inr ⟨m, hm, hx⟩
      · exact Or.inl hx.symm

/-- Only `GET` and `HEAD` can be configured. -/
theorem compileMethods_supported {methods : List Str} {s : Finset Str}
    (h : compileMethods methods = ok s) : ∀ m ∈ methods,
      normalMethod m = .lit "GET" ∨ normalMethod m = .lit "HEAD" := by
  refine foldlM_inv (P := fun pre _ => ∀ m ∈ pre,
    normalMethod m = .lit "GET" ∨ normalMethod m = .lit "HEAD") ?_ ?_ h
  · intro m hm
    exact absurd hm List.not_mem_nil
  · intro pre a t t' hP hstep m hm
    obtain ⟨n, hn, _⟩ := bind_eq_ok.mp hstep
    rcases List.mem_append.mp hm with hm | hm
    · exact hP m hm
    · obtain ⟨h1, h2⟩ := normalizeMethod_eq_ok.mp hn
      rw [List.mem_singleton.mp hm, h1]
      exact h2

/-- **The compiled hosts** are the configured ones that are not blank. -/
theorem mem_compileHosts {hosts : List Str} {s : Finset Str} (h : compileHosts hosts = ok s)
    (x : Str) : x ∈ s ↔ x.bytes ≠ [] ∧ ∃ a ∈ hosts, normalHost a = x := by
  refine foldlM_inv (P := fun pre s => ∀ x, x ∈ s ↔ x.bytes ≠ [] ∧ ∃ a ∈ pre, normalHost a = x)
    ?_ ?_ h x
  · intro x
    simp
  · intro pre a t t' hP hstep x
    obtain ⟨n, hn, hins⟩ := bind_eq_ok.mp hstep
    have hna := (normalizeHost_eq_ok hn).1
    simp only [List.mem_append, List.mem_singleton]
    by_cases he : n.isEmpty = true
    · -- a blank host is dropped
      have hb := Str.isEmpty_iff.mp he
      rw [if_pos he] at hins
      rw [← Outcome.ok.inj hins, hP x]
      refine ⟨?_, ?_⟩
      · intro hc
        obtain ⟨hx, b, hbm, hbx⟩ := hc
        exact ⟨hx, b, Or.inl hbm, hbx⟩
      · intro hc
        obtain ⟨hx, b, hbm | rfl, hbx⟩ := hc
        · exact ⟨hx, b, hbm, hbx⟩
        · exact absurd ((congrArg Str.bytes (hbx.symm.trans hna)).trans hb) hx
    · have hb : n.bytes ≠ [] := fun h => he (Str.isEmpty_iff.mpr h)
      rw [if_neg he] at hins
      rw [← Outcome.ok.inj hins, Finset.mem_insert, hP x]
      refine ⟨?_, ?_⟩
      · intro hc
        rcases hc with rfl | ⟨hx, b, hbm, hbx⟩
        · exact ⟨hb, a, Or.inr rfl, hna⟩
        · exact ⟨hx, b, Or.inl hbm, hbx⟩
      · intro hc
        obtain ⟨hx, b, hbm | rfl, hbx⟩ := hc
        · exact Or.inr ⟨hx, b, hbm, hbx⟩
        · exact Or.inl (hbx.symm.trans hna)

/-- What the loop over the prefixes has collected. -/
structure Collected (pre : List Bytes) (acc : List Bytes × Finset Bytes) : Prop where
  seen : ∀ x, x ∈ acc.2 ↔ x ∈ acc.1
  nodup : acc.1.Nodup
  valid : ∀ x ∈ acc.1, ValidPath x
  mem : ∀ x, x ∈ acc.1 ↔ x ≠ [] ∧ x ∈ pre

theorem collected_step {pre : List Bytes} {a : Bytes} {t t' : List Bytes × Finset Bytes}
    (h : Collected pre t) (hstep : pushPrefix t a = ok t') : Collected (pre ++ [a]) t' := by
  unfold pushPrefix at hstep
  by_cases he : a = []
  · -- an empty prefix is skipped
    rw [if_pos (by simpa using he)] at hstep
    obtain rfl := Outcome.ok.inj hstep
    refine ⟨h.seen, h.nodup, h.valid, fun x => ?_⟩
    rw [h.mem x, List.mem_append, List.mem_singleton]
    refine ⟨?_, ?_⟩
    · exact fun hx => ⟨hx.1, Or.inl hx.2⟩
    · intro hcase
      obtain ⟨hx, hm | rfl⟩ := hcase
      · exact ⟨hx, hm⟩
      · exact absurd he hx
  · rw [if_neg (by simpa using he)] at hstep
    obtain ⟨_, hva, hstep⟩ := bind_eq_ok.mp hstep
    have hvalid : ValidPath a := by
      by_contra hn
      rw [validateRawPath_exit hn] at hva
      exact absurd hva (by simp)
    by_cases hm : a ∈ t.2
    · -- a repeated prefix is kept once
      have hin := (h.mem a).mp ((h.seen a).mp hm)
      rw [if_pos hm] at hstep
      obtain rfl := Outcome.ok.inj hstep
      refine ⟨h.seen, h.nodup, h.valid, fun x => ?_⟩
      rw [h.mem x, List.mem_append, List.mem_singleton]
      refine ⟨?_, ?_⟩
      · exact fun hx => ⟨hx.1, Or.inl hx.2⟩
      · intro hcase
        obtain ⟨hx, hxm | rfl⟩ := hcase
        · exact ⟨hx, hxm⟩
        · exact hin
    · have hnew : a ∉ t.1 := fun hc => hm ((h.seen a).mpr hc)
      rw [if_neg hm] at hstep
      obtain rfl := Outcome.ok.inj hstep
      refine ⟨fun x => ?_, ?_, fun x hx => ?_, fun x => ?_⟩
      · rw [Finset.mem_insert, List.mem_append, List.mem_singleton, h.seen x]
        exact Or.comm
      · rw [List.nodup_append]
        refine ⟨h.nodup, List.nodup_singleton a, fun x hx y hy => ?_⟩
        rw [List.mem_singleton.mp hy]
        exact fun hc => hnew (hc ▸ hx)
      · rcases List.mem_append.mp hx with hx | hx
        · exact h.valid x hx
        · rw [List.mem_singleton.mp hx]
          exact hvalid
      · rw [List.mem_append, List.mem_append, List.mem_singleton, h.mem x]
        refine ⟨?_, ?_⟩
        · intro hcase
          rcases hcase with hx | rfl
          · exact ⟨hx.1, Or.inl hx.2⟩
          · exact ⟨he, Or.inr rfl⟩
        · intro hcase
          obtain ⟨hx, hxm | rfl⟩ := hcase
          · exact Or.inl ⟨hx, hxm⟩
          · exact Or.inr rfl

/-- **The compiled prefixes** are the configured ones that are not empty, each of them
valid and kept once. -/
theorem compilePrefixes_eq_ok {prefixes l : List Bytes} (h : compilePrefixes prefixes = ok l) :
    (∀ x, x ∈ l ↔ x ≠ [] ∧ x ∈ prefixes) ∧ (∀ x ∈ l, ValidPath x) ∧ l.Nodup := by
  obtain ⟨acc, hacc, hl⟩ := bind_eq_ok.mp h
  have hstart : Collected [] (([], ∅) : List Bytes × Finset Bytes) :=
    ⟨by simp, List.nodup_nil, by simp, by simp⟩
  have hc : Collected prefixes acc :=
    foldlM_inv (P := Collected) hstart (fun _ _ _ _ hP hs => collected_step hP hs) hacc
  rw [← Outcome.ok.inj hl]
  exact ⟨hc.mem, hc.valid, hc.nodup⟩

/-! ## A credential -/

/-- A compiled credential is what its configuration says. -/
structure Compiled (C : Crypto) (defaultMaxExpires : Duration) (credential : Credential)
    (c : CompiledCredential) : Prop where
  accessKey : c.accessKey = credential.accessKey.trim
  accessKey_ne : c.accessKey.bytes ≠ []
  accessKeyHash : c.accessKeyHash = Spec.accessKeyHash C c.accessKey
  secret_ne : credential.secretKey.bytes ≠ []
  secretSeed : c.secretSeed = bytes "AWS4" ++ credential.secretKey.bytes
  enabled : c.enabled = credential.enabled
  maxExpires : c.maxExpires
    = if credential.maxExpires.isZero then defaultMaxExpires else credential.maxExpires
  maxExpires_pos : c.maxExpires.isZero = false
  maxExpires_le : maxSigv4Expires.lt c.maxExpires = false
  allowedHosts : ∀ x, x ∈ c.allowedHosts
    ↔ x.bytes ≠ [] ∧ ∃ h ∈ credential.allowedHosts, normalHost h = x
  allowedMethods : ∀ x, x ∈ c.allowedMethods
    ↔ ∃ m ∈ credential.allowedMethods, normalMethod m = x
  allowedPrefixes : ∀ x, x ∈ c.allowedPrefixes ↔ x ≠ [] ∧ x ∈ credential.allowedPrefixes
  validPrefixes : ∀ x ∈ c.allowedPrefixes, ValidPath x
  prefixes_nodup : c.allowedPrefixes.Nodup
  signingCache : c.signingCache = ⟨[], false⟩

/-- **`compile_credential` compiles what the configuration says.** -/
theorem compileCredential_eq_ok {C : Crypto} {credential : Credential} {d : Duration}
    {c : CompiledCredential} (h : compileCredential C credential d = ok c) :
    Compiled C d credential c := by
  unfold compileCredential at h
  obtain ⟨_, hkey, h⟩ := bind_eq_ok.mp h
  obtain ⟨_, hsecret, h⟩ := bind_eq_ok.mp h
  obtain ⟨_, hmax, h⟩ := bind_eq_ok.mp h
  obtain ⟨hosts, hhosts, h⟩ := bind_eq_ok.mp h
  obtain ⟨methods, hmethods, h⟩ := bind_eq_ok.mp h
  obtain ⟨prefixes, hprefixes, h⟩ := bind_eq_ok.mp h
  obtain ⟨hash, hhash, h⟩ := bind_eq_ok.mp h
  have hkey := exitIf_eq_ok.mp hkey
  have hsecret := exitIf_eq_ok.mp hsecret
  have hmax := exitIf_eq_ok.mp hmax
  rw [Bool.or_eq_false_iff] at hmax
  rw [hashAccessKey_eq] at hhash
  obtain ⟨hp1, hp2, hp3⟩ := compilePrefixes_eq_ok hprefixes
  rw [← Outcome.ok.inj h]
  exact {
    accessKey := rfl
    accessKey_ne := fun he => by rw [Str.isEmpty_iff.mpr he] at hkey; exact Bool.noConfusion hkey
    accessKeyHash := (Outcome.ok.inj hhash).symm
    secret_ne := fun he => by rw [Str.isEmpty_iff.mpr he] at hsecret; exact Bool.noConfusion hsecret
    secretSeed := rfl
    enabled := rfl
    maxExpires := rfl
    maxExpires_pos := hmax.1
    maxExpires_le := hmax.2
    allowedHosts := mem_compileHosts hhosts
    allowedMethods := mem_compileMethods hmethods
    allowedPrefixes := hp1
    validPrefixes := hp2
    prefixes_nodup := hp3
    signingCache := rfl }

/-- A compiled credential has no keys yet. -/
theorem Compiled.scopes {C : Crypto} {d : Duration} {credential : Credential}
    {c : CompiledCredential} (h : Compiled C d credential c) : c.scopes = [] := by
  unfold CompiledCredential.scopes
  rw [h.signingCache]
  rfl

theorem Compiled.cacheOk {C : Crypto} {d : Duration} {credential : Credential}
    {c : CompiledCredential} (h : Compiled C d credential c) : CacheOk C c := by
  have herase : c.erase = c := by
    unfold CompiledCredential.erase
    rw [← h.signingCache]
  have hok := cacheOk_erase C c
  rw [herase] at hok
  exact hok

/-! ## The state -/

/-- What the loop over the credentials has compiled. -/
structure Installed (C : Crypto) (d : Duration) (pre : List Credential)
    (map : AList (fun _ : Str => CompiledCredential)) : Prop where
  /-- Every credential compiles. -/
  compiles : ∀ credential ∈ pre, ∃ c, compileCredential C credential d = ok c
  /-- No two have one access key. -/
  distinct : (pre.map fun credential => credential.accessKey.trim).Nodup
  /-- The map finds each by its access key, and finds nothing else. -/
  find : ∀ accessKey c, map.lookup accessKey = some c
    ↔ ∃ credential ∈ pre, credential.accessKey.trim = accessKey
      ∧ compileCredential C credential d = ok c

theorem installed_step {C : Crypto} {d : Duration} {pre : List Credential} {a : Credential}
    {map map' : AList (fun _ : Str => CompiledCredential)} (h : Installed C d pre map)
    (hstep : insertCredential C d map a = ok map') : Installed C d (pre ++ [a]) map' := by
  obtain ⟨c, hc, hins⟩ := bind_eq_ok.mp hstep
  have hkey := (compileCredential_eq_ok hc).accessKey
  by_cases hm : c.accessKey ∈ map
  · rw [if_pos hm] at hins
    exact absurd hins (by simp)
  · rw [if_neg hm] at hins
    obtain rfl := Outcome.ok.inj hins
    have hnone : map.lookup c.accessKey = none := AList.lookup_eq_none.mpr hm
    -- no credential before this one has its access key
    have hnew : ∀ credential ∈ pre, credential.accessKey.trim ≠ c.accessKey := by
      intro credential hcr hk
      obtain ⟨c', hc'⟩ := h.compiles credential hcr
      have := (h.find c.accessKey c').mpr ⟨credential, hcr, hk, hc'⟩
      rw [hnone] at this
      exact absurd this (by simp)
    refine ⟨fun credential hcr => ?_, ?_, fun accessKey x => ?_⟩
    · rcases List.mem_append.mp hcr with hcr | hcr
      · exact h.compiles credential hcr
      · rw [List.mem_singleton.mp hcr]
        exact ⟨c, hc⟩
    · rw [List.map_append, List.nodup_append]
      refine ⟨h.distinct, List.nodup_singleton _, fun x hx y hy => ?_⟩
      obtain ⟨credential, hcr, rfl⟩ := List.mem_map.mp hx
      rw [List.map_singleton, List.mem_singleton] at hy
      rw [hy, ← hkey]
      exact hnew credential hcr
    · by_cases hk : accessKey = c.accessKey
      · subst hk
        rw [AList.lookup_insert]
        refine ⟨?_, ?_⟩
        · intro hx
          rw [← Option.some.inj hx]
          exact ⟨a, by simp, hkey.symm, hc⟩
        · intro hcase
          obtain ⟨credential, hcr, hk, hx⟩ := hcase
          rcases List.mem_append.mp hcr with hcr | hcr
          · exact absurd hk (hnew credential hcr)
          · rw [List.mem_singleton.mp hcr, hc] at hx
            rw [Outcome.ok.inj hx]
      · rw [AList.lookup_insert_ne hk, h.find accessKey x]
        refine ⟨?_, ?_⟩
        · intro hcase
          obtain ⟨credential, hcr, hkx, hx⟩ := hcase
          exact ⟨credential, List.mem_append_left _ hcr, hkx, hx⟩
        · intro hcase
          obtain ⟨credential, hcr, hkx, hx⟩ := hcase
          rcases List.mem_append.mp hcr with hcr | hcr
          · exact ⟨credential, hcr, hkx, hx⟩
          · rw [List.mem_singleton.mp hcr, ← hkey] at hkx
            exact absurd hkx.symm hk

/-- A state is what its configuration says. -/
structure CompiledState (C : Crypto) (settings : Settings) (credentials : List Credential)
    (st : State) : Prop where
  effective : st.settings = effectiveSettings settings
  service : st.settings.supportedService = .lit "s3"
  supportedMethods : ∀ x, x ∈ st.supportedMethods ↔ Supported settings x
  installed : Installed C (defaultMaxExpires settings) credentials st.credentials

theorem normalMethod_get : normalMethod (.lit "GET") = .lit "GET" := Str.ext (by decide)

theorem normalMethod_head : normalMethod (.lit "HEAD") = .lit "HEAD" := Str.ext (by decide)

/-- **`compile_state` compiles what the configuration says.** -/
theorem compileState_eq_ok {C : Crypto} {settings : Settings} {credentials : List Credential}
    {st : State} (h : compileState C settings credentials = ok st) :
    CompiledState C settings credentials st := by
  unfold compileState at h
  obtain ⟨_, hservice, h⟩ := bind_eq_ok.mp h
  obtain ⟨methods, hmethods, h⟩ := bind_eq_ok.mp h
  obtain ⟨map, hmap, h⟩ := bind_eq_ok.mp h
  have hservice := exitIf_eq_ok.mp hservice
  have hstart : Installed C (defaultMaxExpires settings) []
      (∅ : AList (fun _ : Str => CompiledCredential)) :=
    ⟨by simp, List.nodup_nil, by simp⟩
  have hinst : Installed C (defaultMaxExpires settings) credentials map :=
    foldlM_inv (P := Installed C (defaultMaxExpires settings)) hstart
      (fun _ _ _ _ hP hs => installed_step hP hs) hmap
  rw [← Outcome.ok.inj h]
  refine ⟨rfl, by simpa using hservice, fun x => ?_, hinst⟩
  dsimp only
  rw [mem_compileMethods hmethods x]
  unfold effectiveSettings Supported
  dsimp only
  by_cases he : settings.supportedMethods = []
  · rw [if_pos (by simpa using he), if_pos he]
    simp only [List.mem_cons, List.not_mem_nil, or_false, exists_eq_or_imp, exists_eq_left,
      normalMethod_get, normalMethod_head]
    exact or_congr eq_comm eq_comm
  · rw [if_neg (by simpa using he), if_neg he]

/-- Supported methods are `GET` and `HEAD` at most. -/
theorem supported_get_or_head {C : Crypto} {settings : Settings} {credentials : List Credential}
    {st : State} (h : compileState C settings credentials = ok st) {x : Str}
    (hx : x ∈ st.supportedMethods) : x = .lit "GET" ∨ x = .lit "HEAD" := by
  unfold compileState at h
  obtain ⟨_, _, h⟩ := bind_eq_ok.mp h
  obtain ⟨methods, hmethods, h⟩ := bind_eq_ok.mp h
  obtain ⟨map, _, h⟩ := bind_eq_ok.mp h
  rw [← Outcome.ok.inj h] at hx
  obtain ⟨m, hm, rfl⟩ := (mem_compileMethods hmethods x).mp hx
  exact compileMethods_supported hmethods m hm

theorem new_eq_ok {C : Crypto} {settings : Settings} {credentials : List Credential}
    {v : Verifier} : Verifier.new C settings credentials = ok v
      ↔ compileState C settings credentials = ok v.state := by
  unfold Verifier.new
  refine ⟨?_, ?_⟩
  · intro h
    obtain ⟨st, hst, hv⟩ := bind_eq_ok.mp h
    rw [hst, ← Outcome.ok.inj hv]
  · intro h
    rw [h]; rfl

theorem reload_eq_new (C : Crypto) (v : Verifier) (settings : Settings)
    (credentials : List Credential) :
    v.reload C settings credentials = Verifier.new C settings credentials := rfl

end SigV4
