import SigV4.Lib.Trim
import SigV4.Proof.Config
import SigV4.Spec.Rules

/-!
# What is accepted

`Verifier::new` accepts exactly the configurations that keep the rules, whatever their order
and whatever has a default.
-/

namespace SigV4

open Outcome Ascii Spec

variable {C : Crypto}

theorem any_ambiguousInHost {v : Bytes} :
    v.any ambiguousInHost = false ↔ ∀ b ∈ v, b ∉ hostSeparators := by
  rw [List.any_eq_false]
  refine forall₂_congr fun b _ => not_congr ?_
  simp [ambiguousInHost, hostSeparators, or_assoc]

/-! ## The lists of a credential -/

theorem compileMethods_isOk_iff {methods : List Str} :
    (∃ s, compileMethods methods = ok s) ↔ ∀ m ∈ methods, IsMethod (normalMethod m) := by
  refine foldlM_isOk_iff (fun t m => ?_) methods ∅
  refine ⟨?_, ?_⟩
  · intro hc
    obtain ⟨t', h⟩ := hc
    obtain ⟨n, hn, _⟩ := bind_eq_ok.mp h
    obtain ⟨rfl, hm⟩ := normalizeMethod_eq_ok.mp hn
    exact hm
  · intro hm
    have hn : normalizeMethod m = ok (normalMethod m) := normalizeMethod_eq_ok.mpr ⟨rfl, hm⟩
    exact ⟨insert (normalMethod m) t, by rw [insertMethod, hn]; rfl⟩

theorem normalizeHost_isOk_iff {host : Str} :
    (∃ h, normalizeHost host = ok h) ↔ ∀ b ∈ (normalHost host).bytes, b ∉ hostSeparators := by
  rw [← any_ambiguousInHost]
  unfold normalizeHost normalHost
  dsimp only
  split
  · rename_i hempty
    rw [Str.isEmpty_iff.mp hempty]
    simp
  · cases host.trim.toAsciiLowercase.bytes.any ambiguousInHost <;> simp

theorem compileHosts_isOk_iff {hosts : List Str} :
    (∃ s, compileHosts hosts = ok s)
      ↔ ∀ h ∈ hosts, ∀ b ∈ (normalHost h).bytes, b ∉ hostSeparators := by
  refine foldlM_isOk_iff (fun t host => ?_) hosts ∅
  rw [← normalizeHost_isOk_iff, insertHost]
  refine ⟨?_, ?_⟩
  · intro hc
    obtain ⟨t', h⟩ := hc
    obtain ⟨n, hn, _⟩ := bind_eq_ok.mp h
    exact ⟨n, hn⟩
  · intro hc
    obtain ⟨n, hn⟩ := hc
    rw [hn, ok_bind]
    split <;> exact ⟨_, rfl⟩

theorem compilePrefixes_isOk_iff {prefixes : List Bytes} :
    (∃ l, compilePrefixes prefixes = ok l) ↔ ∀ p ∈ prefixes, p = [] ∨ ValidPath p := by
  have hfold : (∃ acc, prefixes.foldlM pushPrefix ([], ∅) = ok acc)
      ↔ ∀ p ∈ prefixes, p = [] ∨ ValidPath p := by
    refine foldlM_isOk_iff (fun t p => ?_) prefixes ([], ∅)
    unfold pushPrefix
    by_cases hp : p = []
    · rw [if_pos (List.isEmpty_iff.mpr hp)]
      exact ⟨fun _ => Or.inl hp, fun _ => ⟨t, rfl⟩⟩
    · rw [if_neg (fun h => hp (List.isEmpty_iff.mp h))]
      by_cases hv : ValidPath p
      · rw [validateRawPath_ok hv, mapExit_ok, ok_bind]
        refine ⟨fun _ => Or.inr hv, fun _ => ?_⟩
        split <;> exact ⟨_, rfl⟩
      · rw [validateRawPath_exit hv, mapExit_exit, exit_bind]
        simp [hp, hv]
  rw [← hfold]
  unfold compilePrefixes
  refine ⟨?_, ?_⟩
  · intro hc
    obtain ⟨l, h⟩ := hc
    obtain ⟨acc, hacc, _⟩ := bind_eq_ok.mp h
    exact ⟨acc, hacc⟩
  · intro hc
    obtain ⟨acc, hacc⟩ := hc
    exact ⟨acc.1, by rw [hacc]; rfl⟩

/-! ## A credential -/

/-- A default that is usable. -/
structure UsableDefault (d : Duration) : Prop where
  pos : 0 < nanoseconds d
  le : nanoseconds d ≤ sevenDays

theorem usableDefault_defaultMaxExpires (settings : Settings) :
    UsableDefault (defaultMaxExpires settings) := by
  unfold defaultMaxExpires
  by_cases h : (settings.defaultMaxExpires.isZero
      || maxSigv4Expires.lt settings.defaultMaxExpires) = true
  · rw [if_pos h]
    refine ⟨?_, ?_⟩
    · rw [maxSigv4Expires_nanoseconds]
      decide
    · rw [maxSigv4Expires_nanoseconds]
  · rw [if_neg h]
    rw [Bool.not_eq_true, Bool.or_eq_false_iff] at h
    refine ⟨isZero_eq_false_iff.mp h.1, ?_⟩
    rw [← maxSigv4Expires_nanoseconds]
    exact lt_eq_false_iff.mp h.2

/-- The test on the greatest expiry looks at the configured one only. -/
theorem maxExpires_check {d m : Duration} (hd : UsableDefault d) :
    ((if m.isZero then d else m).isZero || maxSigv4Expires.lt (if m.isZero then d else m)) = false
      ↔ nanoseconds m ≤ sevenDays := by
  rw [Bool.or_eq_false_iff, isZero_eq_false_iff, lt_eq_false_iff, maxSigv4Expires_nanoseconds]
  cases hz : m.isZero with
  | true =>
      have hzero : ¬0 < nanoseconds m := by
        rw [← isZero_eq_false_iff, hz]
        exact Bool.noConfusion
      rw [if_pos rfl]
      refine ⟨fun _ => by omega, fun _ => ⟨hd.pos, hd.le⟩⟩
  | false =>
      rw [if_neg Bool.false_ne_true]
      exact ⟨fun h => h.2, fun h => ⟨isZero_eq_false_iff.mp hz, h⟩⟩

/-- **A credential compiles** when it keeps its rules. -/
theorem compileCredential_isOk_iff {credential : Credential} {d : Duration} (hd : UsableDefault d) :
    (∃ c, compileCredential C credential d = ok c) ↔ CredentialRules credential := by
  refine ⟨?_, ?_⟩
  · intro hcase
    obtain ⟨c, h⟩ := hcase
    have hc := compileCredential_eq_ok h
    unfold compileCredential at h
    obtain ⟨_, _, h⟩ := bind_eq_ok.mp h
    obtain ⟨_, _, h⟩ := bind_eq_ok.mp h
    obtain ⟨_, hmax, h⟩ := bind_eq_ok.mp h
    obtain ⟨hosts, hhosts, h⟩ := bind_eq_ok.mp h
    obtain ⟨methods, hmethods, h⟩ := bind_eq_ok.mp h
    obtain ⟨prefixes, hprefixes, _⟩ := bind_eq_ok.mp h
    exact {
      accessKey := hc.accessKey ▸ hc.accessKey_ne
      secretKey := hc.secret_ne
      maxExpires := (maxExpires_check hd).mp (exitIf_eq_ok.mp hmax)
      allowedHosts := compileHosts_isOk_iff.mp ⟨hosts, hhosts⟩
      allowedMethods := compileMethods_isOk_iff.mp ⟨methods, hmethods⟩
      allowedPrefixes := compilePrefixes_isOk_iff.mp ⟨prefixes, hprefixes⟩ }
  · intro h
    obtain ⟨hosts, hhosts⟩ := compileHosts_isOk_iff.mpr h.allowedHosts
    obtain ⟨methods, hmethods⟩ := compileMethods_isOk_iff.mpr h.allowedMethods
    obtain ⟨prefixes, hprefixes⟩ := compilePrefixes_isOk_iff.mpr h.allowedPrefixes
    have hkey : credential.accessKey.trim.isEmpty = false := by
      rw [Bool.eq_false_iff]
      exact fun he => h.accessKey (Str.isEmpty_iff.mp he)
    have hsecret : credential.secretKey.isEmpty = false := by
      rw [Bool.eq_false_iff]
      exact fun he => h.secretKey (Str.isEmpty_iff.mp he)
    unfold compileCredential
    dsimp only
    rw [hkey, exitIf_false, ok_bind, hsecret, exitIf_false, ok_bind,
      (maxExpires_check hd).mpr h.maxExpires, exitIf_false, ok_bind, hhosts, ok_bind, hmethods,
      ok_bind, hprefixes, ok_bind, hashAccessKey_eq, ok_bind]
    exact ⟨_, rfl⟩

/-! ## The state -/

/-- Credentials that compile, with access keys of their own, are all inserted. -/
theorem insertCredentials_isOk {d : Duration} : ∀ (l pre : List Credential)
    (map : AList (fun _ : Str => CompiledCredential)), Installed C d pre map →
    (∀ credential ∈ l, ∃ c, compileCredential C credential d = ok c) →
    ((pre ++ l).map fun credential => credential.accessKey.trim).Nodup →
    ∃ map', l.foldlM (insertCredential C d) map = ok map'
  | [], _, map, _, _, _ => ⟨map, rfl⟩
  | a :: l, pre, map, h, hall, hnodup => by
      obtain ⟨c, hc⟩ := hall a List.mem_cons_self
      have hkey := (compileCredential_eq_ok hc).accessKey
      have hnew : c.accessKey ∉ map := by
        intro hm
        obtain ⟨c', hc'⟩ := Option.isSome_iff_exists.mp (AList.lookup_isSome.mpr hm)
        obtain ⟨b, hb, hbk, _⟩ := (h.find _ _).mp hc'
        rw [List.map_append, List.nodup_append] at hnodup
        exact hnodup.2.2 _ (List.mem_map_of_mem hb) _ (List.mem_map_of_mem List.mem_cons_self)
          (hbk.trans hkey)
      have hstep : insertCredential C d map a = ok (map.insert c.accessKey c) := by
        unfold insertCredential
        rw [hc, ok_bind, if_neg hnew]
      rw [List.append_cons] at hnodup
      obtain ⟨map', hmap'⟩ := insertCredentials_isOk l (pre ++ [a]) _ (installed_step h hstep)
        (fun b hb => hall b (List.mem_cons_of_mem _ hb)) hnodup
      exact ⟨map', by rw [List.foldlM_cons, hstep, ok_bind, hmap']⟩

theorem effectiveService_eq {settings : Settings} :
    ((effectiveSettings settings).supportedService != .lit "s3") = false
      ↔ settings.supportedService.trim.bytes = [] ∨ settings.supportedService.trim = .lit "s3" := by
  unfold effectiveSettings
  dsimp only
  rw [bne_eq_false_iff_eq]
  by_cases he : settings.supportedService.trim.isEmpty = true
  · rw [if_pos he]
    exact ⟨fun _ => Or.inl (Str.isEmpty_iff.mp he), fun _ => rfl⟩
  · rw [if_neg he]
    exact ⟨Or.inr, fun h => h.resolve_left fun hb => he (Str.isEmpty_iff.mpr hb)⟩

theorem effectiveMethods_iff {settings : Settings} :
    (∀ m ∈ (effectiveSettings settings).supportedMethods, IsMethod (normalMethod m))
      ↔ ∀ m ∈ settings.supportedMethods, IsMethod (normalMethod m) := by
  unfold effectiveSettings
  dsimp only
  by_cases he : settings.supportedMethods.isEmpty = true
  · rw [if_pos he, List.isEmpty_iff.mp he]
    refine ⟨fun _ m hm => absurd hm List.not_mem_nil, fun _ m hm => ?_⟩
    rcases List.mem_cons.mp hm with rfl | hm
    · exact Or.inl normalMethod_get
    · rw [List.mem_singleton.mp hm]
      exact Or.inr normalMethod_head
  · rw [if_neg he]

theorem installed_nil (C : Crypto) (d : Duration) :
    Installed C d [] (∅ : AList (fun _ : Str => CompiledCredential)) :=
  ⟨by simp, List.nodup_nil, by simp⟩

/-- **`Verifier::new` accepts** exactly what keeps the rules. -/
theorem new_isOk_iff {settings : Settings} {credentials : List Credential} :
    (∃ v, Verifier.new C settings credentials = ok v) ↔ Rules settings credentials := by
  have hdefault := usableDefault_defaultMaxExpires settings
  refine ⟨?_, ?_⟩
  · intro hcase
    obtain ⟨v, h⟩ := hcase
    have hstate := new_eq_ok.mp h
    have hinstalled := (compileState_eq_ok hstate).installed
    unfold compileState at hstate
    obtain ⟨_, hservice, hstate⟩ := bind_eq_ok.mp hstate
    obtain ⟨methods, hmethods, _⟩ := bind_eq_ok.mp hstate
    exact {
      service := effectiveService_eq.mp (exitIf_eq_ok.mp hservice)
      supportedMethods := effectiveMethods_iff.mp (compileMethods_isOk_iff.mp ⟨methods, hmethods⟩)
      credentials := fun c hc => (compileCredential_isOk_iff hdefault).mp (hinstalled.compiles c hc)
      distinct := hinstalled.distinct }
  · intro h
    obtain ⟨methods, hmethods⟩ :=
      compileMethods_isOk_iff.mpr (effectiveMethods_iff.mpr h.supportedMethods)
    obtain ⟨map, hmap⟩ := insertCredentials_isOk credentials [] ∅
      (installed_nil C (defaultMaxExpires settings))
      (fun c hc => (compileCredential_isOk_iff hdefault).mpr (h.credentials c hc)) h.distinct
    have hmap' : credentials.foldlM (insertCredential C (effectiveSettings settings).defaultMaxExpires) ∅
        = ok map := hmap
    refine ⟨⟨⟨effectiveSettings settings, map, methods⟩⟩, new_eq_ok.mpr ?_⟩
    unfold compileState
    dsimp only
    rw [effectiveService_eq.mpr h.service, exitIf_false, ok_bind, hmethods, ok_bind, hmap', ok_bind]

end SigV4
