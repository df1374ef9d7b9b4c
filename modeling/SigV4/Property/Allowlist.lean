import SigV4.Property.Directive

/-!
# Lists that lose their entries

The core skips hosts that are blank and prefixes that are empty, and reads a list with
nothing left as one that was never given. So a credential whose list names something is
restricted to what it names, and one whose list names nothing is not restricted at all.
-/

namespace SigV4

open Outcome Ascii Spec

/-- A list that is given restricts what is admitted: hosts to those it names, as they are
compared, and paths to those that extend a prefix at a segment boundary. -/
structure Restricts (credential : Credential) (c : CompiledCredential) : Prop where
  hosts : credential.allowedHosts ≠ [] → ∀ host, c.hostAllowed host = true →
    ∃ a ∈ credential.allowedHosts, normalHost a = host
  prefixes : credential.allowedPrefixes ≠ [] → ∀ path, c.pathAllowed path = true →
    ∃ q ∈ credential.allowedPrefixes, Extends path q

/-- A list that is given names something: a host that is not blank, a prefix that is not
empty. -/
structure NamesSome (credential : Credential) : Prop where
  hosts : credential.allowedHosts = [] ∨ ∃ a ∈ credential.allowedHosts, a.trim.bytes ≠ []
  prefixes : credential.allowedPrefixes = [] ∨ ∃ q ∈ credential.allowedPrefixes, q ≠ []

theorem normalHost_eq_nil {a : Str} : (normalHost a).bytes = [] ↔ a.trim.bytes = [] := by
  unfold normalHost
  rw [Str.toAsciiLowercase_bytes, List.map_eq_nil_iff]

section

variable {C : Crypto} {d : Duration} {credential : Credential} {c : CompiledCredential}

/-- A list of blank hosts admits a host it does not name. -/
theorem named_of_hosts (h : Compiled C d credential c)
    (hrestricts : ∀ host, c.hostAllowed host = true →
      ∃ a ∈ credential.allowedHosts, normalHost a = host) :
    ∃ a ∈ credential.allowedHosts, a.trim.bytes ≠ [] := by
  by_contra hno
  have hblank : ∀ a ∈ credential.allowedHosts, (normalHost a).bytes = [] := by
    intro a ha
    by_contra hc
    exact hno ⟨a, ha, fun hb => hc (normalHost_eq_nil.mpr hb)⟩
  -- any host is admitted, this one among them
  obtain ⟨a, ha, he⟩ := hrestricts (.lit "h") ((hostAllowed_iff h _).mpr (Or.inl hblank))
  have hnil := hblank a ha
  rw [he] at hnil
  exact absurd hnil (by decide)

/-- A list of empty prefixes admits a path that extends none of them. -/
theorem named_of_prefixes (h : Compiled C d credential c)
    (hrestricts : ∀ path, c.pathAllowed path = true →
      ∃ q ∈ credential.allowedPrefixes, Extends path q) :
    ∃ q ∈ credential.allowedPrefixes, q ≠ [] := by
  by_contra hno
  have hempty : ∀ q ∈ credential.allowedPrefixes, q = [] := by
    intro q hq
    by_contra hc
    exact hno ⟨q, hq, hc⟩
  -- a path without a slash is admitted too, and extends no empty prefix
  obtain ⟨q, hq, hext⟩ := hrestricts (bytes "p")
    ((pathAllowed_iff_allowsPath h _).mpr (Or.inl hempty))
  rw [hempty q hq, ← pathMatchesPrefix_iff] at hext
  exact absurd hext (by decide)

/-- **A compiled credential is restricted** by its lists exactly when these name something. -/
theorem restricts_iff (h : Compiled C d credential c) :
    Restricts credential c ↔ NamesSome credential := by
  refine ⟨?_, ?_⟩
  · intro hr
    refine ⟨?_, ?_⟩
    · by_cases hne : credential.allowedHosts = []
      · exact Or.inl hne
      · exact Or.inr (named_of_hosts h (hr.hosts hne))
    · by_cases hne : credential.allowedPrefixes = []
      · exact Or.inl hne
      · exact Or.inr (named_of_prefixes h (hr.prefixes hne))
  · intro hn
    refine ⟨fun hne host hadmitted => ?_, fun hne path hadmitted => ?_⟩
    · obtain ⟨a, ha, hname⟩ := hn.hosts.resolve_left hne
      rcases (hostAllowed_iff h host).mp hadmitted with hblank | ⟨_, hnamed⟩
      · exact absurd (normalHost_eq_nil.mp (hblank a ha)) hname
      · exact hnamed
    · obtain ⟨q, hq, hname⟩ := hn.prefixes.resolve_left hne
      rcases (pathAllowed_iff_allowsPath h path).mp hadmitted with hempty | ⟨q', hq', _, hext⟩
      · exact absurd (hempty q hq) hname
      · exact ⟨q', hq', hext⟩

end

/--
**When a list that is given restricts.** For every credential that `Verifier::new` or `reload`
accepts: what its compiled form admits is restricted by its lists exactly when a host list that
is given names a host that is not blank, and a prefix list one that is not empty.
-/
theorem allowlist_iff {C : Crypto} {settings : Settings} {credentials : List Credential}
    {v : Verifier} (haccepted : Verifier.new C settings credentials = ok v
      ∨ ∃ old : Verifier, old.reload C settings credentials = ok v)
    {credential : Credential} (hmem : credential ∈ credentials) :
    ∃ c, v.state.credentials.lookup credential.accessKey.trim = some c
      ∧ (Restricts credential c ↔ NamesSome credential) := by
  have hnew : Verifier.new C settings credentials = ok v := by
    rcases haccepted with h | ⟨old, h⟩
    · exact h
    · rwa [reload_eq_new] at h
  obtain ⟨c, hlookup, hc⟩ := compiled_of_mem hnew hmem
  exact ⟨c, hlookup, restricts_iff hc⟩

theorem allowlist_iff_sample :
    ∃ c, sampleVerifier.state.credentials.lookup sampleCredential.accessKey.trim = some c
      ∧ (Restricts sampleCredential c ↔ NamesSome sampleCredential) :=
  allowlist_iff (Or.inl sample_new) (List.mem_singleton.mpr rfl)

/-- The sample credential, with a blank host and an empty prefix for its lists. -/
def blankCredential : Credential :=
  { sampleCredential with allowedHosts := [.lit " "], allowedPrefixes := [[]] }

/-- A credential that is accepted, whose host list is given, and that admits a host which is not
on it. -/
theorem blank_list_is_unrestricted :
    ∃ v c, Verifier.new sampleCrypto sampleSettings [blankCredential] = ok v
      ∧ v.state.credentials.lookup blankCredential.accessKey.trim = some c
      ∧ blankCredential.allowedHosts ≠ [] ∧ blankCredential.allowedPrefixes ≠ []
      ∧ c.hostAllowed (.lit "attacker.example.com") = true
      ∧ ¬Restricts blankCredential c := by
  have hok : (Verifier.new sampleCrypto sampleSettings [blankCredential]).isOk = true := by
    rfl
  obtain ⟨v, hv⟩ := isOk_iff.mp hok
  obtain ⟨c, hlookup, hc⟩ := compiled_of_mem hv (List.mem_singleton.mpr rfl)
  have hblank : ∀ a ∈ blankCredential.allowedHosts, (normalHost a).bytes = [] := by
    intro a ha
    obtain rfl := List.mem_singleton.mp ha
    rfl
  refine ⟨v, c, hv, hlookup, List.cons_ne_nil _ _, List.cons_ne_nil _ _,
    (hostAllowed_iff hc _).mpr (Or.inl hblank), fun hr => ?_⟩
  obtain ⟨a, ha, hname⟩ := named_of_hosts hc (hr.hosts (List.cons_ne_nil _ _))
  exact hname (normalHost_eq_nil.mp (hblank a ha))

end SigV4
