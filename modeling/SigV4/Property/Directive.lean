import SigV4.Proof.Directive
import SigV4.Property.Soundness

/-!
# A directive never widens the policy it states

Three places normalise what an operator writes: `parse`, `resolve` and
`compile_credential`. A value that the first lets through and the last drops would turn a
list into no restriction at all. None does: a value is dropped only where it is blank, and
`parse` refuses those.
-/

namespace SigV4

open Outcome Ascii Spec CredentialDirective

variable {C : Crypto} {settings : Settings} {credentials : List Credential} {v : Verifier}

/-- Lower-casing drops nothing. -/
theorem normalHost_ne {value : Str} (h : value.trim.isEmpty = false) :
    (normalHost value).bytes ≠ [] := by
  intro hnil
  have htrim : value.trim.bytes = [] := List.map_eq_nil_iff.mp hnil
  rw [Str.isEmpty_iff.mpr htrim] at h
  exact Bool.noConfusion h

/-- A credential of the configuration is compiled under its access key. -/
theorem compiled_of_mem (hnew : Verifier.new C settings credentials = ok v)
    {credential : Credential} (hmem : credential ∈ credentials) :
    ∃ c, v.state.credentials.lookup credential.accessKey.trim = some c
      ∧ Compiled C (defaultMaxExpires settings) credential c := by
  have hstate := compileState_eq_ok (new_eq_ok.mp hnew)
  obtain ⟨c, hc⟩ := hstate.installed.compiles credential hmem
  exact ⟨c, (hstate.installed.find _ _).mpr ⟨credential, hmem, rfl, hc⟩, compileCredential_eq_ok hc⟩

section Intended

variable {accessKey : Str} {rest : List Str} {directive : CredentialDirective}
  {credential : Credential} {c : CompiledCredential} {d : Duration}

/-- No value is lost between the directive and the compiled credential. -/
theorem holds_of_compiled {fs : FileSystem} (hread : ReadFrom accessKey rest directive)
    (hresolve : directive.resolve fs = ok credential) (hc : Compiled C d credential c) :
    Holds rest c := by
  obtain ⟨secretKey, _, rfl⟩ := resolve_eq_ok hresolve
  refine ⟨fun x => ?_, fun x => ?_, fun x => ?_⟩
  · rw [hc.allowedHosts x]
    refine ⟨?_, ?_⟩
    · intro hcase
      obtain ⟨_, value, hmem, hx⟩ := hcase
      exact ⟨value, (hread.allowed .host value).mp hmem, hx⟩
    · intro hcase
      obtain ⟨value, hgiven, rfl⟩ := hcase
      have hmem := (hread.allowed .host value).mpr hgiven
      exact ⟨normalHost_ne (hread.nonblank .host value hmem), value, hmem, rfl⟩
  · rw [hc.allowedMethods x]
    exact exists_congr fun value => and_congr_left fun _ => hread.allowed .method value
  · rw [hc.allowedPrefixes x]
    refine ⟨?_, ?_⟩
    · intro hcase
      obtain ⟨_, hx⟩ := hcase
      obtain ⟨value, hmem, hx⟩ := List.mem_map.mp hx
      exact ⟨value, (hread.allowed .path value).mp hmem, hx⟩
    · intro hcase
      obtain ⟨value, hgiven, rfl⟩ := hcase
      have hmem := (hread.allowed .path value).mpr hgiven
      have hne := isEmpty_of_trim (hread.nonblank .path value hmem)
      refine ⟨fun hnil => ?_, List.mem_map.mpr ⟨value, hmem, rfl⟩⟩
      rw [Str.isEmpty_iff.mpr hnil] at hne
      exact Bool.noConfusion hne

/-- **What is compiled** from a directive is what its arguments intend. -/
theorem intended_of_compiled {fs : FileSystem} (hread : ReadFrom accessKey rest directive)
    (hvalid : Validated directive) (hresolve : directive.resolve fs = ok credential)
    (hc : Compiled C (defaultMaxExpires settings) credential c) : Intended settings rest c := by
  have hholds := holds_of_compiled hread hresolve hc
  obtain ⟨secretKey, _, rfl⟩ := resolve_eq_ok hresolve
  have henabled : c.enabled = directive.enabled.getD true := hc.enabled
  have hmax := hc.maxExpires
  dsimp only at hmax
  refine { hholds with
    unrestricted := fun dim => ?_
    prefixes_nodup := hc.prefixes_nodup
    disabled := ?_
    maxExpires := fun value hgiven => ?_
    defaultMaxExpires := fun hnone => ?_ }
  · -- a dimension is open where it has no value, and it has none where its flag is set
    rw [hholds.unrestricted_iff, ← hread.free dim, hvalid.dimension dim,
      List.eq_nil_iff_forall_not_mem]
    exact forall_congr' fun value => not_congr (hread.allowed dim value).symm
  · rw [henabled, ← hread.disabled]
    cases directive.enabled with
    | none => simp
    | some b => simp
  · obtain ⟨m, hm, hsome⟩ := hread.maxExpires value hgiven
    rw [hsome, Option.getD_some, (hvalid.maxExpires m hsome).1,
      if_neg Bool.false_ne_true] at hmax
    rw [hmax]
    exact hm
  · cases hsome : directive.maxExpires with
    | some m =>
        obtain ⟨value, hgiven⟩ := hread.maxExpires_given m hsome
        exact absurd hgiven (hnone value)
    | none =>
        rw [hsome, Option.getD_none] at hmax
        exact hmax

end Intended

/--
**A directive never widens the policy it states.** Its credential is compiled to the
policy its arguments intend; where they hold a value for a dimension, that dimension is
restricted.
-/
theorem directive_policy {fs : FileSystem} {args : List Str} {directive : CredentialDirective}
    {credential : Credential} (hparse : CredentialDirective.parse args = ok directive)
    (hresolve : directive.resolve fs = ok credential)
    (hnew : Verifier.new C settings credentials = ok v) (hmem : credential ∈ credentials) :
    ∃ c, v.state.credentials.lookup credential.accessKey.trim = some c
      ∧ Intended settings args.tail c
      ∧ ∀ dim value, Given args.tail (.keyed (.allowed dim) value) → ¬Unrestricted c dim := by
  obtain ⟨first, rest, rfl, _, hread, hvalid⟩ := parse_eq_ok hparse
  obtain ⟨c, hlookup, hc⟩ := compiled_of_mem hnew hmem
  have hintended := intended_of_compiled hread hvalid hresolve hc
  refine ⟨c, hlookup, hintended, ?_⟩
  intro dim value hgiven hopen
  exact (hintended.unrestricted_iff dim).mp hopen value hgiven

/-! ## A directive

Hosts in two spellings, a repeated prefix, a value that holds `=`.
-/

def sampleArguments : List Str :=
  [.lit " AKIATEST", .lit "secret_key=test=secret", .lit "allowed_host= MinIO.example.com",
    .lit "allow_default_methods", .lit "allowed_prefix=/bucket/a=b", .lit "enabled=off",
    .lit "allowed_prefix=/bucket/a=b", .lit "max_expires=1h", .lit "allowed_host=minio.example.com"]

def sampleDirective : CredentialDirective where
  accessKey := .lit "AKIATEST"
  secret := some (.literal (.lit "test=secret"))
  enabled := some false
  maxExpires := some (.fromSecs 3600)
  allowedHosts := [.lit " MinIO.example.com", .lit "minio.example.com"]
  allowAnyHost := false
  allowedMethods := []
  allowDefaultMethods := true
  allowedPrefixes := [.lit "/bucket/a=b", .lit "/bucket/a=b"]
  allowAnyPrefix := false

/-- There is no file to read. -/
def noFiles : FileSystem := ⟨fun _ => .inl (.lit "No such file or directory (os error 2)")⟩

def directiveCredential : Credential where
  accessKey := .lit "AKIATEST"
  secretKey := .lit "test=secret"
  enabled := false
  maxExpires := .fromSecs 3600
  allowedHosts := [.lit " MinIO.example.com", .lit "minio.example.com"]
  allowedMethods := []
  allowedPrefixes := [bytes "/bucket/a=b", bytes "/bucket/a=b"]

theorem sampleArguments_parse : CredentialDirective.parse sampleArguments = ok sampleDirective := by
  rfl

theorem sampleDirective_resolve : sampleDirective.resolve noFiles = ok directiveCredential := rfl

/-- Its one host is held in one spelling, its methods are open. -/
theorem directive_policy_sample :
    ∃ v c, Verifier.new sampleCrypto sampleSettings [directiveCredential] = ok v
      ∧ v.state.credentials.lookup (.lit "AKIATEST") = some c
      ∧ Intended sampleSettings sampleArguments.tail c ∧ ¬Unrestricted c .host := by
  have hnew : (Verifier.new sampleCrypto sampleSettings [directiveCredential]).isOk = true := by
    rfl
  obtain ⟨v, hnew⟩ := isOk_iff.mp hnew
  obtain ⟨c, hlookup, hintended, hrestricted⟩ := directive_policy sampleArguments_parse
    sampleDirective_resolve hnew (List.mem_singleton.mpr rfl)
  have hkey : directiveCredential.accessKey.trim = .lit "AKIATEST" := by decide
  refine ⟨v, c, hnew, hkey ▸ hlookup, hintended, ?_⟩
  exact hrestricted .host (.lit "minio.example.com") (by decide)

end SigV4
