import SigV4.Property.Directive

/-!
# Access keys a request can name

The configuration trims an access key and refuses an empty one; the request side splits a
credential at its slashes into five. A key without a slash is found by every credential that
names it, and a key with one by none: the split gives it to two fields.
-/

namespace SigV4

open Outcome Ascii Spec

/-- `date/region/s3/aws4_request`. -/
def scopeText (date region : Str) : Str :=
  ((date.append (.lit "/")).append region).append (.lit "/s3/aws4_request")

/-- `access_key/date/region/s3/aws4_request`. -/
def credentialText (accessKey date region : Str) : Str :=
  (accessKey.append (.lit "/")).append (scopeText date region)

/-- The credential a request names. -/
def credentialScope (accessKey date region : Str) : CredentialScope where
  accessKey := accessKey
  date := date
  region := region
  service := .lit "s3"
  terminal := .lit "aws4_request"
  scope := scopeText date region

theorem scopeText_bytes (accessKey date region : Str) :
    (scopeText date region).bytes = (credentialScope accessKey date region).fields.scope := by
  show ((date.bytes ++ [slash]) ++ region.bytes) ++ bytes "/s3/aws4_request"
    = date.bytes ++ slash :: (region.bytes ++ slash :: (bytes "s3" ++ slash :: bytes "aws4_request"))
  rw [List.append_assoc, List.append_assoc]
  rfl

theorem credentialText_bytes (accessKey date region : Str) :
    (credentialText accessKey date region).bytes
      = accessKey.bytes ++ slash :: (credentialScope accessKey date region).fields.scope := by
  rw [← scopeText_bytes]
  show (accessKey.bytes ++ [slash]) ++ (scopeText date region).bytes = _
  rw [List.append_assoc]
  rfl

theorem fields_injective {s t : CredentialScope} (hfields : s.fields = t.fields)
    (hscope : s.scope = t.scope) : s = t := by
  unfold CredentialScope.fields at hfields
  simp only [ScopeFields.mk.injEq, ← Str.eq_iff] at hfields
  cases s
  cases t
  simp only [CredentialScope.mk.injEq]
  exact ⟨hfields.1, hfields.2.1, hfields.2.2.1, hfields.2.2.2.1, hfields.2.2.2.2, hscope⟩

/-- A key without a slash is read back, with the rest of the credential. -/
theorem parseCredentialScope_credentialText {accessKey date region : Str}
    (hne : accessKey.bytes ≠ []) (hkey : slash ∉ accessKey.bytes) (hlen : date.bytes.length = 8)
    (hdigits : date.bytes.all isAsciiDigit = true) (hregion : region.bytes ≠ [])
    (hslash : slash ∉ region.bytes) :
    parseCredentialScope (credentialText accessKey date region)
      = ok (credentialScope accessKey date region) := by
  have hscope : IsScope (credentialText accessKey date region).bytes
      (credentialScope accessKey date region).fields := by
    rw [credentialText_bytes]
    exact isScope_of_fields (f := (credentialScope accessKey date region).fields) hkey hne hlen
      hdigits hslash hregion rfl rfl
  obtain ⟨scope, hparse, hfields, htext⟩ := parseCredentialScope_of_isScope hscope
  rw [hparse, fields_injective hfields]
  rw [hfields, ← scopeText_bytes] at htext
  exact Str.ext htext

/-- What is read as an access key has no slash. -/
theorem slash_not_mem_of_parse {value : Str} {scope : CredentialScope}
    (h : parseCredentialScope value = ok scope) : slash ∉ scope.accessKey.bytes := by
  obtain ⟨hscope, _⟩ := parseCredentialScope_eq_ok h
  have hmem : scope.fields.accessKey ∈ value.bytes.splitOn slash := by
    rw [hscope.split]
    exact List.mem_cons_self
  exact not_mem_of_mem_splitOn value.bytes.length (Nat.le_refl _) _ hmem

/-- What is read, joined, is what was read from. -/
theorem join_of_parse {value : Str} {scope : CredentialScope}
    (h : parseCredentialScope value = ok scope) :
    value.bytes = [slash].intercalate [scope.accessKey.bytes, scope.date.bytes, scope.region.bytes,
      scope.service.bytes, scope.terminal.bytes] := by
  have hjoin : [slash].intercalate (value.bytes.splitOn slash) = value.bytes :=
    List.intercalate_splitOn slash
  rw [(parseCredentialScope_eq_ok h).1.split] at hjoin
  exact hjoin.symm

/--
**Which access keys a request can name.** For every accepted credential, every date of eight
digits and every region that is not empty and has no slash: the credential made of the trimmed
access key, the date, the region and the two constants is read back as these, with
`date/region/s3/aws4_request` for its scope, and its access key finds that credential, exactly
when the trimmed key has no slash. A key with a slash is the access key of no credential that
is read. And every credential that is read is its five fields, joined.
-/
theorem credential_named_iff {C : Crypto} {settings : Settings} {credentials : List Credential}
    {v : Verifier} (hnew : Verifier.new C settings credentials = ok v) {credential : Credential}
    (hmem : credential ∈ credentials) {date region : Str} (hlen : date.len = 8)
    (hdigits : date.bytes.all isAsciiDigit = true) (hregion : region.bytes ≠ [])
    (hslash : slash ∉ region.bytes) :
    ((parseCredentialScope (credentialText credential.accessKey.trim date region)
          = ok (credentialScope credential.accessKey.trim date region)
        ∧ ∃ c, v.state.credentials.lookup
            (credentialScope credential.accessKey.trim date region).accessKey = some c
          ∧ compileCredential C credential (defaultMaxExpires settings) = ok c)
      ↔ slash ∉ credential.accessKey.trim.bytes)
      ∧ (slash ∈ credential.accessKey.trim.bytes → ∀ value scope,
          parseCredentialScope value = ok scope → scope.accessKey ≠ credential.accessKey.trim)
      ∧ ∀ value scope, parseCredentialScope value = ok scope →
          value.bytes = [slash].intercalate [scope.accessKey.bytes, scope.date.bytes,
            scope.region.bytes, scope.service.bytes, scope.terminal.bytes] := by
  refine ⟨⟨?_, ?_⟩, ?_, fun value scope h => join_of_parse h⟩
  · intro h
    exact slash_not_mem_of_parse h.1
  · intro hkey
    have hinstalled := (compileState_eq_ok (new_eq_ok.mp hnew)).installed
    obtain ⟨c, hc⟩ := hinstalled.compiles credential hmem
    have hcompiled := compileCredential_eq_ok hc
    have hne : credential.accessKey.trim.bytes ≠ [] := hcompiled.accessKey ▸ hcompiled.accessKey_ne
    refine ⟨parseCredentialScope_credentialText hne hkey hlen hdigits hregion hslash, c, ?_, hc⟩
    exact (hinstalled.find _ _).mpr ⟨credential, hmem, rfl, hc⟩
  · intro hkey value scope h he
    exact slash_not_mem_of_parse h (he ▸ hkey)

theorem credential_named_iff_sample :
    parseCredentialScope (credentialText sampleCredential.accessKey.trim (.lit "20260102")
        (.lit "us-east-1"))
      = ok (credentialScope sampleCredential.accessKey.trim (.lit "20260102") (.lit "us-east-1")) := by
  have hnamed := @credential_named_iff _ _ _ _ sample_new _ (List.mem_singleton.mpr rfl)
    (.lit "20260102") (.lit "us-east-1") (by decide) (by decide) (by decide)
    (by decide)
  exact (hnamed.1.mpr (by decide)).1

/-- The sample credential, with a slash in its access key. -/
def slashCredential : Credential := { sampleCredential with accessKey := .lit "AK/IA" }

/-- A credential that is accepted and that its own access key does not name. -/
theorem slash_key_is_unnamed :
    ∃ v, Verifier.new sampleCrypto sampleSettings [slashCredential] = ok v
      ∧ (∃ c, v.state.credentials.lookup (.lit "AK/IA") = some c)
      ∧ parseCredentialScope (.lit "AK/IA/20260102/us-east-1/s3/aws4_request") = exit ⟨⟩ := by
  have hok : (Verifier.new sampleCrypto sampleSettings [slashCredential]).isOk = true := by
    rfl
  obtain ⟨v, hv⟩ := isOk_iff.mp hok
  obtain ⟨c, hlookup, _⟩ := compiled_of_mem hv (List.mem_singleton.mpr rfl)
  have htrim : slashCredential.accessKey.trim = .lit "AK/IA" := Str.ext (by decide)
  rw [htrim] at hlookup
  exact ⟨v, hv, ⟨c, hlookup⟩, by rfl⟩

end SigV4
