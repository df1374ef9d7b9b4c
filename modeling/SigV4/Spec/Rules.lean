import SigV4.Spec.Policy

/-!
# The rules of a configuration

Of what an operator writes some things have a default, and the others have a rule. `Rules`
is the second kind; a configuration that keeps them is accepted and any other is refused.
-/

namespace SigV4.Spec

open Ascii

/-- The length of a duration, in nanoseconds. -/
def nanoseconds (d : Duration) : Nat := d.secs.toNat * 1000000000 + d.nanos.toNat

/-- Seven days, in nanoseconds. -/
def sevenDays : Nat := 7 * 24 * 60 * 60 * 1000000000

theorem isZero_eq_false_iff {d : Duration} : d.isZero = false ↔ 0 < nanoseconds d := by
  unfold Duration.isZero nanoseconds
  rw [Bool.and_eq_false_iff, beq_eq_false_iff_ne, beq_eq_false_iff_ne, ne_eq, ne_eq,
    ← UInt64.toNat_inj, ← UInt32.toNat_inj]
  have hs : (0 : UInt64).toNat = 0 := rfl
  have hn : (0 : UInt32).toNat = 0 := rfl
  rw [hs, hn]
  omega

theorem lt_eq_false_iff {a b : Duration} : a.lt b = false ↔ nanoseconds b ≤ nanoseconds a := by
  have ha : a.nanos.toNat < 1000000000 := UInt32.lt_iff_toNat_lt.mp a.nanos_lt
  have hb : b.nanos.toNat < 1000000000 := UInt32.lt_iff_toNat_lt.mp b.nanos_lt
  unfold Duration.lt nanoseconds
  rw [Bool.or_eq_false_iff, Bool.and_eq_false_iff, decide_eq_false_iff_not, decide_eq_false_iff_not,
    beq_eq_false_iff_ne, ne_eq, UInt64.lt_iff_toNat_lt, UInt32.lt_iff_toNat_lt, ← UInt64.toNat_inj]
  omega

theorem maxSigv4Expires_nanoseconds : nanoseconds maxSigv4Expires = sevenDays := by decide

/-- The bytes that make a host ambiguous. -/
def hostSeparators : Bytes := [slash, backslash, question, hash, space, tab, cr, lf]

/-- The methods there are. -/
def IsMethod (m : Str) : Prop := m = .lit "GET" ∨ m = .lit "HEAD"

/-- What has no default in a credential. -/
structure CredentialRules (c : Credential) : Prop where
  accessKey : c.accessKey.trim.bytes ≠ []
  secretKey : c.secretKey.bytes ≠ []
  /-- Zero asks for the default. -/
  maxExpires : nanoseconds c.maxExpires ≤ sevenDays
  allowedHosts : ∀ h ∈ c.allowedHosts, ∀ b ∈ (normalHost h).bytes, b ∉ hostSeparators
  allowedMethods : ∀ m ∈ c.allowedMethods, IsMethod (normalMethod m)
  allowedPrefixes : ∀ p ∈ c.allowedPrefixes, p = [] ∨ ValidPath p

/-- What has no default in a configuration. -/
structure Rules (settings : Settings) (credentials : List Credential) : Prop where
  service : settings.supportedService.trim.bytes = [] ∨ settings.supportedService.trim = .lit "s3"
  supportedMethods : ∀ m ∈ settings.supportedMethods, IsMethod (normalMethod m)
  distinct : (credentials.map fun c => c.accessKey.trim).Nodup
  credentials : ∀ c ∈ credentials, CredentialRules c

end SigV4.Spec
