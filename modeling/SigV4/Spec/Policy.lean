import SigV4.Spec.Path
import SigV4.Verifier.Types

/-!
# Policy

What an operator's credential allows, read off the configuration itself: no compiled
sets, no normal forms kept.
-/

namespace SigV4.Spec

open Ascii

/-- A method as it is compared. -/
def normalMethod (s : Str) : Str := s.trim.toAsciiUppercase

/-- A host as it is compared. -/
def normalHost (s : Str) : Str := s.trim.toAsciiLowercase

/-- `path` is `pfx`, or goes on from it at a segment boundary. -/
def Extends (path pfx : Bytes) : Prop :=
  ∃ suffix, path = pfx ++ suffix
    ∧ (suffix = [] ∨ pfx.getLast? = some slash ∨ suffix.head? = some slash)

/-- The credential's methods, where it names any. -/
def AllowsMethod (c : Credential) (method : Str) : Prop :=
  c.allowedMethods = [] ∨ ∃ m ∈ c.allowedMethods, normalMethod m = method

/-- The credential's hosts, where it names one that is not blank. -/
def AllowsHost (c : Credential) (host : Str) : Prop :=
  (∀ h ∈ c.allowedHosts, (normalHost h).bytes = []) ∨ ∃ h ∈ c.allowedHosts, normalHost h = host

/-- The credential's prefixes, where it names one that is not empty. -/
def AllowsPath (c : Credential) (path : Bytes) : Prop :=
  (∀ p ∈ c.allowedPrefixes, p = []) ∨ ∃ p ∈ c.allowedPrefixes, p ≠ [] ∧ Extends path p

/-- A credential's policy. -/
structure Allows (c : Credential) (method host : Str) (path : Bytes) : Prop where
  method : AllowsMethod c method
  host : AllowsHost c host
  path : AllowsPath c path

/-- The greatest expiry the settings give a credential without one of its own. -/
def defaultMaxExpires (settings : Settings) : Duration :=
  if settings.defaultMaxExpires.isZero || maxSigv4Expires.lt settings.defaultMaxExpires then
    maxSigv4Expires
  else settings.defaultMaxExpires

/-- The greatest expiry of a credential. -/
def maxExpires (settings : Settings) (c : Credential) : Duration :=
  if c.maxExpires.isZero then defaultMaxExpires settings else c.maxExpires

/-- The methods a verifier serves. -/
def Supported (settings : Settings) (method : Str) : Prop :=
  if settings.supportedMethods = [] then method = .lit "GET" ∨ method = .lit "HEAD"
  else ∃ m ∈ settings.supportedMethods, normalMethod m = method

/-! ## Time -/

/-- Whole seconds from the Unix epoch, rounded towards it; the least of them is
`-(2^63 - 1)`. -/
def wholeSeconds (t : SystemTime) : Int :=
  if 0 ≤ t.secs ∨ t.nanos = 0 then max t.secs (-Outcome.i64.hi) else t.secs + 1

/-- The clock skew that is allowed, in whole seconds; the greatest of them is
`2^63 - 1`. -/
def skewSeconds (settings : Settings) : Int :=
  min (settings.allowedClockSkew.secs.toNat : Int) Outcome.i64.hi

end SigV4.Spec
