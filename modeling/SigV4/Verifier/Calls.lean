import SigV4.Lib.Machine
import SigV4.Verifier.Sign

/-!
# Calls of `signing_key`

Calls on one credential, one after the other or side by side. `signing_key` takes the lock
twice, and other calls may run in between: a call is two atomic steps, the lookup under the
read lock, and, after a miss, the section under the write lock. A panic under the write lock
poisons it.
-/

namespace SigV4

open Outcome

/-- Calls one after the other: the keys they return, and the credential after them. -/
def CompiledCredential.signingKeys (C : Crypto) (self : CompiledCredential)
    (args : List (Str × Str × Str)) : Outcome Empty (List Digest × CompiledCredential) :=
  runs (fun cred args => cred.signingKey C args.1 args.2.1 args.2.2) self args

/-! ## Concurrent calls -/

/-- Where a call to `signing_key` stands. -/
inductive CallState where
  /-- Before the lookup. -/
  | started
  /-- Between the two locks. -/
  | missed
  | returned (key : Digest)
  | panicked
  deriving DecidableEq

/-- The credential after a panic under the write lock. -/
def CompiledCredential.poison (self : CompiledCredential) : CompiledCredential :=
  { self with signingCache := { self.signingCache with poisoned := true } }

/-- One atomic step of a call, on the credential that the calls share. -/
inductive CallStep (C : Crypto) (date region service : Str) :
    CompiledCredential × CallState → CompiledCredential × CallState → Prop where
  | hit {cred : CompiledCredential} {key : Digest} :
      cred.cachedSigningKey date region service = some key →
      CallStep C date region service (cred, .started) (cred, .returned key)
  | miss {cred : CompiledCredential} :
      cred.cachedSigningKey date region service = none →
      CallStep C date region service (cred, .started) (cred, .missed)
  | fill {cred cred' : CompiledCredential} {key : Digest} :
      cred.fillSigningKey (ε := Empty) C date region service = ok (key, cred') →
      CallStep C date region service (cred, .missed) (cred', .returned key)
  | panic {cred : CompiledCredential} {p : Panic} :
      cred.fillSigningKey (ε := Empty) C date region service = .panic p →
      CallStep C date region service (cred, .missed) (cred.poison, .panicked)

/-- The calls of a credential, each with its own date, region and service. -/
def calls {ι : Type} (C : Crypto) (args : ι → Str × Str × Str) (i : ι) :
    CompiledCredential × CallState → CompiledCredential × CallState → Prop :=
  CallStep C (args i).1 (args i).2.1 (args i).2.2

/-- **A call that is not interrupted** takes its steps one after the other: this is
`signing_key`. -/
theorem signingKey_eq_ok_iff {C : Crypto} {date region service : Str}
    {cred cred' : CompiledCredential} {key : Digest} :
    cred.signingKey (ε := Empty) C date region service = ok (key, cred')
      ↔ CallStep C date region service (cred, .started) (cred', .returned key)
        ∨ (CallStep C date region service (cred, .started) (cred, .missed)
          ∧ CallStep C date region service (cred, .missed) (cred', .returned key)) := by
  unfold CompiledCredential.signingKey
  refine ⟨?_, ?_⟩
  · intro h
    cases hc : cred.cachedSigningKey date region service with
    | some k =>
        rw [hc] at h
        obtain ⟨rfl, rfl⟩ := Prod.mk.inj (Outcome.ok.inj h)
        exact Or.inl (.hit hc)
    | none =>
        rw [hc] at h
        exact Or.inr ⟨.miss hc, .fill h⟩
  · intro hcase
    rcases hcase with h | ⟨hmiss, hfill⟩
    · cases h with
      | hit hc => rw [hc]
    · cases hmiss with
      | miss hc =>
          cases hfill with
          | fill h => rw [hc]; exact h

end SigV4
