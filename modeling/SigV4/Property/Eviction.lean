import SigV4.Lib.Recency
import SigV4.Property.Soundness
import SigV4.Verifier.Calls

/-!
# What the cache evicts

A hit under the read lock leaves the entry where it is, so a run of calls makes the cache a
first-in first-out queue (`signingKeys_scopes`), where the operator guide promises that the
least recently used entry is evicted. `signingKeys_lru_iff` says on which runs the promise is
kept, and `hot_scope_evicted` is one where it is not.
-/

namespace SigV4

open Outcome Recency

variable {C : Crypto} {cred cred' : CompiledCredential}

/-- The cache has the scopes most recently used, in their order. -/
def Lru (uses : List (Str × Str × Str)) (cred : CompiledCredential) : Prop :=
  cred.scopes = recent 32 uses

/-- **A run of calls** inserts its scopes one after the other. -/
theorem signingKeys_scopes (h : CacheOk C cred) (uses : List (Str × Str × Str)) :
    ∃ keys cred', cred.signingKeys C uses = ok (keys, cred') ∧ CacheOk C cred'
      ∧ cred'.scopes = uses.foldl (insertFront signingCacheCapacity) cred.scopes := by
  unfold CompiledCredential.signingKeys
  induction uses generalizing cred with
  | nil => exact ⟨[], cred, rfl, h, rfl⟩
  | cons a uses ih =>
      obtain ⟨cred₁, hkey, _, hok, hscopes⟩ := signingKey_eq (ε := Empty) h a.1 a.2.1 a.2.2
      obtain ⟨keys, cred', hruns, hok', hscopes'⟩ := ih hok
      refine ⟨deriveSigningKey C cred.secretSeed a.1 a.2.1 a.2.2 :: keys, cred', ?_, hok', ?_⟩
      · rw [runs_cons hkey, hruns]
        rfl
      · have hinsert : cred₁.scopes = insertFront signingCacheCapacity cred.scopes a := by
          unfold insertFront
          rw [hscopes]
          by_cases hm : a ∈ cred.scopes
          · rw [if_pos hm, if_pos hm]
          · rw [if_neg hm, if_neg hm]
        rw [hscopes', hinsert]
        rfl

theorem signingKeys_compiled {credential : Credential} {d : Duration}
    (hcompile : compileCredential C credential d = ok cred) (uses : List (Str × Str × Str)) :
    ∃ keys cred', cred.signingKeys C uses = ok (keys, cred') ∧ cred'.scopes = fifo 32 uses := by
  have hcompiled := compileCredential_eq_ok hcompile
  obtain ⟨keys, cred', hruns, _, hscopes⟩ := signingKeys_scopes hcompiled.cacheOk uses
  refine ⟨keys, cred', hruns, ?_⟩
  rw [hscopes, hcompiled.scopes]
  rfl

/--
**When the cache is least recently used.** It is after every call of a run exactly when each
call is for the scope of the call before it, or for a scope that is not among the 32 most
recently used. A call for another of these is a hit under the read lock, and is forgotten.
-/
theorem signingKeys_lru_iff {credential : Credential} {d : Duration}
    (hcompile : compileCredential C credential d = ok cred) (uses : List (Str × Str × Str)) :
    (∀ pre, pre <+: uses → ∃ keys cred', cred.signingKeys C pre = ok (keys, cred') ∧ Lru pre cred')
      ↔ ∀ pre scope, pre ++ [scope] <+: uses →
        scope ∉ recent 32 pre ∨ pre.getLast? = some scope := by
  have hkept : ∀ pre, (∃ keys cred', cred.signingKeys C pre = ok (keys, cred') ∧ Lru pre cred')
      ↔ fifo 32 pre = recent 32 pre := by
    intro pre
    obtain ⟨keys, cred', hruns, hscopes⟩ := signingKeys_compiled hcompile pre
    unfold Lru
    refine ⟨?_, ?_⟩
    · intro h
      obtain ⟨keys₁, cred₁, hruns₁, hlru⟩ := h
      rw [hruns] at hruns₁
      obtain ⟨_, rfl⟩ := Prod.mk.inj (Outcome.ok.inj hruns₁)
      rw [← hscopes, hlru]
    · intro h
      exact ⟨keys, cred', hruns, hscopes.trans h⟩
  rw [← fifo_eq_recent_iff (by decide) uses]
  exact forall_congr' fun pre => imp_congr_right fun _ => hkept pre

/-- Scopes that differ for numbers below 256. -/
def numberedScope (i : Nat) : Str × Str × Str :=
  (.lit "20260102", ⟨Hex.encode [UInt8.ofNat i], Utf8.valid_of_ascii (Hex.encode_ascii _)⟩, .lit "s3")

/-- A scope that is used twice in a row. -/
theorem signingKeys_lru_iff_sample :
    ∃ cred, compileCredential sampleCrypto sampleCredential (.fromSecs 3600) = ok cred
      ∧ ∃ keys cred', cred.signingKeys sampleCrypto [numberedScope 0, numberedScope 0]
          = ok (keys, cred')
        ∧ Lru [numberedScope 0, numberedScope 0] cred' := by
  have hok : (compileCredential sampleCrypto sampleCredential (.fromSecs 3600)).isOk = true := by
    rfl
  obtain ⟨cred, hcompile⟩ := isOk_iff.mp hok
  refine ⟨cred, hcompile, (signingKeys_lru_iff hcompile _).mpr ?_ _ List.prefix_rfl⟩
  intro pre scope hpre
  obtain ⟨rest, hrest⟩ := hpre
  rcases pre with _ | ⟨first, _ | ⟨second, pre⟩⟩
  · exact Or.inl List.not_mem_nil
  · -- the second use is a hit on the front
    obtain ⟨hfirst, hrest⟩ := List.cons_eq_cons.mp hrest
    obtain ⟨hscope, _⟩ := List.cons_eq_cons.mp hrest
    rw [hfirst, hscope]
    exact Or.inr rfl
  · simp at hrest

/-! ## A hot scope is evicted -/

/-- The scopes `0` to `31` fill the cache, `0` is used again, and `32` is new. -/
def hotUses : List (Str × Str × Str) :=
  (List.range 32).map numberedScope ++ [numberedScope 0, numberedScope 32]

/-- **The scope used just before is evicted**: it was the first to be inserted. -/
theorem hot_scope_evicted :
    ∃ cred keys cred', compileCredential sampleCrypto sampleCredential (.fromSecs 3600) = ok cred
      ∧ cred.signingKeys sampleCrypto hotUses = ok (keys, cred')
      ∧ numberedScope 0 ∈ recent 32 hotUses ∧ numberedScope 0 ∉ cred'.scopes
      ∧ ¬Lru hotUses cred' := by
  have hok : (compileCredential sampleCrypto sampleCredential (.fromSecs 3600)).isOk = true := by
    rfl
  have hrecent : numberedScope 0 ∈ recent 32 hotUses := by decide +kernel
  have hfifo : numberedScope 0 ∉ fifo 32 hotUses := by decide +kernel
  obtain ⟨cred, hcompile⟩ := isOk_iff.mp hok
  -- the run makes the queue, which has dropped the first scope
  obtain ⟨keys, cred', hruns, hscopes⟩ := signingKeys_compiled hcompile hotUses
  rw [← hscopes] at hfifo
  refine ⟨cred, keys, cred', hcompile, hruns, hrecent, hfifo, ?_⟩
  intro hlru
  rw [hlru] at hfifo
  exact hfifo hrecent

end SigV4
