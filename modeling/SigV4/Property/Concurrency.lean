import SigV4.Lib.Interleaving
import SigV4.Property.Soundness
import SigV4.Verifier.Calls

/-!
# Concurrent calls share one cache

However the two critical sections of any number of calls are interleaved, the cache of a
credential is sound, bounded and without duplicates (`CacheInv`), and each call returns the
key of its own scope. What carries it: a section under the write lock looks again before it
inserts, so a scope that several calls have missed is inserted by the first of them.
-/

namespace SigV4

open Outcome Interleaving

variable {C : Crypto} {cred₀ cred cred' : CompiledCredential}

/-! ## What a step preserves -/

/-- What holds of the credential between any two steps. -/
structure CacheInv (C : Crypto) (cred₀ cred : CompiledCredential) : Prop where
  sound : CacheOk C cred
  /-- Nothing but the cache has changed. -/
  config : cred.erase = cred₀.erase
  distinct : cred.scopes.Nodup

theorem CacheInv.secretSeed (h : CacheInv C cred₀ cred) : cred.secretSeed = cred₀.secretSeed := by
  have hseed := congrArg CompiledCredential.secretSeed h.config
  exact hseed

theorem cacheInv_compiled {credential : Credential} {d : Duration}
    (hcompile : compileCredential C credential d = ok cred) : CacheInv C cred cred := by
  have hcompiled := compileCredential_eq_ok hcompile
  refine ⟨hcompiled.cacheOk, rfl, ?_⟩
  rw [hcompiled.scopes]
  exact List.nodup_nil

/-- **The section under the write lock** keeps the invariant, whichever scope it is for. -/
theorem fillSigningKey_inv (h : CacheInv C cred₀ cred) (date region service : Str) :
    ∃ cred', cred.fillSigningKey (ε := Empty) C date region service
          = ok (deriveSigningKey C cred₀.secretSeed date region service, cred')
        ∧ CacheInv C cred₀ cred' := by
  obtain ⟨cred', hfill, herase, hok, hscopes⟩ :=
    fillSigningKey_eq (ε := Empty) h.sound date region service
  rw [h.secretSeed] at hfill
  refine ⟨cred', hfill, hok, herase.trans h.config, ?_⟩
  rcases hscopes with ⟨_, hperm⟩ | ⟨hnew, htake⟩
  · -- another call has inserted the scope since the lookup
    exact hperm.nodup_iff.mpr h.distinct
  · rw [htake]
    exact (List.nodup_cons.mpr ⟨hnew, h.distinct⟩).sublist (List.take_sublist _ _)

/-- Where a call can stand: it has not panicked, and has returned nothing but `key`. -/
def CallState.Fine (key : Digest) : CallState → Prop
  | .started => True
  | .missed => True
  | .returned k => k = key
  | .panicked => False

/-- **Every step** keeps the invariant, and leaves its call where it can stand. -/
theorem callStep_inv {date region service : Str} {p p' : CallState} (h : CacheInv C cred₀ cred)
    (hs : CallStep C date region service (cred, p) (cred', p')) :
    CacheInv C cred₀ cred' ∧ p'.Fine (deriveSigningKey C cred₀.secretSeed date region service) := by
  obtain ⟨cred₁, hfill, hinv⟩ := fillSigningKey_inv h date region service
  cases hs with
  | @hit _ key hc =>
      refine ⟨h, ?_⟩
      -- a hit is the derived key, since the cache is sound
      rw [cachedSigningKey_eq h.sound, h.secretSeed] at hc
      split at hc
      · exact (Option.some.inj hc).symm
      · cases hc
  | miss _ => exact ⟨h, trivial⟩
  | fill hf =>
      obtain ⟨rfl, rfl⟩ := Prod.mk.inj (Outcome.ok.inj (hf.symm.trans hfill))
      exact ⟨hinv, rfl⟩
  | panic hp =>
      rw [hfill] at hp
      cases hp

/-! ## Every call can return -/

section

variable {ι : Type} [DecidableEq ι] {args : ι → Str × Str × Str}
  {w : World ι CompiledCredential CallState}

/-- The key of a call's own scope. -/
def callKey (C : Crypto) (cred₀ : CompiledCredential) (args : ι → Str × Str × Str) (i : ι) : Digest :=
  deriveSigningKey C cred₀.secretSeed (args i).1 (args i).2.1 (args i).2.2

/-- A call that returns, by steps of its own. -/
def CanReturn (C : Crypto) (args : ι → Str × Str × Str) (w : World ι CompiledCredential CallState)
    (i : ι) (key : Digest) : Prop :=
  ∃ w', Reachable (calls C args) w w' ∧ w'.party i = .returned key
    ∧ ∀ j, j ≠ i → w'.party j = w.party j

theorem canReturn_step {i : ι} {key : Digest} {s : CompiledCredential} {p : CallState}
    (hs : calls C args i (w.shared, w.party i) (s, p))
    (h : CanReturn C args ⟨s, Function.update w.party i p⟩ i key) : CanReturn C args w i key := by
  obtain ⟨w', hreach, hreturned, hframe⟩ := h
  refine ⟨w', hreach.from_step (.move hs), hreturned, fun j hj => ?_⟩
  rw [hframe j hj]
  exact Function.update_of_ne hj _ _

theorem canReturn_returned {i : ι} {key : Digest} (h : w.party i = .returned key) :
    CanReturn C args w i key :=
  ⟨w, .init, h, fun _ _ => rfl⟩

theorem canReturn_missed (h : CacheInv C cred₀ w.shared) {i : ι} (hp : w.party i = .missed) :
    CanReturn C args w i (callKey C cred₀ args i) := by
  obtain ⟨cred', hfill, _⟩ := fillSigningKey_inv h (args i).1 (args i).2.1 (args i).2.2
  refine canReturn_step (s := cred') (p := .returned (callKey C cred₀ args i)) ?_ (canReturn_returned ?_)
  · rw [hp]
    exact .fill hfill
  · exact Function.update_self _ _ _

theorem canReturn_started (h : CacheInv C cred₀ w.shared) {i : ι} (hp : w.party i = .started) :
    CanReturn C args w i (callKey C cred₀ args i) := by
  cases hc : w.shared.cachedSigningKey (args i).1 (args i).2.1 (args i).2.2 with
  | some key =>
      have hhit : calls C args i (w.shared, .started) (w.shared, .returned key) := .hit hc
      have hkey : key = callKey C cred₀ args i := (callStep_inv h hhit).2
      rw [← hkey]
      refine canReturn_step (s := w.shared) (p := .returned key) ?_ (canReturn_returned ?_)
      · rw [hp]
        exact hhit
      · exact Function.update_self _ _ _
  | none =>
      have hmissed : CanReturn C args ⟨w.shared, Function.update w.party i .missed⟩ i
          (callKey C cred₀ args i) := by
        refine canReturn_missed ?_ ?_
        · exact h
        · exact Function.update_self _ _ _
      -- the lookup leaves the credential as it is
      refine canReturn_step (s := w.shared) (p := .missed) ?_ hmissed
      rw [hp]
      exact .miss hc

theorem canReturn_of_fine (h : CacheInv C cred₀ w.shared) {i : ι}
    (hfine : (w.party i).Fine (callKey C cred₀ args i)) :
    CanReturn C args w i (callKey C cred₀ args i) := by
  cases hp : w.party i with
  | started => exact canReturn_started h hp
  | missed => exact canReturn_missed h hp
  | returned key =>
      rw [hp] at hfine
      obtain rfl : key = callKey C cred₀ args i := hfine
      exact canReturn_returned hp
  | panicked =>
      rw [hp] at hfine
      exact absurd hfine id

/-- **Every state that is reached** keeps the invariant, and each call stands where it can. -/
theorem reachable_cacheInv {credential : Credential} {d : Duration}
    (hcompile : compileCredential C credential d = ok cred₀)
    (h : Reachable (calls C args) ⟨cred₀, fun _ => .started⟩ w) :
    CacheInv C cred₀ w.shared ∧ ∀ i, (w.party i).Fine (callKey C cred₀ args i) := by
  refine reachable_inv (I := CacheInv C cred₀) (J := fun i p => p.Fine (callKey C cred₀ args i))
    (cacheInv_compiled hcompile) (fun _ => trivial) ?_ h
  intro i s p s' p' hI _ hs
  exact callStep_inv hI hs

/--
**The cache under interleaving.** Whatever calls have been made on a credential and however
their steps were interleaved: the cache has at most 32 entries, no two for one scope, and each
holds the key of its scope under the credential's secret. A call returns no other key than that
of its own scope, does not panic, and can always go on to return.
-/
theorem concurrent_calls {credential : Credential} {d : Duration}
    (hcompile : compileCredential C credential d = ok cred₀)
    (h : Reachable (calls C args) ⟨cred₀, fun _ => .started⟩ w) :
    w.shared.signingCache.value.length ≤ 32
      ∧ (w.shared.signingCache.value.map fun e => (e.date, e.region, e.service)).Nodup
      ∧ (∀ e ∈ w.shared.signingCache.value, e.key
          = Spec.signingKey C credential.secretKey.bytes e.date.bytes e.region.bytes e.service.bytes)
      ∧ ∀ i, w.party i ≠ .panicked
        ∧ (∀ key, w.party i = .returned key → key = Spec.signingKey C credential.secretKey.bytes
            (args i).1.bytes (args i).2.1.bytes (args i).2.2.bytes)
        ∧ CanReturn C args w i (Spec.signingKey C credential.secretKey.bytes
            (args i).1.bytes (args i).2.1.bytes (args i).2.2.bytes) := by
  obtain ⟨hinv, hfine⟩ := reachable_cacheInv hcompile h
  have hseed := (compileCredential_eq_ok hcompile).secretSeed
  have hkey : ∀ i, callKey C cred₀ args i = Spec.signingKey C credential.secretKey.bytes
      (args i).1.bytes (args i).2.1.bytes (args i).2.2.bytes := by
    intro i
    unfold callKey
    rw [hseed, deriveSigningKey_eq]
  refine ⟨hinv.sound.bounded, hinv.distinct, ?_, fun i => ⟨?_, ?_, ?_⟩⟩
  · intro e he
    rw [hinv.sound.keys e he, hinv.secretSeed, hseed, deriveSigningKey_eq]
  · intro hp
    have hi := hfine i
    rw [hp] at hi
    exact hi
  · intro key hp
    have hi := hfine i
    rw [hp, hkey] at hi
    exact hi
  · rw [← hkey]
    exact canReturn_of_fine hinv (hfine i)

end

def sampleScope : Str × Str × Str := (.lit "20260102", .lit "us-east-1", .lit "s3")

/-- Two calls that have both missed one scope, of which one has filled it. -/
theorem concurrent_calls_sample :
    ∃ cred₀ w, compileCredential sampleCrypto sampleCredential (.fromSecs 3600) = ok cred₀
      ∧ Reachable (calls sampleCrypto fun _ : Bool => sampleScope) ⟨cred₀, fun _ => .started⟩ w
      ∧ w.party false = .returned sampleSigningKey ∧ w.party true = .missed
      ∧ CanReturn sampleCrypto (fun _ : Bool => sampleScope) w true sampleSigningKey := by
  have hok : (compileCredential sampleCrypto sampleCredential (.fromSecs 3600)).isOk = true := by
    rfl
  have hderived : Spec.signingKey sampleCrypto sampleCredential.secretKey.bytes
      sampleScope.1.bytes sampleScope.2.1.bytes sampleScope.2.2.bytes = sampleSigningKey := by
    decide
  obtain ⟨cred₀, hcompile⟩ := isOk_iff.mp hok
  have hcompiled := compileCredential_eq_ok hcompile
  obtain ⟨cred₁, hfill, _⟩ := fillSigningKey_inv (cacheInv_compiled hcompile)
    sampleScope.1 sampleScope.2.1 sampleScope.2.2
  rw [hcompiled.secretSeed, deriveSigningKey_eq, hderived] at hfill
  have hmiss : cred₀.cachedSigningKey sampleScope.1 sampleScope.2.1 sampleScope.2.2 = none := by
    unfold CompiledCredential.cachedSigningKey
    rw [hcompiled.signingCache]
    rfl
  have hinit : Reachable (calls sampleCrypto fun _ : Bool => sampleScope)
      ⟨cred₀, fun _ => .started⟩ ⟨cred₀, fun _ => .started⟩ := .init
  have hreach := ((hinit.step (.move (i := false) (.miss hmiss))).step
    (.move (i := true) (.miss hmiss))).step (.move (i := false) (.fill hfill))
  obtain ⟨_, _, _, hcalls⟩ := concurrent_calls hcompile hreach
  obtain ⟨_, _, hreturn⟩ := hcalls true
  rw [hderived] at hreturn
  exact ⟨cred₀, _, hcompile, hreach, rfl, rfl, hreturn⟩

end SigV4
