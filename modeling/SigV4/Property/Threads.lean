import SigV4.Property.Concurrency
import SigV4.Property.History
import SigV4.Verifier.Threads

/-!
# Verifiers under threads

However the steps of any number of threads are interleaved, with verifiers made, cloned and
reloaded in between, each call of `verify` is answered as by a fresh verifier of the
configuration that its own pointer leads to, no thread panics, and every cache is sound.

The argument is by rely and guarantee: what a thread knows of the state it works on survives
the steps of the others, since all that they change in a state is its caches (`Keeps`). A thread
that no other interrupts has no choice: every run of its call leads to what `verify` does
(`leads_verify`).
-/

namespace SigV4

open Outcome Interleaving Spec

variable {C : Crypto} {m m' : Memory} {cell cell' : Cell} {cred cred' : CompiledCredential}
  {call : Call} {p : Pending}

/-! ## A call, cut where it takes the locks -/

/-- What a state answers to a call. -/
def State.answers (C : Crypto) (st : State) (call : Call) : VerifyResult :=
  answer C st call.method call.rawUri call.host call.now

/-- The signing key of a call, under the secret of `cred`. -/
def Pending.key (C : Crypto) (cred : CompiledCredential) (p : Pending) : Digest :=
  deriveSigningKey C cred.secretSeed p.params.scope.date p.params.scope.region
    p.params.scope.service

/-- The hash of a request line that has passed the checks. -/
def RequestLine.hash (C : Crypto) (line : RequestLine) : Digest :=
  hashCanonicalRequest C line.method (canonicalPath line.rawPath) line.canonicalQueryString
    line.host

theorem prepare_eq (st : State) (call : Call) :
    prepare C st call = (checkRequest C st call.method call.rawUri call.host call.now) >>=
      fun r => ok ⟨r.1, r.2.1, r.1.hash C⟩ := by
  unfold prepare
  refine congrArg _ (funext fun r => ?_)
  obtain ⟨line, params, cred⟩ := r
  dsimp only
  rw [canonicalUriFromValidPath_eq, ok_bind]
  rfl

/-- The checks do not panic, and one that ends the call denies it. -/
theorem prepare_ends (C : Crypto) (st : State) (call : Call) :
    Ends VerifyResult.Denied (prepare C st call) := by
  rw [prepare_eq]
  refine ends_bind (checkRequest_ends C st call.method call.rawUri call.host call.now) ?_
  exact fun _ _ => trivial

theorem prepare_ne_panic (C : Crypto) (st : State) (call : Call) (x : Panic) :
    prepare C st call ≠ .panic x := by
  intro hp
  have hends := prepare_ends C st call
  rw [hp] at hends
  exact hends

/-- A call that a check ends is answered. -/
theorem answers_of_denied {st : State} {result : VerifyResult}
    (h : prepare C st call = exit result) : st.answers C call = result := by
  rw [prepare_eq] at h
  unfold State.answers answer
  cases hr : checkRequest C st call.method call.rawUri call.host call.now with
  | ok r =>
      rw [hr, ok_bind] at h
      cases h
  | exit denied =>
      rw [hr, exit_bind] at h
      exact Outcome.exit.inj h
  | panic y =>
      rw [hr, panic_bind] at h
      cases h

/-- A call that is allowed has passed every check. -/
theorem prepared_of_allowed {st : State} (h : (st.answers C call).allowed = true) :
    ∃ p, prepare C st call = ok p := by
  have hends := prepare_ends C st call
  cases hp : prepare C st call with
  | ok p => exact ⟨p, rfl⟩
  | exit denied =>
      rw [hp] at hends
      rw [answers_of_denied hp] at h
      exact absurd (Eq.trans hends.symm h) Bool.false_ne_true
  | panic x => exact absurd hp (prepare_ne_panic C st call x)

/-- What a call that has passed its checks knows of the state it works on. -/
structure Waits (C : Crypto) (st : State) (call : Call) (p : Pending) (cred : CompiledCredential) :
    Prop where
  credential : st.credentials.lookup p.params.scope.accessKey = some cred
  hash : p.canonicalHash = p.line.hash C
  signature : (p.line.query.single .signature).isSome = true
  /-- The signature is all that is open. -/
  answer : st.answers C call = signatureAnswer C p.line p.params cred

theorem waits_of_prepared {st : State} (h : prepare C st call = ok p) :
    ∃ cred, Waits C st call p cred := by
  rw [prepare_eq] at h
  obtain ⟨⟨line, params, cred⟩, hr, hp⟩ := bind_eq_ok.mp h
  obtain rfl := Outcome.ok.inj hp
  obtain ⟨_, hparams, hlookup, _, _⟩ := checkRequest_eq_ok.mp hr
  refine ⟨cred, hlookup, rfl, signature_of_checkParameters hparams, ?_⟩
  unfold State.answers SigV4.answer
  rw [hr]

/-- Only the cache of a credential is of no account to its answers. -/
theorem signatureAnswer_congr (h : cred'.erase = cred.erase) (p : Pending) :
    signatureAnswer C p.line p.params cred' = signatureAnswer C p.line p.params cred := by
  show signatureAnswer C p.line p.params cred'.erase = signatureAnswer C p.line p.params cred.erase
  rw [h]

theorem key_congr (h : cred'.erase = cred.erase) (p : Pending) : p.key C cred' = p.key C cred := by
  show p.key C cred'.erase = p.key C cred.erase
  rw [h]

theorem finish_congr {ε : Type} (h : cred'.erase = cred.erase) (p : Pending) (key : Digest) :
    p.finish (ε := ε) C cred' key = p.finish C cred key := by
  show p.finish C cred'.erase key = p.finish C cred.erase key
  rw [h]

/-- **`checkSignature` is the two locks with `finish` behind them.** -/
theorem checkSignature_cut {ε : Type} (p : Pending) (hash : p.canonicalHash = p.line.hash C)
    (cred : CompiledCredential) :
    checkSignature (ε := ε) C p.line p.params cred = (do
      let (key, cred') ← cred.signingKey C p.params.scope.date p.params.scope.region
        p.params.scope.service
      let result ← p.finish C cred' key
      ok (result, cred')) := by
  unfold checkSignature sign Pending.finish
  rw [canonicalUriFromValidPath_eq, ok_bind, hash]
  change (do
    let r ← (do
      let k ← cred.signingKey C p.params.scope.date p.params.scope.region p.params.scope.service
      let message ← stringToSign p.params.amzDate p.params.scope.scope (p.line.hash C)
      ok (C.hmacSha256 k.1.val message, k.2))
    _) = _
  rw [bind_assoc]
  refine congrArg _ (funext fun k => ?_)
  obtain ⟨key, cred'⟩ := k
  dsimp only
  rw [bind_assoc, bind_assoc]
  refine congrArg _ (funext fun message => ?_)
  rw [ok_bind, bind_assoc]
  refine congrArg _ (funext fun signatureHex => ?_)
  rw [bind_assoc]
  refine congrArg _ (funext fun signature => ?_)
  cases signature with
  | none => rfl
  | some signature =>
      dsimp only
      split <;> rfl

/-- With the key of its scope, a call is given its answer. -/
theorem finish_eq {ε : Type} (hsound : CacheOk C cred) (hash : p.canonicalHash = p.line.hash C)
    (hsig : (p.line.query.single .signature).isSome = true) :
    p.finish (ε := ε) C cred (p.key C cred) = ok (signatureAnswer C p.line p.params cred) := by
  obtain ⟨cred', hkey, herase, _, _⟩ := signingKey_eq (ε := ε) hsound p.params.scope.date
    p.params.scope.region p.params.scope.service
  obtain ⟨_, hcheck, _, _⟩ := checkSignature_eq (ε := ε) p.params hsound hsig
  rw [checkSignature_cut p hash, hkey, ok_bind] at hcheck
  obtain ⟨result, hfinish, hresult⟩ := bind_eq_ok.mp hcheck
  rw [finish_congr herase] at hfinish
  rw [← (Prod.mk.inj (Outcome.ok.inj hresult)).1]
  exact hfinish

/-! ## What a thread relies on -/

/-- The state of a cell has changed in its caches at most. -/
structure Keeps (cell cell' : Cell) : Prop where
  settings : cell'.settings = cell.settings
  credentials : cell'.credentials = cell.credentials
  same : SameConfig cell'.state cell.state

/-- **What every step guarantees**: no state is lost, and each keeps its configuration. -/
def Memory.Keeps (m m' : Memory) : Prop :=
  ∀ (a : Nat) (cell : Cell), m.cells[a]? = some cell →
    ∃ cell', m'.cells[a]? = some cell' ∧ SigV4.Keeps cell cell'

theorem Keeps.refl (cell : Cell) : Keeps cell cell := ⟨rfl, rfl, SameConfig.refl _⟩

theorem Memory.Keeps.refl (m : Memory) : m.Keeps m :=
  fun _ cell h => ⟨cell, h, SigV4.Keeps.refl cell⟩

theorem keeps_alloc (m : Memory) (settings : Settings) (credentials : List Credential)
    (v : Verifier) : m.Keeps (m.alloc settings credentials v) := by
  intro a cell h
  refine ⟨cell, ?_, .refl cell⟩
  show (m.cells ++ [_])[a]? = some cell
  rw [List.getElem?_append_left (List.getElem?_eq_some_iff.mp h).1]
  exact h

theorem keeps_write {a : Nat} {accessKey : Str} (h : m.Reads a accessKey cell cred)
    (herase : cred'.erase = cred.erase) : m.Keeps (m.write a cell accessKey cred') := by
  intro b cell₁ hb
  show ∃ cell', (m.cells.set a _)[b]? = some cell' ∧ _
  by_cases hab : a = b
  · subst hab
    obtain rfl := Option.some.inj (h.state.symm.trans hb)
    rw [List.getElem?_set_self (List.getElem?_eq_some_iff.mp hb).1]
    exact ⟨_, rfl, rfl, rfl, store_sameConfig (v := ⟨cell.state⟩) h.credential herase⟩
  · rw [List.getElem?_set_ne hab]
    exact ⟨cell₁, hb, .refl cell₁⟩

/-! ## What holds of a thread -/

/-- Where a thread can stand, on the state that its pointer leads to. -/
def Phase.Fine (C : Crypto) (st : State) : Phase → Prop
  | .idle => True
  | .looking call p => ∃ cred, Waits C st call p cred
  | .missed call p => ∃ cred, Waits C st call p cred
  | .keyed call p key => ∃ cred, Waits C st call p cred ∧ key = p.key C cred
  | .answered call result => result = st.answers C call
  | .panicked => False

/-- A thread is idle, or has a verifier and stands where it can. -/
def Thread.Fine (C : Crypto) (m : Memory) (t : Thread) : Prop :=
  match t.verifier with
  | none => t.phase = .idle
  | some a => ∃ cell, m.cells[a]? = some cell ∧ t.phase.Fine C cell.state

theorem answers_congr {st st' : State} (h : SameConfig st' st) (call : Call) :
    st'.answers C call = st.answers C call :=
  answer_congr h call.method call.rawUri call.host call.now

/-- What a call knows outlives a change of the caches. -/
theorem Waits.congr {st st' : State} (hsame : SameConfig st' st) (h : Waits C st call p cred) :
    ∃ cred', Waits C st' call p cred' ∧ cred'.erase = cred.erase := by
  have hfind := hsame.find p.params.scope.accessKey
  rw [h.credential, Option.map_some] at hfind
  obtain ⟨cred', hcred', herase⟩ := Option.map_eq_some_iff.mp hfind
  refine ⟨cred', ⟨hcred', h.hash, h.signature, ?_⟩, herase⟩
  rw [answers_congr hsame, h.answer, signatureAnswer_congr herase]

theorem Phase.Fine.congr {st st' : State} (hsame : SameConfig st' st) {phase : Phase}
    (h : phase.Fine C st) : phase.Fine C st' := by
  cases phase with
  | idle => exact trivial
  | looking call p =>
      obtain ⟨cred, hwaits⟩ := h
      obtain ⟨cred', hwaits', _⟩ := hwaits.congr hsame
      exact ⟨cred', hwaits'⟩
  | missed call p =>
      obtain ⟨cred, hwaits⟩ := h
      obtain ⟨cred', hwaits', _⟩ := hwaits.congr hsame
      exact ⟨cred', hwaits'⟩
  | keyed call p key =>
      obtain ⟨cred, hwaits, hkey⟩ := h
      obtain ⟨cred', hwaits', herase⟩ := hwaits.congr hsame
      exact ⟨cred', hwaits', hkey.trans (key_congr herase p).symm⟩
  | answered call result => exact Eq.trans h (answers_congr hsame call).symm
  | panicked => exact h

/-- **Stability**: the steps of the others leave a thread where it can stand. -/
theorem Thread.Fine.stable {t : Thread} (hkeeps : m.Keeps m') (h : t.Fine C m) : t.Fine C m' := by
  obtain ⟨verifier, phase⟩ := t
  cases verifier with
  | none => exact h
  | some a =>
      obtain ⟨cell, hcell, hfine⟩ := h
      obtain ⟨cell', hcell', hk⟩ := hkeeps a cell hcell
      exact ⟨cell', hcell', hfine.congr hk.same⟩

/-! ## What holds of the memory -/

/-- A state is that of its configuration, with sound caches and no duplicates in them. -/
structure Cell.Inv (C : Crypto) (cell : Cell) : Prop where
  fresh : ∃ v, Verifier.new C cell.settings cell.credentials = ok v
    ∧ SameConfig cell.state v.state
  caches : ∀ accessKey cred, cell.state.credentials.lookup accessKey = some cred →
    CacheInv C cred cred

structure Memory.Inv (C : Crypto) (m : Memory) : Prop where
  cells : ∀ cell ∈ m.cells, cell.Inv C
  /-- No pointer dangles. -/
  published : ∀ a ∈ m.published, ∃ cell, m.cells[a]? = some cell

theorem inv_empty (C : Crypto) : Memory.empty.Inv C :=
  ⟨fun _ h => absurd h List.not_mem_nil, fun _ h => absurd h List.not_mem_nil⟩

theorem cell_inv_new {settings : Settings} {credentials : List Credential} {v : Verifier}
    (hnew : Verifier.new C settings credentials = ok v) :
    Cell.Inv C ⟨settings, credentials, v.state⟩ := by
  refine ⟨⟨v, hnew, SameConfig.refl _⟩, fun accessKey cred hlookup => ?_⟩
  have hst := compileState_eq_ok (new_eq_ok.mp hnew)
  obtain ⟨credential, _, _, hcompile⟩ := (hst.installed.find accessKey cred).mp hlookup
  exact cacheInv_compiled hcompile

theorem Memory.Inv.alloc (h : m.Inv C) {settings : Settings} {credentials : List Credential}
    {v : Verifier} (hnew : Verifier.new C settings credentials = ok v) :
    (m.alloc settings credentials v).Inv C := by
  refine ⟨fun cell hcell => ?_, fun a ha => ?_⟩
  · rcases List.mem_append.mp hcell with hcell | hcell
    · exact h.cells cell hcell
    · rw [List.mem_singleton.mp hcell]
      exact cell_inv_new hnew
  · obtain ⟨cell, hcell⟩ := h.published a ha
    obtain ⟨cell', hcell', _⟩ := keeps_alloc m settings credentials v a cell hcell
    exact ⟨cell', hcell'⟩

theorem Memory.Inv.write (h : m.Inv C) {a : Nat} {accessKey : Str}
    (hreads : m.Reads a accessKey cell cred) (hcache : CacheInv C cred cred') :
    (m.write a cell accessKey cred').Inv C := by
  have hcell := h.cells cell (List.mem_of_getElem? hreads.state)
  refine ⟨fun cell₁ hcell₁ => ?_, fun b hb => ?_⟩
  · rcases List.mem_or_eq_of_mem_set hcell₁ with hcell₁ | rfl
    · exact h.cells cell₁ hcell₁
    · obtain ⟨v, hnew, hsame⟩ := hcell.fresh
      refine ⟨⟨v, hnew, ?_⟩, fun k c hlookup => ?_⟩
      · exact (store_sameConfig (v := ⟨cell.state⟩) hreads.credential hcache.config).trans hsame
      · have hlookup : (cell.state.credentials.insert accessKey cred').lookup k = some c := hlookup
        by_cases hk : k = accessKey
        · subst hk
          rw [AList.lookup_insert] at hlookup
          rw [← Option.some.inj hlookup]
          exact ⟨hcache.sound, rfl, hcache.distinct⟩
        · rw [AList.lookup_insert_ne hk] at hlookup
          exact hcell.caches k c hlookup
  · obtain ⟨cell₁, hcell₁⟩ := h.published b hb
    obtain ⟨cell', hcell', _⟩ := keeps_write hreads hcache.config b cell₁ hcell₁
    exact ⟨cell', hcell'⟩

/-! ## Every step -/

/-- A thread reads one credential. -/
theorem Memory.Reads.unique {a : Nat} {accessKey : Str} (h : m.Reads a accessKey cell cred)
    (h' : m.Reads a accessKey cell' cred') : cell = cell' ∧ cred = cred' := by
  obtain rfl := Option.some.inj (h.state.symm.trans h'.state)
  exact ⟨rfl, Option.some.inj (h.credential.symm.trans h'.credential)⟩

/-- A thread that reads reads what it waits for. -/
theorem Waits.credential_eq {a : Nat} (h : Waits C cell.state call p cred)
    (hcell : m.cells[a]? = some cell)
    (hreads : m.Reads a p.params.scope.accessKey cell' cred') : cell' = cell ∧ cred' = cred := by
  have hwaits : m.Reads a p.params.scope.accessKey cell cred := ⟨hcell, h.credential⟩
  exact hreads.unique hwaits

/-- A new state is what the pointer of its thread leads to. -/
theorem fine_alloc (m : Memory) (settings : Settings) (credentials : List Credential)
    (v : Verifier) :
    Thread.Fine C (m.alloc settings credentials v) ⟨some m.cells.length, .idle⟩ :=
  ⟨_, List.getElem?_concat_length, trivial⟩

/-- **Every step** keeps what holds of the memory, guarantees that states stay what they are, and
leaves its thread where it can stand. -/
theorem threadStep_inv {t t' : Thread} (hI : m.Inv C) (hJ : t.Fine C m)
    (hs : ThreadStep C (m, t) (m', t')) : m'.Inv C ∧ m.Keeps m' ∧ t'.Fine C m' := by
  cases hs with
  | new hnew => exact ⟨hI.alloc hnew, keeps_alloc m _ _ _, fine_alloc m _ _ _⟩
  | newPanics hp => exact absurd hp (new_ne_panic _ _ _ _)
  | @publish _ a =>
      obtain ⟨cell, hcell, _⟩ := hJ
      refine ⟨⟨hI.cells, fun b hb => ?_⟩, Memory.Keeps.refl m, cell, hcell, trivial⟩
      rcases List.mem_cons.mp hb with rfl | hb
      · exact ⟨cell, hcell⟩
      · exact hI.published b hb
  | clone ha =>
      obtain ⟨cell, hcell⟩ := hI.published _ ha
      exact ⟨hI, Memory.Keeps.refl m, cell, hcell, trivial⟩
  | reload _ hreload =>
      rw [reload_eq_new] at hreload
      exact ⟨hI.alloc hreload, keeps_alloc m _ _ _, fine_alloc m _ _ _⟩
  | reloadPanics _ hp =>
      rw [reload_eq_new] at hp
      exact absurd hp (new_ne_panic _ _ _ _)
  | denied hcell hp =>
      exact ⟨hI, Memory.Keeps.refl m, _, hcell, (answers_of_denied hp).symm⟩
  | prepared hcell hp => exact ⟨hI, Memory.Keeps.refl m, _, hcell, waits_of_prepared hp⟩
  | preparePanics _ hp => exact absurd hp (prepare_ne_panic _ _ _ _)
  | hit hreads hkey =>
      obtain ⟨cell, hcell, cred, hwaits⟩ := hJ
      obtain ⟨rfl, rfl⟩ := hwaits.credential_eq hcell hreads
      -- a hit is the derived key, since the cache is sound
      have hcache := (hI.cells _ (List.mem_of_getElem? hcell)).caches _ _ hreads.credential
      rw [cachedSigningKey_eq hcache.sound] at hkey
      split at hkey
      · exact ⟨hI, Memory.Keeps.refl m, _, hcell, _, hwaits, (Option.some.inj hkey).symm⟩
      · cases hkey
  | miss hreads _ =>
      obtain ⟨cell, hcell, hfine⟩ := hJ
      exact ⟨hI, Memory.Keeps.refl m, cell, hcell, hfine⟩
  | @fill _ a _ _ cred' _ p key hreads hfill =>
      obtain ⟨cell, hcell, cred, hwaits⟩ := hJ
      obtain ⟨rfl, rfl⟩ := hwaits.credential_eq hcell hreads
      have hcache := (hI.cells _ (List.mem_of_getElem? hcell)).caches _ _ hreads.credential
      obtain ⟨_, hfill', hcache'⟩ := fillSigningKey_inv hcache p.params.scope.date
        p.params.scope.region p.params.scope.service
      obtain ⟨rfl, rfl⟩ := Prod.mk.inj (Outcome.ok.inj (hfill.symm.trans hfill'))
      have hkeeps := keeps_write hreads hcache'.config
      refine ⟨hI.write hreads hcache', hkeeps, ?_⟩
      -- the key is of the secret, which the section leaves as it is
      exact Thread.Fine.stable (t := ⟨some a, .keyed _ p _⟩) hkeeps ⟨_, hcell, _, hwaits, rfl⟩
  | @fillPanics _ a _ _ _ p x hreads hpanic =>
      obtain ⟨cell, hcell, cred, hwaits⟩ := hJ
      obtain ⟨rfl, rfl⟩ := hwaits.credential_eq hcell hreads
      have hcache := (hI.cells _ (List.mem_of_getElem? hcell)).caches _ _ hreads.credential
      obtain ⟨_, hfill, _⟩ := fillSigningKey_inv hcache p.params.scope.date
        p.params.scope.region p.params.scope.service
      rw [hfill] at hpanic
      cases hpanic
  | @answer _ _ _ _ call p key result hreads hfinish =>
      obtain ⟨cell, hcell, cred, hwaits, rfl⟩ := hJ
      obtain ⟨rfl, rfl⟩ := hwaits.credential_eq hcell hreads
      have hcache := (hI.cells _ (List.mem_of_getElem? hcell)).caches _ _ hreads.credential
      rw [finish_eq hcache.sound hwaits.hash hwaits.signature] at hfinish
      refine ⟨hI, Memory.Keeps.refl m, _, hcell, ?_⟩
      exact (hwaits.answer.trans (Outcome.ok.inj hfinish)).symm
  | answerPanics hreads hpanic =>
      obtain ⟨cell, hcell, cred, hwaits, rfl⟩ := hJ
      obtain ⟨rfl, rfl⟩ := hwaits.credential_eq hcell hreads
      have hcache := (hI.cells _ (List.mem_of_getElem? hcell)).caches _ _ hreads.credential
      rw [finish_eq hcache.sound hwaits.hash hwaits.signature] at hpanic
      cases hpanic
  | next =>
      obtain ⟨cell, hcell, _⟩ := hJ
      exact ⟨hI, Memory.Keeps.refl m, cell, hcell, trivial⟩

/-! ## Every run -/

section

variable {ι : Type} [DecidableEq ι] {w : World ι Memory Thread}

/-- A run starts with no verifier, and every thread idle. -/
def World.start : World ι Memory Thread := ⟨.empty, fun _ => .init⟩

theorem reachable_fine (h : Reachable (threads C) World.start w) :
    w.shared.Inv C ∧ ∀ i, (w.party i).Fine C w.shared :=
  reachable_rely (I := Memory.Inv C) (J := fun _ m t => t.Fine C m) (G := Memory.Keeps)
    (inv_empty C) (fun _ => rfl) (fun hkeeps hfine => hfine.stable hkeeps)
    (fun hI hJ hs => threadStep_inv hI hJ hs) h

end

/-! ## A call can go on alone -/

/-- The call that a thread is in. -/
def Phase.underWay : Phase → Option Call
  | .idle => none
  | .looking call _ => some call
  | .missed call _ => some call
  | .keyed call _ _ => some call
  | .answered _ _ => none
  | .panicked => none

/-- By steps of its own, a thread that has called `verify` on the state at `a` has its answer. -/
def Answers (C : Crypto) (a : Nat) (call : Call) (result : VerifyResult) (m : Memory)
    (phase : Phase) : Prop :=
  ∃ m', Relation.ReflTransGen (ThreadStep C) (m, ⟨some a, phase⟩)
    (m', ⟨some a, .answered call result⟩)

theorem answers_step {a : Nat} {result : VerifyResult} {phase phase' : Phase}
    (hs : ThreadStep C (m, ⟨some a, phase⟩) (m', ⟨some a, phase'⟩))
    (h : Answers C a call result m' phase') : Answers C a call result m phase := by
  obtain ⟨m'', hrun⟩ := h
  exact ⟨m'', hrun.head hs⟩

theorem answers_keyed {a : Nat} (hI : m.Inv C) (hcell : m.cells[a]? = some cell)
    (hwaits : Waits C cell.state call p cred) :
    Answers C a call (cell.state.answers C call) m (.keyed call p (p.key C cred)) := by
  have hcache := (hI.cells _ (List.mem_of_getElem? hcell)).caches _ _ hwaits.credential
  rw [hwaits.answer]
  exact ⟨m, .single (.answer ⟨hcell, hwaits.credential⟩
    (finish_eq hcache.sound hwaits.hash hwaits.signature))⟩

theorem answers_missed {a : Nat} (hI : m.Inv C) (hcell : m.cells[a]? = some cell)
    (hwaits : Waits C cell.state call p cred) :
    Answers C a call (cell.state.answers C call) m (.missed call p) := by
  have hcache := (hI.cells _ (List.mem_of_getElem? hcell)).caches _ _ hwaits.credential
  obtain ⟨cred', hfill, hcache'⟩ := fillSigningKey_inv hcache p.params.scope.date
    p.params.scope.region p.params.scope.service
  have hreads : m.Reads a p.params.scope.accessKey cell cred := ⟨hcell, hwaits.credential⟩
  obtain ⟨cell', hcell', hk⟩ := keeps_write hreads hcache'.config a cell hcell
  obtain ⟨cred₁, hwaits', herase⟩ := hwaits.congr hk.same
  have hkeyed := answers_keyed (hI.write hreads hcache') hcell' hwaits'
  rw [answers_congr hk.same, key_congr herase] at hkeyed
  exact answers_step (.fill hreads hfill) hkeyed

theorem answers_looking {a : Nat} (hI : m.Inv C) (hcell : m.cells[a]? = some cell)
    (hwaits : Waits C cell.state call p cred) :
    Answers C a call (cell.state.answers C call) m (.looking call p) := by
  have hcache := (hI.cells _ (List.mem_of_getElem? hcell)).caches _ _ hwaits.credential
  have hreads : m.Reads a p.params.scope.accessKey cell cred := ⟨hcell, hwaits.credential⟩
  have hlookup := cachedSigningKey_eq hcache.sound p.params.scope.date p.params.scope.region
    p.params.scope.service
  split at hlookup
  · exact answers_step (.hit hreads hlookup) (answers_keyed hI hcell hwaits)
  · exact answers_step (.miss hreads hlookup) (answers_missed hI hcell hwaits)

/-- **A call under way can be answered**, by steps of its own thread. -/
theorem answers_of_fine {a : Nat} {phase : Phase} (hI : m.Inv C)
    (hcell : m.cells[a]? = some cell) (hfine : phase.Fine C cell.state)
    (hcall : phase.underWay = some call) :
    Answers C a call (cell.state.answers C call) m phase := by
  cases phase with
  | looking call' p =>
      obtain rfl := Option.some.inj hcall
      obtain ⟨cred, hwaits⟩ := hfine
      exact answers_looking hI hcell hwaits
  | missed call' p =>
      obtain rfl := Option.some.inj hcall
      obtain ⟨cred, hwaits⟩ := hfine
      exact answers_missed hI hcell hwaits
  | keyed call' p key =>
      obtain rfl := Option.some.inj hcall
      obtain ⟨cred, hwaits, rfl⟩ := hfine
      exact answers_keyed hI hcell hwaits
  | idle => cases hcall
  | answered call' result => cases hcall
  | panicked => cases hcall

/-! ## A call that is not interrupted -/

/-- Where a thread can come to in this call. -/
def Phase.IsOf (call : Call) : Phase → Prop
  | .idle => False
  | .looking call' _ => call' = call
  | .missed call' _ => call' = call
  | .keyed call' _ _ => call' = call
  | .answered call' _ => call' = call
  | .panicked => True

/-- A step of a thread that does nothing but this call. -/
def VerifyStep (C : Crypto) (call : Call) (s s' : Memory × Thread) : Prop :=
  ThreadStep C s s' ∧ s'.2.phase.IsOf call

theorem verifyStep_idle {a : Nat} {s : Memory × Thread} (hcell : m.cells[a]? = some cell)
    (h : VerifyStep C call (m, ⟨some a, .idle⟩) s) :
    (∃ result, prepare C cell.state call = exit result
        ∧ s = (m, ⟨some a, .answered call result⟩))
      ∨ ∃ p, prepare C cell.state call = ok p ∧ s = (m, ⟨some a, .looking call p⟩) := by
  obtain ⟨hs, hcall⟩ := h
  cases hs with
  | denied hcell' hp =>
      obtain rfl := Option.some.inj (hcell.symm.trans hcell')
      obtain rfl := hcall
      exact Or.inl ⟨_, hp, rfl⟩
  | prepared hcell' hp =>
      obtain rfl := Option.some.inj (hcell.symm.trans hcell')
      obtain rfl := hcall
      exact Or.inr ⟨_, hp, rfl⟩
  | newPanics hp => exact absurd hp (new_ne_panic _ _ _ _)
  | reloadPanics _ hp =>
      rw [reload_eq_new] at hp
      exact absurd hp (new_ne_panic _ _ _ _)
  | preparePanics _ hp => exact absurd hp (prepare_ne_panic _ _ _ _)
  -- the other steps are not of the call
  | new _ => exact absurd hcall id
  | publish => exact absurd hcall id
  | clone _ => exact absurd hcall id
  | reload _ _ => exact absurd hcall id

theorem verifyStep_answered {x : Option Nat} {call' : Call} {result : VerifyResult}
    (s : Memory × Thread) : ¬VerifyStep C call (m, ⟨x, .answered call' result⟩) s := by
  rintro ⟨hs, hcall⟩
  cases hs with
  | next => exact hcall

theorem verifyStep_panicked {x : Option Nat} (s : Memory × Thread) :
    ¬VerifyStep C call (m, ⟨x, .panicked⟩) s := by
  rintro ⟨hs, _⟩
  cases hs

section

variable {a : Nat} {key : Digest} {result : VerifyResult} {t : Memory × Thread}

theorem leads_answered :
    Leads (VerifyStep C call) (m, ⟨some a, .answered call result⟩)
      (m, ⟨some a, .answered call result⟩) :=
  leads_refl verifyStep_answered

/-- With a key that `finish` can go on from, the call is answered. -/
theorem leads_keyed (hreads : m.Reads a p.params.scope.accessKey cell cred)
    (hfinish : p.finish (ε := Empty) C cred key = ok result) :
    Leads (VerifyStep C call) (m, ⟨some a, .keyed call p key⟩)
      (m, ⟨some a, .answered call result⟩) := by
  refine leads_of_steps ⟨.answer hreads hfinish, rfl⟩ ?_
  rintro s ⟨hs, _⟩
  cases hs with
  | answer hreads' hfinish' =>
      obtain ⟨rfl, rfl⟩ := hreads.unique hreads'
      obtain rfl := Outcome.ok.inj (hfinish.symm.trans hfinish')
      exact leads_answered
  | answerPanics hreads' hpanic =>
      obtain ⟨rfl, rfl⟩ := hreads.unique hreads'
      rw [hfinish] at hpanic
      cases hpanic

/-- A section under the write lock that returns leaves its key. -/
theorem leads_missed (hreads : m.Reads a p.params.scope.accessKey cell cred)
    (hfill : cred.fillSigningKey (ε := Empty) C p.params.scope.date p.params.scope.region
      p.params.scope.service = ok (key, cred'))
    (h : Leads (VerifyStep C call)
      (m.write a cell p.params.scope.accessKey cred', ⟨some a, .keyed call p key⟩) t) :
    Leads (VerifyStep C call) (m, ⟨some a, .missed call p⟩) t := by
  refine leads_of_steps ⟨.fill hreads hfill, rfl⟩ ?_
  rintro s ⟨hs, _⟩
  cases hs with
  | fill hreads' hfill' =>
      obtain ⟨rfl, rfl⟩ := hreads.unique hreads'
      obtain ⟨rfl, rfl⟩ := Prod.mk.inj (Outcome.ok.inj (hfill.symm.trans hfill'))
      exact h
  | fillPanics hreads' hpanic =>
      obtain ⟨rfl, rfl⟩ := hreads.unique hreads'
      rw [hfill] at hpanic
      cases hpanic

theorem leads_hit (hreads : m.Reads a p.params.scope.accessKey cell cred)
    (hcached : cred.cachedSigningKey p.params.scope.date p.params.scope.region
      p.params.scope.service = some key)
    (h : Leads (VerifyStep C call) (m, ⟨some a, .keyed call p key⟩) t) :
    Leads (VerifyStep C call) (m, ⟨some a, .looking call p⟩) t := by
  refine leads_of_steps ⟨.hit hreads hcached, rfl⟩ ?_
  rintro s ⟨hs, _⟩
  cases hs with
  | hit hreads' hcached' =>
      obtain ⟨rfl, rfl⟩ := hreads.unique hreads'
      obtain rfl := Option.some.inj (hcached.symm.trans hcached')
      exact h
  | miss hreads' hnone =>
      obtain ⟨rfl, rfl⟩ := hreads.unique hreads'
      cases hcached.symm.trans hnone

theorem leads_miss (hreads : m.Reads a p.params.scope.accessKey cell cred)
    (hcached : cred.cachedSigningKey p.params.scope.date p.params.scope.region
      p.params.scope.service = none)
    (h : Leads (VerifyStep C call) (m, ⟨some a, .missed call p⟩) t) :
    Leads (VerifyStep C call) (m, ⟨some a, .looking call p⟩) t := by
  refine leads_of_steps ⟨.miss hreads hcached, rfl⟩ ?_
  rintro s ⟨hs, _⟩
  cases hs with
  | hit hreads' hsome =>
      obtain ⟨rfl, rfl⟩ := hreads.unique hreads'
      cases hcached.symm.trans hsome
  | miss _ _ => exact h

/-- A call that a check ends is answered at once. -/
theorem leads_denied (hcell : m.cells[a]? = some cell)
    (hdenied : prepare C cell.state call = exit result) :
    Leads (VerifyStep C call) (m, ⟨some a, .idle⟩) (m, ⟨some a, .answered call result⟩) := by
  refine leads_of_steps ⟨.denied hcell hdenied, rfl⟩ fun s hs => ?_
  rcases verifyStep_idle hcell hs with ⟨result', hdenied', rfl⟩ | ⟨p, hp, rfl⟩
  · obtain rfl := Outcome.exit.inj (hdenied.symm.trans hdenied')
    exact leads_answered
  · cases hdenied.symm.trans hp

theorem leads_prepared (hcell : m.cells[a]? = some cell)
    (hprepare : prepare C cell.state call = ok p)
    (h : Leads (VerifyStep C call) (m, ⟨some a, .looking call p⟩) t) :
    Leads (VerifyStep C call) (m, ⟨some a, .idle⟩) t := by
  refine leads_of_steps ⟨.prepared hcell hprepare, rfl⟩ fun s hs => ?_
  rcases verifyStep_idle hcell hs with ⟨result, hdenied, rfl⟩ | ⟨p', hp, rfl⟩
  · cases hprepare.symm.trans hdenied
  · obtain rfl := Outcome.ok.inj (hprepare.symm.trans hp)
    exact h

/-- What a call of `verify` leaves of the memory: the state it worked on, with the caches of `v`,
and the other states as they were. -/
structure LeavesAs (m : Memory) (a : Nat) (v : Verifier) (m' : Memory) : Prop where
  caches : ∃ cell', m'.cells[a]? = some cell' ∧ ∀ accessKey,
    cell'.state.credentials.lookup accessKey = v.state.credentials.lookup accessKey
  others : ∀ b, b ≠ a → m'.cells[b]? = m.cells[b]?

/-- **The steps of a call** cannot but come to the answer of `verify`. -/
theorem leads_verify {v : Verifier} (hcell : m.cells[a]? = some cell)
    (hverify : (Verifier.mk cell.state).verify C call.method call.rawUri call.host call.now
      = ok (result, v)) :
    ∃ m', LeavesAs m a v m'
      ∧ Leads (VerifyStep C call) (m, ⟨some a, .idle⟩) (m', ⟨some a, .answered call result⟩) := by
  unfold Verifier.verify at hverify
  cases hr : checkRequest C cell.state call.method call.rawUri call.host call.now with
  | panic x =>
      rw [hr] at hverify
      cases hverify
  | exit denied =>
      rw [hr] at hverify
      obtain ⟨rfl, rfl⟩ := Prod.mk.inj (Outcome.ok.inj hverify)
      have hdenied : prepare C cell.state call = exit denied := by
        rw [prepare_eq, hr, exit_bind]
      exact ⟨m, ⟨⟨cell, hcell, fun _ => rfl⟩, fun _ _ => rfl⟩, leads_denied hcell hdenied⟩
  | ok checked =>
      obtain ⟨line, params, cred⟩ := checked
      rw [hr] at hverify
      obtain ⟨_, hsig, hv⟩ := bind_eq_ok.mp hverify
      obtain ⟨rfl, rfl⟩ := Prod.mk.inj (Outcome.ok.inj hv)
      have hprepare : prepare C cell.state call = ok ⟨line, params, line.hash C⟩ := by
        rw [prepare_eq, hr, ok_bind]
      have hlookup := (checkRequest_eq_ok.mp hr).2.2.1
      have hreads : m.Reads a params.scope.accessKey cell cred := ⟨hcell, hlookup⟩
      rw [checkSignature_cut ⟨line, params, line.hash C⟩ rfl] at hsig
      obtain ⟨⟨key, cred'⟩, hkey, hsig⟩ := bind_eq_ok.mp hsig
      obtain ⟨result, hfinish, hsig⟩ := bind_eq_ok.mp hsig
      obtain rfl := Outcome.ok.inj hsig
      unfold CompiledCredential.signingKey at hkey
      cases hcached : cred.cachedSigningKey params.scope.date params.scope.region
          params.scope.service with
      | some cached =>
          rw [hcached] at hkey
          obtain ⟨rfl, rfl⟩ := Prod.mk.inj (Outcome.ok.inj hkey)
          refine ⟨m, ⟨⟨cell, hcell, fun k => ?_⟩, fun _ _ => rfl⟩,
            leads_prepared hcell hprepare (leads_hit hreads hcached (leads_keyed hreads hfinish))⟩
          -- the credential is stored as it was found
          show _ = (cell.state.credentials.insert params.scope.accessKey cred).lookup k
          by_cases hk : k = params.scope.accessKey
          · subst hk
            rw [AList.lookup_insert, hlookup]
          · rw [AList.lookup_insert_ne hk]
      | none =>
          rw [hcached] at hkey
          have hwritten : (m.write a cell params.scope.accessKey cred').Reads a
              params.scope.accessKey { cell with
                state := ((Verifier.mk cell.state).store params.scope.accessKey cred').state }
              cred' :=
            ⟨List.getElem?_set_self (List.getElem?_eq_some_iff.mp hcell).1, AList.lookup_insert _⟩
          refine ⟨_, ⟨⟨_, hwritten.state, fun _ => rfl⟩, fun b hb => ?_⟩,
            leads_prepared hcell hprepare (leads_miss hreads hcached
              (leads_missed hreads hkey (leads_keyed hwritten hfinish)))⟩
          exact List.getElem?_set_ne hb.symm

/--
**A call that is not interrupted** is `verify`. Whatever steps a thread takes in a call, with no
step of another between them: it can go on; it does not panic; and if it has been answered, then
with what `verify` answers on the state its pointer leads to, and the caches are as `verify` leaves
them, while no other state has changed.
-/
theorem verify_alone {v : Verifier} (hcell : m.cells[a]? = some cell)
    (hverify : (Verifier.mk cell.state).verify C call.method call.rawUri call.host call.now
      = ok (result, v)) {s : Memory × Thread}
    (hrun : Relation.ReflTransGen (VerifyStep C call) (m, ⟨some a, .idle⟩) s) :
    s.2.phase ≠ .panicked
      ∧ (∀ result', s.2.phase = .answered call result' → result' = result ∧ LeavesAs m a v s.1)
      ∧ ∃ m', LeavesAs m a v m'
        ∧ Relation.ReflTransGen (VerifyStep C call) s (m', ⟨some a, .answered call result⟩) := by
  obtain ⟨m', hleaves, hleads⟩ := leads_verify hcell hverify
  obtain ⟨m₁, x, phase⟩ := s
  refine ⟨?_, ?_, m', hleaves, hleads _ hrun⟩
  · rintro rfl
    -- a thread that has panicked cannot go on to an answer
    have heq := hleads.eq_of_stop hrun verifyStep_panicked
    exact Phase.noConfusion (congrArg (fun s => s.2.phase) heq)
  · rintro result' rfl
    obtain ⟨rfl, ht⟩ := Prod.mk.inj (hleads.eq_of_stop hrun verifyStep_answered)
    exact ⟨(Phase.answered.inj (congrArg Thread.phase ht)).2, hleaves⟩

end

/-! ## The system -/

/-- What a fresh verifier of the configuration at `a` answers to a call. -/
def Memory.FreshAnswer (C : Crypto) (m : Memory) (a : Nat) (call : Call) (result : VerifyResult) :
    Prop :=
  ∃ cell fresh v, m.cells[a]? = some cell
    ∧ Verifier.new C cell.settings cell.credentials = ok fresh
    ∧ fresh.verify C call.method call.rawUri call.host call.now = ok (result, v)

theorem freshAnswer_answers {a : Nat} (hI : m.Inv C) (hcell : m.cells[a]? = some cell)
    (call : Call) : m.FreshAnswer C a call (cell.state.answers C call) := by
  obtain ⟨fresh, hnew, hsame⟩ := (hI.cells cell (List.mem_of_getElem? hcell)).fresh
  obtain ⟨v, hverify, _⟩ := verify_eq (new_sane hnew) call.method call.rawUri call.host call.now
  refine ⟨cell, fresh, v, hcell, hnew, ?_⟩
  rw [hverify, answers_congr hsame]
  rfl

/-- The caches of a state: each holds at most 32 keys, of scopes that differ, under the secret that
is configured. -/
theorem Cell.Inv.signingCache (h : cell.Inv C) {accessKey : Str}
    (hlookup : cell.state.credentials.lookup accessKey = some cred) :
    cred.signingCache.poisoned = false ∧ cred.signingCache.value.length ≤ 32
      ∧ (cred.signingCache.value.map fun e => (e.date, e.region, e.service)).Nodup
      ∧ ∃ credential ∈ cell.credentials, credential.accessKey.trim = accessKey
        ∧ ∀ e ∈ cred.signingCache.value, e.key = Spec.signingKey C credential.secretKey.bytes
            e.date.bytes e.region.bytes e.service.bytes := by
  have hcache := h.caches accessKey cred hlookup
  obtain ⟨v, hnew, hsame⟩ := h.fresh
  have hfind := hsame.find accessKey
  rw [hlookup, Option.map_some] at hfind
  obtain ⟨cred₀, hlookup₀, herase⟩ := Option.map_eq_some_iff.mp hfind.symm
  have hstate := compileState_eq_ok (new_eq_ok.mp hnew)
  obtain ⟨credential, hmem, hkey, hcompile⟩ := (hstate.installed.find _ _).mp hlookup₀
  have hseed : cred.secretSeed = bytes "AWS4" ++ credential.secretKey.bytes := by
    rw [← (compileCredential_eq_ok hcompile).secretSeed]
    exact (congrArg CompiledCredential.secretSeed herase).symm
  refine ⟨hcache.sound.sane, hcache.sound.bounded, hcache.distinct, credential, hmem, hkey, ?_⟩
  intro e he
  rw [hcache.sound.keys e he, hseed, deriveSigningKey_eq]

section

variable {ι : Type} [DecidableEq ι] {w : World ι Memory Thread}

/--
**Verifiers are safe under threads.** Whatever verifiers threads have made, cloned, reloaded and
called, and however their steps were interleaved: every cache is sound and within its bound; no
thread has panicked; a call that has returned has the answer of a fresh verifier of the
configuration that its thread's pointer leads to, which no other thread can change; and a call
under way can go on to that answer by steps of its own.
-/
theorem threads_safe (h : Reachable (threads C) World.start w) :
    (∀ cell ∈ w.shared.cells, ∀ accessKey cred,
        cell.state.credentials.lookup accessKey = some cred →
        cred.signingCache.poisoned = false ∧ cred.signingCache.value.length ≤ 32
          ∧ (cred.signingCache.value.map fun e => (e.date, e.region, e.service)).Nodup
          ∧ ∃ credential ∈ cell.credentials, credential.accessKey.trim = accessKey
            ∧ ∀ e ∈ cred.signingCache.value, e.key = Spec.signingKey C
                credential.secretKey.bytes e.date.bytes e.region.bytes e.service.bytes)
      ∧ ∀ i, (w.party i).phase ≠ .panicked
        ∧ (∀ call result, (w.party i).phase = .answered call result →
            ∃ a, (w.party i).verifier = some a ∧ w.shared.FreshAnswer C a call result)
        ∧ (∀ call, (w.party i).phase.underWay = some call →
            ∃ a result w', (w.party i).verifier = some a ∧ w.shared.FreshAnswer C a call result
              ∧ Reachable (threads C) w w' ∧ w'.party i = ⟨some a, .answered call result⟩
              ∧ ∀ j, j ≠ i → w'.party j = w.party j) := by
  obtain ⟨hI, hfine⟩ := reachable_fine h
  refine ⟨fun cell hcell accessKey cred hlookup => (hI.cells cell hcell).signingCache hlookup,
    fun i => ?_⟩
  have hi := hfine i
  cases ht : w.party i with
  | mk verifier phase =>
      rw [ht] at hi
      cases verifier with
      | none =>
          -- without a verifier, a thread is idle
          obtain rfl : phase = .idle := hi
          refine ⟨Phase.noConfusion, fun _ _ hp => Phase.noConfusion hp, fun _ hp => ?_⟩
          exact absurd hp (Option.some_ne_none _).symm
      | some a =>
          obtain ⟨cell, hcell, hphase⟩ := hi
          refine ⟨?_, ?_, ?_⟩
          · rintro rfl
            exact hphase
          · rintro call result rfl
            refine ⟨a, rfl, ?_⟩
            rw [show result = cell.state.answers C call from hphase]
            exact freshAnswer_answers hI hcell call
          · intro call hcall
            obtain ⟨m', hrun⟩ := answers_of_fine hI hcell hphase hcall
            rw [← ht] at hrun
            refine ⟨a, _, _, rfl, freshAnswer_answers hI hcell call,
              reachable_of_alone (i := i) hrun, ?_, fun j hj => ?_⟩
            · exact Function.update_self _ _ _
            · exact Function.update_of_ne hj _ _

end

/-- The sample request, as a call. -/
def sampleCall : Call where
  method := sampleRequest.method
  rawUri := sampleRequest.rawUri
  host := sampleRequest.host
  now := sampleRequest.now

theorem sample_prepared : ∃ p, prepare sampleCrypto sampleVerifier.state sampleCall = ok p :=
  prepared_of_allowed sample_answer

/-- Two threads with one verifier: both have missed the key, and one has filled it in and been
answered. -/
theorem threads_safe_sample :
    ∃ (w : World Bool Memory Thread) (p : Pending) (result : VerifyResult),
      Reachable (threads sampleCrypto) World.start w
        ∧ w.party false = ⟨some 0, .answered sampleCall result⟩ ∧ result.allowed = true
        ∧ w.party true = ⟨some 0, .missed sampleCall p⟩
        ∧ (∃ a, some 0 = some a ∧ w.shared.FreshAnswer sampleCrypto a sampleCall result)
        ∧ ∃ a result w', some 0 = some a ∧ w.shared.FreshAnswer sampleCrypto a sampleCall result
          ∧ Reachable (threads sampleCrypto) w w'
          ∧ w'.party true = ⟨some a, .answered sampleCall result⟩ := by
  obtain ⟨p, hprepare⟩ := sample_prepared
  let m₁ : Memory := ⟨[⟨sampleSettings, [sampleCredential], sampleVerifier.state⟩], []⟩
  let m₂ : Memory := { m₁ with published := [0] }
  have hcell : m₂.cells[0]? = some ⟨sampleSettings, [sampleCredential], sampleVerifier.state⟩ := rfl
  obtain ⟨cred, hwaits⟩ := waits_of_prepared hprepare
  have hreads : m₂.Reads 0 p.params.scope.accessKey _ cred := ⟨hcell, hwaits.credential⟩
  have hI : m₂.Inv sampleCrypto := by
    refine ⟨((inv_empty sampleCrypto).alloc sample_new).cells, fun a ha => ?_⟩
    rw [List.mem_singleton.mp ha]
    exact ⟨_, hcell⟩
  have hmiss : cred.cachedSigningKey p.params.scope.date p.params.scope.region
      p.params.scope.service = none := by
    have hst := compileState_eq_ok (new_eq_ok.mp sample_new)
    obtain ⟨_, _, _, hcompile⟩ := (hst.installed.find _ _).mp hwaits.credential
    unfold CompiledCredential.cachedSigningKey
    rw [(compileCredential_eq_ok hcompile).signingCache]
    rfl
  obtain ⟨m', hrun⟩ := answers_missed hI hcell hwaits
  have hstart : Reachable (threads (ι := Bool) sampleCrypto) World.start World.start := .init
  have hshared := ((hstart.step (.move (i := false) (.new sample_new))).step
    (.move (i := false) .publish)).step (.move (i := true) (.clone (List.mem_singleton.mpr rfl)))
  have hprepared := (hshared.step (.move (i := false) (.prepared hcell hprepare))).step
    (.move (i := true) (.prepared hcell hprepare))
  have hmissed := (hprepared.step (.move (i := false) (.miss hreads hmiss))).step
    (.move (i := true) (.miss hreads hmiss))
  have hfalse := hmissed.trans (reachable_of_alone (i := false) hrun)
  obtain ⟨_, hcalls⟩ := threads_safe hfalse
  obtain ⟨_, hanswered, _⟩ := hcalls false
  obtain ⟨_, _, hunder⟩ := hcalls true
  obtain ⟨a, result, w', ha, hfresh, hreach, hparty, _⟩ := hunder sampleCall rfl
  exact ⟨_, p, _, hfalse, rfl, sample_answer, rfl, hanswered sampleCall _ rfl, a, result, w', ha,
    hfresh, hreach, hparty⟩

/-- A thread alone has the sample request allowed, however it was run. -/
theorem verify_alone_sample :
    ∃ (m : Memory) (v : Verifier) (m' : Memory) (result : VerifyResult),
      m.cells[0]? = some ⟨sampleSettings, [sampleCredential], sampleVerifier.state⟩
        ∧ Relation.ReflTransGen (VerifyStep sampleCrypto sampleCall) (m, ⟨some 0, .idle⟩)
          (m', ⟨some 0, .answered sampleCall result⟩)
        ∧ result.allowed = true ∧ LeavesAs m 0 v m' := by
  obtain ⟨v, hverify, _⟩ := verify_eq (new_sane sample_new) sampleCall.method sampleCall.rawUri
    sampleCall.host sampleCall.now
  let m : Memory := ⟨[⟨sampleSettings, [sampleCredential], sampleVerifier.state⟩], []⟩
  have hcell : m.cells[0]? = some ⟨sampleSettings, [sampleCredential], sampleVerifier.state⟩ := rfl
  obtain ⟨_, _, m', _, hrun⟩ := verify_alone hcell hverify .refl
  -- the run that there is ends as every run does
  obtain ⟨_, hanswered, _⟩ := verify_alone hcell hverify hrun
  exact ⟨m, v, m', _, hcell, hrun, sample_answer, (hanswered _ rfl).2⟩

end SigV4
