/-!
# Computations that return early or panic

A Rust call ends in one of three ways: it falls through to its value, it leaves
early (`return Err(e)`, `?`, `return deny(..)`), or it panics. `Outcome` keeps
the three apart, so "cannot panic" is a statement about values and not about the
absence of one.

`while` loops are written with `loop`: a body that says whether to go round again
or to leave, and a fuel argument. Running out of fuel is a panic of its own kind,
so a theorem that a call ends in `ok` or `exit` also says that each of its loops
terminates. `loop_eq` is the one induction over loops; every loop of the model is
settled by one case analysis of its body.
-/

namespace SigV4

/-- What a Rust program panics on. -/
inductive Panic where
  /-- An index past the end. -/
  | index
  /-- A slice range past the end. -/
  | slice
  /-- A `str` slice off a UTF-8 character boundary. -/
  | charBoundary
  /-- `expect` or `unwrap` on an absent value. -/
  | expect
  /-- Machine arithmetic out of range. -/
  | overflow
  /-- A loop that does not terminate. -/
  | diverge
  deriving DecidableEq, Repr

/-- How a call ends: with a value, by an early exit, or by a panic. -/
inductive Outcome (ε α : Type) where
  | ok (a : α)
  | exit (e : ε)
  | panic (p : Panic)
  deriving DecidableEq, Repr

namespace Outcome

variable {ε δ α β ρ σ τ : Type}

/-- Sequencing: an exit or a panic skips the rest. -/
protected def bind (x : Outcome ε α) (f : α → Outcome ε β) : Outcome ε β :=
  match x with
  | ok a => f a
  | exit e => exit e
  | panic p => panic p

instance : Monad (Outcome ε) where
  pure := ok
  bind := Outcome.bind

@[simp] theorem pure_eq (a : α) : (pure a : Outcome ε α) = ok a := rfl

@[simp] theorem ok_bind (a : α) (f : α → Outcome ε β) : (ok a >>= f) = f a := rfl

@[simp] theorem exit_bind (e : ε) (f : α → Outcome ε β) : (exit e >>= f) = exit e := rfl

@[simp] theorem panic_bind (p : Panic) (f : α → Outcome ε β) : (panic p >>= f) = panic p := rfl

instance : LawfulMonad (Outcome ε) :=
  LawfulMonad.mk' (Outcome ε) (fun x => by cases x <;> rfl) (fun _ _ => rfl)
    (fun x _ _ => by cases x <;> rfl)

@[simp] theorem map_ok (f : α → β) (a : α) : (f <$> (ok a : Outcome ε α)) = ok (f a) := rfl

@[simp] theorem map_exit (f : α → β) (e : ε) : (f <$> (exit e : Outcome ε α)) = exit e := rfl

/-- A sequence ends in a value exactly when both halves do. -/
theorem bind_eq_ok {x : Outcome ε α} {f : α → Outcome ε β} {b : β} :
    (x >>= f) = ok b ↔ ∃ a, x = ok a ∧ f a = ok b := by
  cases x <;> simp

/-- `r.is_ok()`. -/
def isOk : Outcome ε α → Bool
  | ok _ => true
  | exit _ => false
  | panic _ => false

theorem isOk_iff {x : Outcome ε α} : x.isOk = true ↔ ∃ a, x = ok a := by
  cases x <;> simp [isOk]

@[simp] theorem map_panic (f : α → β) (p : Panic) : (f <$> (panic p : Outcome ε α)) = panic p := rfl

theorem map_eq_ok {f : α → β} {x : Outcome ε α} {b : β} :
    f <$> x = ok b ↔ ∃ a, x = ok a ∧ f a = b := by
  cases x <;> simp

/-- Change what an early exit carries: `match r { Err(e) => return f(e), .. }`. -/
def mapExit (f : ε → δ) : Outcome ε α → Outcome δ α
  | ok a => ok a
  | exit e => exit (f e)
  | panic p => panic p

@[simp] theorem mapExit_ok (f : ε → δ) (a : α) : mapExit f (ok a) = ok a := rfl

@[simp] theorem mapExit_exit (f : ε → δ) (e : ε) : mapExit (α := α) f (exit e) = exit (f e) := rfl

@[simp] theorem mapExit_panic (f : ε → δ) (p : Panic) :
    mapExit (α := α) f (panic p) = panic p := rfl

theorem mapExit_eq_ok {f : ε → δ} {x : Outcome ε α} {a : α} :
    mapExit f x = ok a ↔ x = ok a := by
  cases x <;> simp

/-- Turn an early exit into a value: `r.unwrap_or_else(f)`. -/
def recover (f : ε → α) : Outcome ε α → Outcome δ α
  | ok a => ok a
  | exit e => ok (f e)
  | panic p => panic p

@[simp] theorem recover_ok (f : ε → α) (a : α) : recover (δ := δ) f (ok a) = ok a := rfl

@[simp] theorem recover_exit (f : ε → α) (e : ε) : recover (δ := δ) f (exit e) = ok (f e) := rfl

/-- `let Some(a) = o else { return e }`. -/
def ofOption (e : ε) : Option α → Outcome ε α
  | some a => ok a
  | none => exit e

@[simp] theorem ofOption_some (e : ε) (a : α) : ofOption e (some a) = ok a := rfl

@[simp] theorem ofOption_none (e : ε) : ofOption (α := α) e none = exit e := rfl

theorem ofOption_eq_ok {e : ε} {o : Option α} {a : α} : ofOption e o = ok a ↔ o = some a := by
  cases o <;> simp

/-- `o.expect(..)`. -/
def expect : Option α → Outcome ε α
  | some a => ok a
  | none => panic .expect

@[simp] theorem expect_some (a : α) : (expect (some a) : Outcome ε α) = ok a := rfl

/-- `if c { return e }`. -/
def exitIf (c : Bool) (e : ε) : Outcome ε Unit := if c then exit e else ok ()

theorem exitIf_eq_ok {c : Bool} {e : ε} {u : Unit} : exitIf c e = ok u ↔ c = false := by
  cases c <;> simp [exitIf]

@[simp] theorem exitIf_true (e : ε) : exitIf true e = exit e := rfl

@[simp] theorem exitIf_false (e : ε) : exitIf false e = ok () := rfl

/-! ## Machine integers -/

/-- The least and the greatest value of a machine integer type. -/
structure IntType where
  lo : Int
  hi : Int

def u32 : IntType := ⟨0, 4294967295⟩
def u64 : IntType := ⟨0, 18446744073709551615⟩
def i32 : IntType := ⟨-2147483648, 2147483647⟩
def i64 : IntType := ⟨-9223372036854775808, 9223372036854775807⟩

/-- The exact result of a machine operation, or a panic where the type cannot hold it. -/
def checked (t : IntType) (x : Int) : Outcome ε Int :=
  if t.lo ≤ x ∧ x ≤ t.hi then ok x else panic .overflow

theorem checked_of_mem {t : IntType} {x : Int} (h : t.lo ≤ x ∧ x ≤ t.hi) :
    checked (ε := ε) t x = ok x := by
  unfold checked; rw [if_pos h]

/-- The exact result of a machine operation, clamped to the type. -/
def saturate (t : IntType) (x : Int) : Int := max t.lo (min t.hi x)

theorem saturate_of_mem {t : IntType} {x : Int} (h : t.lo ≤ x ∧ x ≤ t.hi) : saturate t x = x := by
  unfold saturate; omega

/-! ## Loops -/

/-- One pass of a loop body: go round again, or leave. -/
inductive Pass (σ ρ : Type) where
  | again (s : σ)
  | leave (r : ρ)
  deriving DecidableEq, Repr

/-- `while`: run the body until it leaves, at most `fuel` times. -/
def loop (body : σ → Outcome ε (Pass σ ρ)) : Nat → σ → Outcome ε ρ
  | 0, _ => panic .diverge
  | fuel + 1, s => body s >>= fun
    | .again s' => loop body fuel s'
    | .leave r => ok r

/--
**The loop rule.**

`f` says what the loop computes from each state that satisfies `I`. If every pass
of the body keeps `I`, lowers the measure and does not change `f`, and every way
out agrees with `f`, then a loop with more fuel than its measure computes `f`.
-/
theorem loop_eq {body : σ → Outcome ε (Pass σ ρ)} {f : σ → Outcome ε ρ} {μ : σ → Nat}
    {I : σ → Prop}
    (hstep : ∀ s, I s →
      (∃ s', body s = ok (.again s') ∧ I s' ∧ μ s' < μ s ∧ f s' = f s)
        ∨ (∃ r, body s = ok (.leave r) ∧ f s = ok r)
        ∨ (∃ e, body s = exit e ∧ f s = exit e)) :
    ∀ (fuel : Nat) (s : σ), I s → μ s < fuel → loop body fuel s = f s
  | 0, _, _, hlt => absurd hlt (Nat.not_lt_zero _)
  | fuel + 1, s, hI, hlt => by
      rw [loop]
      rcases hstep s hI with ⟨s', hb, hI', hμ, hf⟩ | ⟨r, hb, hf⟩ | ⟨e, hb, hf⟩
      · rw [hb, ok_bind, ← hf]
        exact loop_eq hstep fuel s' hI' (by omega)
      · rw [hb, hf]; rfl
      · rw [hb, hf]; rfl

/-! ## Folds -/

/-- **A fold succeeds** when no element makes a step fail. -/
theorem foldlM_isOk_iff {f : τ → α → Outcome ε τ} {P : α → Prop}
    (h : ∀ t a, (∃ t', f t a = ok t') ↔ P a) :
    ∀ (l : List α) (t : τ), (∃ t', l.foldlM f t = ok t') ↔ ∀ a ∈ l, P a
  | [], t => ⟨fun _ a ha => absurd ha List.not_mem_nil, fun _ => ⟨t, rfl⟩⟩
  | a :: l, t => by
      rw [List.forall_mem_cons, List.foldlM_cons]
      refine ⟨?_, ?_⟩
      · intro hc
        obtain ⟨t', hf⟩ := hc
        obtain ⟨u, hu, hrest⟩ := bind_eq_ok.mp hf
        exact ⟨(h t a).mp ⟨u, hu⟩, (foldlM_isOk_iff h l u).mp ⟨t', hrest⟩⟩
      · intro hc
        obtain ⟨u, hu⟩ := (h t a).mpr hc.1
        obtain ⟨t', hrest⟩ := (foldlM_isOk_iff h l u).mpr hc.2
        exact ⟨t', by rw [hu, ok_bind, hrest]⟩

/-- A fold whose every step ends in a value is the pure fold. -/
theorem foldlM_ok {f : τ → α → Outcome ε τ} {g : τ → α → τ} :
    ∀ (l : List α) (t : τ), (∀ t, ∀ a ∈ l, f t a = ok (g t a)) →
      l.foldlM f t = ok (l.foldl g t)
  | [], _, _ => rfl
  | a :: l, t, h => by
      rw [List.foldlM_cons, h t a (by simp), ok_bind, List.foldl_cons]
      exact foldlM_ok l _ (fun t b hb => h t b (List.mem_cons_of_mem _ hb))

/-- A fold that leaves at the first element that fails `p`, always with the same exit. -/
theorem foldlM_guard {f : τ → α → Outcome ε τ} {p : α → Bool} {g : τ → α → τ} {e : ε}
    (hf : ∀ t a, f t a = if p a then ok (g t a) else exit e) :
    ∀ (l : List α) (t : τ), l.foldlM f t = if l.all p then ok (l.foldl g t) else exit e
  | [], _ => rfl
  | a :: l, t => by
      rw [List.foldlM_cons, hf, List.all_cons, List.foldl_cons]
      cases hp : p a with
      | true => rw [if_pos rfl, ok_bind, foldlM_guard hf l, Bool.true_and]
      | false => rfl

/--
**The rule for folds.** `P` relates what has been read to the accumulator. If it holds
at the start and every step keeps it, it holds of the whole list at the end.
-/
theorem foldlM_inv {f : τ → α → Outcome ε τ} {P : List α → τ → Prop} {t₀ : τ} (h0 : P [] t₀)
    (hstep : ∀ pre a t t', P pre t → f t a = ok t' → P (pre ++ [a]) t') :
    ∀ {l : List α} {t : τ}, l.foldlM f t₀ = ok t → P l t := by
  have hgen : ∀ (l pre : List α) (t₁ t : τ), P pre t₁ → l.foldlM f t₁ = ok t → P (pre ++ l) t := by
    intro l
    induction l with
    | nil =>
        intro pre t₁ t hP h
        rw [← Outcome.ok.inj h, List.append_nil]
        exact hP
    | cons a l ih =>
        intro pre t₁ t hP h
        rw [List.foldlM_cons] at h
        obtain ⟨t₂, ha, h⟩ := bind_eq_ok.mp h
        have := ih (pre ++ [a]) t₂ t (hstep pre a t₁ t₂ hP ha) h
        rwa [List.append_assoc] at this
  intro l t h
  exact hgen l [] t₀ t h0 h

/--
**The rule for reordering.** A fold of steps that commute, up to a relation that every step
keeps, ends on each permutation of the list, in related values.
-/
theorem foldlM_perm {f : τ → α → Outcome ε τ} {R : τ → τ → Prop} (hrefl : ∀ t, R t t)
    (htrans : ∀ {t u v}, R t u → R u v → R t v)
    (hkeep : ∀ {t u a t'}, R t u → f t a = ok t' → ∃ u', f u a = ok u' ∧ R t' u')
    (hswap : ∀ {t u v a b}, f t a = ok u → f u b = ok v →
      ∃ u' v', f t b = ok u' ∧ f u' a = ok v' ∧ R v v')
    {l l' : List α} (h : l.Perm l') :
    ∀ {t u : τ}, l.foldlM f t = ok u → ∃ u', l'.foldlM f t = ok u' ∧ R u u' := by
  have hrun : ∀ (l : List α) {t t' u : τ}, R t t' → l.foldlM f t = ok u →
      ∃ u', l.foldlM f t' = ok u' ∧ R u u' := by
    intro l
    induction l with
    | nil =>
        intro t t' u hR hu
        rw [← Outcome.ok.inj hu]
        exact ⟨t', rfl, hR⟩
    | cons a l ih =>
        intro t t' u hR hu
        rw [List.foldlM_cons] at hu
        obtain ⟨t₁, ha, hu⟩ := bind_eq_ok.mp hu
        obtain ⟨t₁', ha', hR⟩ := hkeep hR ha
        obtain ⟨u', hu', hR⟩ := ih hR hu
        exact ⟨u', by rw [List.foldlM_cons, ha', ok_bind, hu'], hR⟩
  induction h with
  | nil =>
      intro t u hu
      exact ⟨u, hu, hrefl u⟩
  | cons a _ ih =>
      intro t u hu
      rw [List.foldlM_cons] at hu
      obtain ⟨t₁, ha, hu⟩ := bind_eq_ok.mp hu
      obtain ⟨u', hu', hR⟩ := ih hu
      exact ⟨u', by rw [List.foldlM_cons, ha, ok_bind, hu'], hR⟩
  | swap a b l =>
      intro t u hu
      rw [List.foldlM_cons] at hu
      obtain ⟨t₁, hb, hu⟩ := bind_eq_ok.mp hu
      rw [List.foldlM_cons] at hu
      obtain ⟨t₂, ha, hu⟩ := bind_eq_ok.mp hu
      -- the two steps commute; what follows starts from a related value
      obtain ⟨s₁, s₂, ha', hb', hR⟩ := hswap hb ha
      obtain ⟨u', hu', hR⟩ := hrun l hR hu
      exact ⟨u', by rw [List.foldlM_cons, ha', ok_bind, List.foldlM_cons, hb', ok_bind, hu'], hR⟩
  | trans _ _ ih₁ ih₂ =>
      intro t u hu
      obtain ⟨u₁, hu₁, hR₁⟩ := ih₁ hu
      obtain ⟨u₂, hu₂, hR₂⟩ := ih₂ hu₁
      exact ⟨u₂, hu₂, htrans hR₁ hR₂⟩

/-! ## Safety -/

/-- The call ends without a panic, and leaves early only with what satisfies `P`. -/
def Ends (P : ε → Prop) : Outcome ε α → Prop
  | ok _ => True
  | exit e => P e
  | panic _ => False

/-- The call ends without a panic. -/
abbrev Safe (x : Outcome ε α) : Prop := Ends (fun _ => True) x

section Ends

variable {P : ε → Prop}

theorem ends_ok (a : α) : Ends P (ok a : Outcome ε α) := trivial

theorem ends_exit {e : ε} (h : P e) : Ends P (exit e : Outcome ε α) := h

/-- **A sequence ends well** when its first half does and its second half does on every
value the first can end in. -/
theorem ends_bind {x : Outcome ε α} {f : α → Outcome ε β} (hx : Ends P x)
    (hf : ∀ a, x = ok a → Ends P (f a)) : Ends P (x >>= f) := by
  cases x with
  | ok a => exact hf a rfl
  | exit e => exact hx
  | panic p => exact absurd hx id

theorem ends_map {x : Outcome ε α} {f : α → β} (hx : Ends P x) : Ends P (f <$> x) := by
  cases x with
  | ok a => exact trivial
  | exit e => exact hx
  | panic p => exact absurd hx id

theorem ends_mapExit {Q : δ → Prop} {x : Outcome ε α} {f : ε → δ} (hx : Safe x)
    (hf : ∀ e, Q (f e)) : Ends Q (mapExit f x) := by
  cases x with
  | ok a => exact trivial
  | exit e => exact hf e
  | panic p => exact absurd hx id

theorem ends_recover {Q : δ → Prop} {x : Outcome ε α} {f : ε → α} (hx : Safe x) :
    Ends Q (recover f x) := by
  cases x with
  | ok a => exact trivial
  | exit e => exact trivial
  | panic p => exact absurd hx id

theorem ends_ofOption {e : ε} (h : P e) (o : Option α) : Ends P (ofOption e o) := by
  cases o with
  | none => exact h
  | some a => exact trivial

theorem ends_exitIf {e : ε} (h : P e) (c : Bool) : Ends P (exitIf c e) := by
  cases c with
  | false => exact trivial
  | true => exact h

theorem ends_ite {c : Prop} [Decidable c] {x y : Outcome ε α} (hx : c → Ends P x)
    (hy : ¬c → Ends P y) : Ends P (if c then x else y) := by
  by_cases h : c
  · rw [if_pos h]; exact hx h
  · rw [if_neg h]; exact hy h

/-- A fold whose steps end well ends well. -/
theorem ends_foldlM {f : τ → α → Outcome ε τ} :
    ∀ (l : List α) (t : τ), (∀ t, ∀ a ∈ l, Ends P (f t a)) → Ends P (l.foldlM f t)
  | [], _, _ => trivial
  | a :: l, t, h => by
      rw [List.foldlM_cons]
      refine ends_bind (h t a (by simp)) ?_
      intro t' _
      exact ends_foldlM l t' (fun t b hb => h t b (List.mem_cons_of_mem _ hb))

end Ends

end Outcome

end SigV4
