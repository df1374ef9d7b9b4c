import Mathlib.Data.List.Forall2
import SigV4.Lib.Outcome

/-!
# Machines and simulation

A machine takes one input after another, gives an output for each and may panic. `runs`
is its behaviour on a list of inputs. If every step of one machine is matched by a step
of another with the same output, from related states to related states, then so is every
run (`runs_of_simulation`).
-/

namespace SigV4

open Outcome

variable {ε δ ι ο σ τ : Type}

/-- The outputs of a run, and the state after it. -/
def runs (step : σ → ι → Outcome ε (ο × σ)) : σ → List ι → Outcome ε (List ο × σ)
  | s, [] => ok ([], s)
  | s, i :: inputs => do
    let (o, s) ← step s i
    let (outputs, s) ← runs step s inputs
    ok (o :: outputs, s)

theorem runs_cons {step : σ → ι → Outcome ε (ο × σ)} {s s' : σ} {i : ι} {o : ο}
    (h : step s i = ok (o, s')) (inputs : List ι) :
    runs step s (i :: inputs) = (fun r => (o :: r.1, r.2)) <$> runs step s' inputs := by
  rw [runs, h, ok_bind]
  dsimp only
  cases runs step s' inputs <;> rfl

/-- **The invariant rule.** What holds at the start and is kept by every step, which does not
fail, holds after every run; it may speak of the inputs so far. -/
theorem runs_inv {step : σ → ι → Outcome ε (ο × σ)} {P : ι → Prop} {I : List ι → σ → Prop}
    (hstep : ∀ pre s i, P i → I pre s → ∃ o s', step s i = ok (o, s') ∧ I (pre ++ [i]) s') :
    ∀ (inputs pre : List ι) (s : σ), (∀ i ∈ inputs, P i) → I pre s →
      ∃ outputs s', runs step s inputs = ok (outputs, s') ∧ I (pre ++ inputs) s'
  | [], pre, s, _, h => ⟨[], s, rfl, by rwa [List.append_nil]⟩
  | i :: inputs, pre, s, hP, h => by
      obtain ⟨o, s₁, hs, h₁⟩ := hstep pre s i (hP i List.mem_cons_self) h
      obtain ⟨outputs, s', hruns, h'⟩ :=
        runs_inv hstep inputs (pre ++ [i]) s₁ (fun j hj => hP j (List.mem_cons_of_mem _ hj)) h₁
      refine ⟨o :: outputs, s', ?_, ?_⟩
      · rw [runs_cons hs, hruns]
        rfl
      · rwa [List.append_assoc] at h'

/-- One step matches another: both give the output `o`, and related states. -/
def Matches (step : σ → ι → Outcome ε (ο × σ)) (step' : τ → ι → Outcome δ (ο × τ))
    (R : σ → τ → Prop) (s : σ) (t : τ) (i : ι) : Prop :=
  ∃ o s' t', step s i = ok (o, s') ∧ step' t i = ok (o, t') ∧ R s' t'

/-- **The simulation rule.** Matching steps make matching runs. -/
theorem runs_of_simulation {step : σ → ι → Outcome ε (ο × σ)} {step' : τ → ι → Outcome δ (ο × τ)}
    {R : σ → τ → Prop} (hstep : ∀ s t i, R s t → Matches step step' R s t i) :
    ∀ (inputs : List ι) (s : σ) (t : τ), R s t →
      ∃ outputs s' t', runs step s inputs = ok (outputs, s')
        ∧ runs step' t inputs = ok (outputs, t') ∧ R s' t'
  | [], s, t, h => ⟨[], s, t, rfl, rfl, h⟩
  | i :: inputs, s, t, h => by
      obtain ⟨o, s₁, t₁, hs, ht, h₁⟩ := hstep s t i h
      obtain ⟨outputs, s', t', hs', ht', h'⟩ := runs_of_simulation hstep inputs s₁ t₁ h₁
      refine ⟨o :: outputs, s', t', ?_, ?_, h'⟩
      · rw [runs_cons hs, hs']
        rfl
      · rw [runs_cons ht, ht']
        rfl

/-! ## Two runs -/

/-- Inputs, and two outputs for each, one after the other. -/
inductive Along {ι ο π : Type} (Q : ι → ο → π → Prop) : List ι → List ο → List π → Prop where
  | nil : Along Q [] [] []
  | cons {i : ι} {o : ο} {p : π} {inputs : List ι} {outputs : List ο} {outputs' : List π} :
      Q i o p → Along Q inputs outputs outputs' →
      Along Q (i :: inputs) (o :: outputs) (p :: outputs')

/-- What does not speak of the inputs holds between the outputs. -/
theorem Along.outputs {ι ο π : Type} {Q : ο → π → Prop} {inputs : List ι} {outputs : List ο}
    {outputs' : List π} (h : Along (fun _ => Q) inputs outputs outputs') :
    List.Forall₂ Q outputs outputs' := by
  induction h with
  | nil => exact .nil
  | cons hq _ ih => exact .cons hq ih

/-- **The rule for two runs**, over cases that have an input for either. If the two inputs of a
case give related outputs, from related states to related states, then runs do, case by case. -/
theorem runs_along {π κ χ : Type} {step : σ → ι → Outcome ε (ο × σ)}
    {step' : τ → κ → Outcome δ (π × τ)} {f : χ → ι} {g : χ → κ} {R : σ → τ → Prop}
    {Q : χ → ο → π → Prop}
    (hstep : ∀ s t c, R s t → ∃ o s' p t', step s (f c) = ok (o, s')
      ∧ step' t (g c) = ok (p, t') ∧ Q c o p ∧ R s' t') :
    ∀ (cases : List χ) (s : σ) (t : τ), R s t →
      ∃ outputs s' outputs' t', runs step s (cases.map f) = ok (outputs, s')
        ∧ runs step' t (cases.map g) = ok (outputs', t') ∧ Along Q cases outputs outputs'
        ∧ R s' t'
  | [], s, t, h => ⟨[], s, [], t, rfl, rfl, .nil, h⟩
  | c :: cases, s, t, h => by
      obtain ⟨o, s₁, p, t₁, hs, ht, hq, h₁⟩ := hstep s t c h
      obtain ⟨outputs, s', outputs', t', hs', ht', hqs, h'⟩ := runs_along hstep cases s₁ t₁ h₁
      refine ⟨o :: outputs, s', p :: outputs', t', ?_, ?_, .cons hq hqs, h'⟩
      · rw [List.map_cons, runs_cons hs, hs']
        rfl
      · rw [List.map_cons, runs_cons ht, ht']
        rfl

end SigV4
