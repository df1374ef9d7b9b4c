import Mathlib.Logic.Function.Basic
import Mathlib.Logic.Relation

/-!
# Interleaving

Parties share a state and take atomic steps, in any order and as often as they can. What
a step of one party preserves holds in every state that is reached, however the steps are
interleaved (`reachable_inv`). What is known of a party may also mention the shared state;
then it has to be stable under what the others guarantee of their steps (`reachable_rely`).
A party that is left alone may have no choice but to come to one end (`Leads`).
-/

namespace SigV4.Interleaving

/-- What is shared, and where each party stands. -/
structure World (ι σ π : Type) where
  shared : σ
  party : ι → π

variable {ι σ π : Type} [DecidableEq ι] {step : ι → σ × π → σ × π → Prop} {w w' init : World ι σ π}

/-- One party takes a step; the others stay where they are. -/
inductive Step (step : ι → σ × π → σ × π → Prop) : World ι σ π → World ι σ π → Prop where
  | move {w : World ι σ π} {i : ι} {s : σ} {p : π} : step i (w.shared, w.party i) (s, p) →
      Step step w ⟨s, Function.update w.party i p⟩

/-- The states that steps lead to. -/
inductive Reachable (step : ι → σ × π → σ × π → Prop) (init : World ι σ π) :
    World ι σ π → Prop where
  | init : Reachable step init init
  | step {w w' : World ι σ π} : Reachable step init w → Step step w w' → Reachable step init w'

theorem Reachable.from_step (h : Reachable step w' init) (hs : Step step w w') :
    Reachable step w init := by
  induction h with
  | init => exact .step .init hs
  | step _ hs' ih => exact .step ih hs'

/--
**The rely-guarantee rule.** `I` is about what is shared, and `J` about a party and what is
shared. Every step guarantees `G`, and `J` is stable under it.
-/
theorem reachable_rely {I : σ → Prop} {J : ι → σ → π → Prop} {G : σ → σ → Prop}
    (hI : I init.shared) (hJ : ∀ i, J i init.shared (init.party i))
    (hstable : ∀ {i s s' p}, G s s' → J i s p → J i s' p)
    (hstep : ∀ {i s p s' p'}, I s → J i s p → step i (s, p) (s', p') →
      I s' ∧ G s s' ∧ J i s' p')
    (h : Reachable step init w) : I w.shared ∧ ∀ i, J i w.shared (w.party i) := by
  induction h with
  | init => exact ⟨hI, hJ⟩
  | step _ hs ih =>
      obtain ⟨hIw, hJw⟩ := ih
      cases hs with
      | @move i s p hmove =>
          obtain ⟨hI', hG, hJ'⟩ := hstep hIw (hJw i) hmove
          refine ⟨hI', fun j => ?_⟩
          dsimp only
          -- only the party that moved has changed
          by_cases hij : j = i
          · subst hij
            rw [Function.update_self]
            exact hJ'
          · -- the others rely on what the step guarantees
            rw [Function.update_of_ne hij]
            exact hstable hG (hJw j)

/--
**The invariant rule**, where what is known of a party does not mention the shared state. What
every step preserves holds in every state that is reached.
-/
theorem reachable_inv {I : σ → Prop} {J : ι → π → Prop} (hI : I init.shared)
    (hJ : ∀ i, J i (init.party i))
    (hstep : ∀ {i s p s' p'}, I s → J i p → step i (s, p) (s', p') → I s' ∧ J i p')
    (h : Reachable step init w) : I w.shared ∧ ∀ i, J i (w.party i) := by
  refine reachable_rely (J := fun i _ p => J i p) (G := fun _ _ => True) hI hJ
    (fun _ hJ => hJ) (fun hI hJ hs => ?_) h
  obtain ⟨hI', hJ'⟩ := hstep hI hJ hs
  exact ⟨hI', trivial, hJ'⟩

theorem Reachable.trans (h : Reachable step init w) (h' : Reachable step w w') :
    Reachable step init w' := by
  induction h' with
  | init => exact h
  | step _ hs ih => exact .step ih hs

/-! ## One party on its own -/

/-- **A party can go on alone**: in any state, its own steps are steps of the whole. -/
theorem reachable_of_alone {i : ι} {s : σ} {p : π}
    (h : Relation.ReflTransGen (step i) (w.shared, w.party i) (s, p)) :
    Reachable step w ⟨s, Function.update w.party i p⟩ := by
  generalize hc : (w.shared, w.party i) = c at h
  induction h using Relation.ReflTransGen.head_induction_on generalizing w with
  | refl =>
      obtain ⟨rfl, rfl⟩ := Prod.mk.inj hc
      rw [Function.update_eq_self]
      exact .init
  | @head c d hs _ ih =>
      subst hc
      have hmoved : Step step w ⟨d.1, Function.update w.party i d.2⟩ := .move hs
      have hrest := ih (w := ⟨d.1, Function.update w.party i d.2⟩) (by
        dsimp only
        rw [Function.update_self])
      rw [Function.update_idem] at hrest
      exact hrest.from_step hmoved

/-! ## Runs that cannot but end -/

section

variable {step : σ → σ → Prop} {s t u : σ}

/-- However steps go on from `s`, they can go on to `t`. -/
def Leads (step : σ → σ → Prop) (s t : σ) : Prop :=
  ∀ u, Relation.ReflTransGen step s u → Relation.ReflTransGen step u t

theorem leads_refl (hstop : ∀ u, ¬step s u) : Leads step s s := by
  intro u hrun
  rcases hrun.cases_head with rfl | ⟨u', hs, _⟩
  · exact .refl
  · exact absurd hs (hstop u')

/-- Some step can be taken, and each that can leads on. -/
theorem leads_of_steps (hs : step s u) (h : ∀ u, step s u → Leads step u t) : Leads step s t := by
  intro u' hrun
  rcases hrun.cases_head with rfl | ⟨v, hv, hrun'⟩
  · exact (h u hs u .refl).head hs
  · exact h v hv u' hrun'

/-- **There is one end**: a run that cannot go on has come to it. -/
theorem Leads.eq_of_stop (h : Leads step s t) (hrun : Relation.ReflTransGen step s u)
    (hstop : ∀ v, ¬step u v) : u = t := by
  rcases (h u hrun).cases_head with rfl | ⟨v, hv, _⟩
  · rfl
  · exact absurd hv (hstop v)

end

end SigV4.Interleaving
