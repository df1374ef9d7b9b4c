import Mathlib.Data.List.Forall2
import Mathlib.Data.List.Perm.Basic

/-!
# Slots

A slot is a value that may be set once. `Fills` says what a slot holds after a list of settings
without saying in which order they come, and that there is one of them at most. A setting more
is one that finds the slot empty (`fills_cons`), and the order does not matter (`fills_perm`).
-/

namespace SigV4.Slots

variable {α β : Type} {R : α → β → Prop} {a : α} {as bs : List α} {x y z : Option β}

/-- The settings `as` turn the slot `x` into `y`; `R` is what a setting stands for. -/
def Fills (R : α → β → Prop) (x : Option β) : List α → Option β → Prop
  | [], y => y = x
  | [a], y => x = none ∧ ∃ b, R a b ∧ y = some b
  | _ :: _ :: _, _ => False

theorem fills_cons : Fills R x (a :: as) y ↔ x = none ∧ ∃ b, R a b ∧ Fills R (some b) as y := by
  cases as with
  | nil => exact Iff.rfl
  | cons a' as =>
      refine ⟨fun h => absurd h id, ?_⟩
      -- the slot that the first has filled is not empty
      rintro ⟨_, b, _, h⟩
      cases as with
      | nil => exact absurd h.1 (Option.some_ne_none b)
      | cons _ _ => exact h

/-- Settings one after the other. -/
theorem fills_append : Fills R x (as ++ bs) z ↔ ∃ y, Fills R x as y ∧ Fills R y bs z := by
  induction as generalizing x with
  | nil =>
      refine ⟨fun h => ⟨x, rfl, h⟩, ?_⟩
      rintro ⟨_, rfl, h⟩
      exact h
  | cons a as ih =>
      simp only [List.cons_append, fills_cons, ih]
      refine ⟨?_, ?_⟩
      · rintro ⟨hx, b, hb, y, hy, hz⟩
        exact ⟨y, ⟨hx, b, hb, hy⟩, hz⟩
      · rintro ⟨y, ⟨hx, b, hb, hy⟩, hz⟩
        exact ⟨hx, b, hb, y, hy, hz⟩

theorem fills_perm (h : as.Perm bs) : Fills R x as y ↔ Fills R x bs y := by
  have hlength := h.length_eq
  match as, bs with
  | [], [] => exact Iff.rfl
  | [a], [b] =>
      rw [List.singleton_perm_singleton.mp h]
  | _ :: _ :: _, _ :: _ :: _ => exact Iff.rfl
  | [], _ :: _ => simp at hlength
  | _ :: _, [] => simp at hlength
  | [_], _ :: _ :: _ => simp at hlength
  | _ :: _ :: _, [_] => simp at hlength

theorem Fills.of_some (h : Fills R none as (some y')) : ∃ a, as = [a] ∧ R a y' := by
  match as with
  | [] => exact absurd h (Option.some_ne_none _)
  | [a] =>
      obtain ⟨_, b, hb, hy⟩ := h
      exact ⟨a, rfl, by rwa [Option.some.inj hy]⟩
  | _ :: _ :: _ => exact absurd h id

end SigV4.Slots
