import Mathlib.Data.List.Forall2
import SigV4.Lib.Outcome

/-!
# Two computations that end alike

`Related R x y` says of two calls that they end in the same way: with values that `R` relates, with
the same early exit, or with the same panic. It is what can be said of one program on two inputs
when the difference may show in the value and nowhere else. There is one rule for each way in
which computations are put together.
-/

namespace SigV4.Outcome

variable {ε δ α β γ κ σ τ : Type} {R : α → β → Prop} {S : γ → κ → Prop}

inductive Related (R : α → β → Prop) : Outcome ε α → Outcome ε β → Prop where
  | ok {a : α} {b : β} : R a b → Related R (ok a) (ok b)
  | exit (e : ε) : Related R (exit e) (exit e)
  | panic (p : Panic) : Related R (panic p) (panic p)

/-- A call ends like itself. -/
theorem related_refl {R : α → α → Prop} (h : ∀ a, R a a) (x : Outcome ε α) : Related R x x := by
  cases x with
  | ok a => exact .ok (h a)
  | exit e => exact .exit e
  | panic p => exact .panic p

theorem related_mono {R S : α → β → Prop} {x : Outcome ε α} {y : Outcome ε β} (h : Related R x y)
    (hRS : ∀ a b, R a b → S a b) : Related S x y := by
  cases h with
  | ok h => exact .ok (hRS _ _ h)
  | exit e => exact .exit e
  | panic p => exact .panic p

/-- What is related is what the calls end in. -/
theorem related_eqn {x : Outcome ε α} {y : Outcome ε β} (h : Related R x y) :
    Related (fun a b => R a b ∧ x = ok a ∧ y = ok b) x y := by
  cases h with
  | ok h => exact .ok ⟨h, rfl, rfl⟩
  | exit e => exact .exit e
  | panic p => exact .panic p

/-- **Sequences end alike** if their halves do. -/
theorem related_bind {x : Outcome ε α} {y : Outcome ε β} {f : α → Outcome ε γ}
    {g : β → Outcome ε κ} (hx : Related R x y) (hf : ∀ a b, R a b → Related S (f a) (g b)) :
    Related S (x >>= f) (y >>= g) := by
  cases hx with
  | ok h => exact hf _ _ h
  | exit e => exact .exit e
  | panic p => exact .panic p

theorem related_map {x : Outcome ε α} {y : Outcome ε β} {f : α → γ} {g : β → κ}
    (hx : Related R x y) (hf : ∀ a b, R a b → S (f a) (g b)) : Related S (f <$> x) (g <$> y) := by
  cases hx with
  | ok h => exact .ok (hf _ _ h)
  | exit e => exact .exit e
  | panic p => exact .panic p

theorem related_mapExit {x : Outcome ε α} {y : Outcome ε β} (f : ε → δ) (hx : Related R x y) :
    Related R (mapExit f x) (mapExit f y) := by
  cases hx with
  | ok h => exact .ok h
  | exit e => exact .exit (f e)
  | panic p => exact .panic p

/-- Branches on one condition. -/
theorem related_ite {c : Prop} [Decidable c] {x x' : Outcome ε α} {y y' : Outcome ε β}
    (h : c → Related R x y) (h' : ¬c → Related R x' y') :
    Related R (if c then x else x') (if c then y else y') := by
  by_cases hc : c
  · rw [if_pos hc, if_pos hc]
    exact h hc
  · rw [if_neg hc, if_neg hc]
    exact h' hc

/-- **Folds end alike** if their steps do, over lists that are related element by element. -/
theorem related_foldlM {ι κ : Type} {Q : ι → κ → Prop} {f : α → ι → Outcome ε α}
    {g : β → κ → Outcome ε β}
    (hstep : ∀ a b i j, R a b → Q i j → Related R (f a i) (g b j)) {l : List ι} {l' : List κ}
    (h : List.Forall₂ Q l l') :
    ∀ {a : α} {b : β}, R a b → Related R (l.foldlM f a) (l'.foldlM g b) := by
  induction h with
  | nil => exact fun hR => .ok hR
  | cons hq _ ih =>
      intro a b hR
      rw [List.foldlM_cons, List.foldlM_cons]
      exact related_bind (hstep a b _ _ hR hq) fun _ _ h => ih h

end SigV4.Outcome
