import SigV4.Lib.Outcome

/-!
# Checks in sequence

A call that makes one check after another and leaves at the first that fails. `Follows` says
which checks a call makes and in which order: it falls through where all of them pass, and
otherwise leaves with what the first that fails has to say. Sequencing two calls puts their
checks one after the other (`follows_bind`), so the order of a long call is read off its parts.
-/

namespace SigV4.Outcome

variable {ε α β κ : Type} {P : κ → Prop} {E : κ → ε → Prop} {a c d : κ} {l m : List κ}

/-- `c` fails, and every check before it passes. -/
def FirstFailure (P : κ → Prop) (l : List κ) (c : κ) : Prop :=
  ∃ pre post, l = pre ++ c :: post ∧ (∀ a ∈ pre, P a) ∧ ¬P c

theorem firstFailure_head (h : ¬P c) (l : List κ) : FirstFailure P (c :: l) c :=
  ⟨[], l, rfl, fun _ ha => absurd ha List.not_mem_nil, h⟩

theorem FirstFailure.cons (h : FirstFailure P l c) (ha : P a) : FirstFailure P (a :: l) c := by
  obtain ⟨pre, post, rfl, hpre, hc⟩ := h
  exact ⟨a :: pre, post, rfl, List.forall_mem_cons.mpr ⟨ha, hpre⟩, hc⟩

theorem FirstFailure.append (h : FirstFailure P m c) (hl : ∀ a ∈ l, P a) :
    FirstFailure P (l ++ m) c := by
  obtain ⟨pre, post, rfl, hpre, hc⟩ := h
  refine ⟨l ++ pre, post, (List.append_assoc _ _ _).symm, fun a ha => ?_, hc⟩
  rcases List.mem_append.mp ha with ha | ha
  · exact hl a ha
  · exact hpre a ha

theorem FirstFailure.append_right (h : FirstFailure P l c) (m : List κ) :
    FirstFailure P (l ++ m) c := by
  obtain ⟨pre, post, rfl, hpre, hc⟩ := h
  exact ⟨pre, post ++ m, List.append_assoc _ _ _, hpre, hc⟩

theorem FirstFailure.not_all (h : FirstFailure P l c) : ¬∀ a ∈ l, P a := by
  obtain ⟨pre, post, rfl, _, hc⟩ := h
  exact fun hall => hc (hall c (List.mem_append_right _ List.mem_cons_self))

/-- **There is one first failure.** -/
theorem FirstFailure.unique (hc : FirstFailure P l c) (hd : FirstFailure P l d) : c = d := by
  obtain ⟨pre, post, hl, hpre, hfail⟩ := hc
  obtain ⟨pre', post', hl', hpre', hfail'⟩ := hd
  -- the shorter of the two prefixes is followed by a check that fails
  rcases List.append_eq_append_iff.mp (hl.symm.trans hl') with ⟨mid, rfl, hmid⟩ | ⟨mid, rfl, hmid⟩
  · cases mid with
    | nil => exact (List.cons.inj hmid).1
    | cons x mid =>
        obtain rfl := (List.cons.inj hmid).1
        exact absurd (hpre' c (List.mem_append_right _ List.mem_cons_self)) hfail
  · cases mid with
    | nil => exact (List.cons.inj hmid).1.symm
    | cons x mid =>
        obtain rfl := (List.cons.inj hmid).1
        exact absurd (hpre d (List.mem_append_right _ List.mem_cons_self)) hfail'

/-- **All checks pass, or one is the first to fail.** -/
theorem all_or_firstFailure (P : κ → Prop) : ∀ l : List κ,
    (∀ a ∈ l, P a) ∨ ∃ c, FirstFailure P l c
  | [] => Or.inl fun _ ha => absurd ha List.not_mem_nil
  | a :: l => by
      by_cases ha : P a
      · rcases all_or_firstFailure P l with hall | ⟨c, hc⟩
        · exact Or.inl (List.forall_mem_cons.mpr ⟨ha, hall⟩)
        · exact Or.inr ⟨c, hc.cons ha⟩
      · exact Or.inr ⟨a, firstFailure_head ha l⟩

theorem firstFailure_congr {Q : κ → Prop} (h : ∀ a ∈ l, (P a ↔ Q a)) :
    FirstFailure P l c ↔ FirstFailure Q l c := by
  have hgen : ∀ {P Q : κ → Prop}, (∀ a ∈ l, (P a ↔ Q a)) → FirstFailure P l c →
      FirstFailure Q l c := by
    rintro P Q h ⟨pre, post, rfl, hpre, hc⟩
    refine ⟨pre, post, rfl, fun a ha => ?_, fun hq => hc ?_⟩
    · exact (h a (List.mem_append_left _ ha)).mp (hpre a ha)
    · exact (h c (List.mem_append_right _ List.mem_cons_self)).mpr hq
  exact ⟨hgen h, hgen fun a ha => (h a ha).symm⟩

/-! ## Calls -/

/-- The call makes the checks `l` in this order; `E` is what a check that fails has to say. -/
def Follows (P : κ → Prop) (E : κ → ε → Prop) (l : List κ) : Outcome ε α → Prop
  | ok _ => ∀ a ∈ l, P a
  | exit e => ∃ c, FirstFailure P l c ∧ E c e
  | panic _ => False

theorem follows_ok (a : α) : Follows P E [] (ok a : Outcome ε α) :=
  fun _ ha => absurd ha List.not_mem_nil

/-- A call makes the checks it made when its value is changed. -/
theorem follows_map_iff {x : Outcome ε α} (f : α → β) :
    Follows P E l (f <$> x) ↔ Follows P E l x := by
  cases x <;> exact Iff.rfl

/-- **Checks in sequence**: the second call is made where the first falls through. -/
theorem follows_bind {x : Outcome ε α} {f : α → Outcome ε β} (hx : Follows P E l x)
    (hf : ∀ a, x = ok a → (∀ c ∈ l, P c) → Follows P E m (f a)) :
    Follows P E (l ++ m) (x >>= f) := by
  cases x with
  | ok a =>
      have hfa := hf a rfl hx
      rw [ok_bind]
      cases hr : f a with
      | ok b =>
          rw [hr] at hfa
          intro c hc
          rcases List.mem_append.mp hc with hc | hc
          · exact hx c hc
          · exact hfa c hc
      | exit e =>
          rw [hr] at hfa
          obtain ⟨c, hc, he⟩ := hfa
          exact ⟨c, hc.append hx, he⟩
      | panic p =>
          rw [hr] at hfa
          exact absurd hfa id
  | exit e =>
      obtain ⟨c, hc, he⟩ := hx
      exact ⟨c, hc.append_right m, he⟩
  | panic p => exact absurd hx id

/-- The same, for a first call of one check. -/
theorem follows_check {x : Outcome ε α} {f : α → Outcome ε β} (hx : Follows P E [c] x)
    (hf : ∀ a, x = ok a → P c → Follows P E m (f a)) : Follows P E (c :: m) (x >>= f) :=
  follows_bind hx fun a ha hc => hf a ha (hc c List.mem_cons_self)

theorem follows_fail {e : ε} (h : ¬P c) (he : E c e) (l : List κ) :
    Follows P E (c :: l) (exit e : Outcome ε α) :=
  ⟨c, firstFailure_head h l, he⟩

theorem follows_pass (h : P c) (a : α) : Follows P E [c] (ok a : Outcome ε α) :=
  List.forall_mem_singleton.mpr h

theorem follows_exitIf {b : Bool} {e : ε} (h : b = false ↔ P c) (he : E c e) :
    Follows P E [c] (exitIf b e) := by
  cases b with
  | false => exact follows_pass (h.mp rfl) ()
  | true => exact follows_fail (fun hc => Bool.noConfusion (h.mpr hc)) he []

theorem follows_ofOption {o : Option α} {e : ε} (h : (∃ a, o = some a) ↔ P c) (he : E c e) :
    Follows P E [c] (ofOption e o) := by
  cases o with
  | none => exact follows_fail (fun hc => by simpa using h.mpr hc) he []
  | some a => exact follows_pass (h.mp ⟨a, rfl⟩) a

end SigV4.Outcome
