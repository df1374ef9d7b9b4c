import Mathlib.Data.List.Dedup
import Mathlib.Data.List.Induction

/-!
# Recency

The order in which values were last used, and the bounded list that a cache should keep of it
(`recent`). A list that takes a new value at its front, drops from its back, and leaves a value
it has where it is (`fifo`) is another: the two agree on a run as long as each value used is the
one used last, or is none of the recent ones (`fifo_eq_recent_iff`).
-/

namespace SigV4.Recency

variable {α : Type} {n : Nat}

/-- What is filtered out behind the first `k` values does not change them. -/
theorem take_filter {p : α → Bool} {l : List α} {k : Nat} (h : ∀ x ∈ l.take k, p x = true) :
    (l.filter p).take k = l.take k := by
  induction l generalizing k with
  | nil => rfl
  | cons x xs ih =>
      cases k with
      | zero => rfl
      | succ k =>
          rw [List.take_succ_cons] at h ⊢
          rw [List.filter_cons_of_pos (h x List.mem_cons_self), List.take_succ_cons]
          have hxs : ∀ y ∈ xs.take k, p y = true := fun y hy => h y (List.mem_cons_of_mem x hy)
          rw [ih hxs]

variable [DecidableEq α]

/-- What has been used, from the most to the least recently used. -/
def order (uses : List α) : List α := uses.dedup.reverse

/-- The `n` values most recently used. -/
def recent (n : Nat) (uses : List α) : List α := (order uses).take n

/-- A new value goes to the front; one that is there stays where it is. -/
def insertFront (n : Nat) (l : List α) (a : α) : List α := if a ∈ l then l else (a :: l).take n

/-- The first in is the first out. -/
def fifo (n : Nat) (uses : List α) : List α := uses.foldl (insertFront n) []

/-! ## One more use -/

theorem dedup_snoc (uses : List α) (a : α) :
    (uses ++ [a]).dedup = uses.dedup.filter (· ≠ a) ++ [a] := by
  induction uses with
  | nil => rfl
  | cons x xs ih =>
      rw [List.cons_append]
      by_cases hx : x ∈ xs
      · rw [List.dedup_cons_of_mem hx, List.dedup_cons_of_mem (List.mem_append_left _ hx), ih]
      · rw [List.dedup_cons_of_notMem hx]
        by_cases hxa : x = a
        · subst hxa
          rw [List.dedup_cons_of_mem (by simp), ih, List.filter_cons_of_neg (by simp)]
        · have hnew : x ∉ xs ++ [a] := by simp [hx, hxa]
          rw [List.dedup_cons_of_notMem hnew, ih, List.filter_cons_of_pos (by simpa using hxa)]
          rfl

theorem order_snoc (uses : List α) (a : α) :
    order (uses ++ [a]) = a :: (order uses).filter (· ≠ a) := by
  unfold order
  rw [dedup_snoc, List.reverse_append, List.filter_reverse]
  rfl

theorem fifo_snoc (uses : List α) (a : α) : fifo n (uses ++ [a]) = insertFront n (fifo n uses) a := by
  unfold fifo
  rw [List.foldl_append]
  rfl

/-- The value used last is the first of the recent ones. -/
theorem head?_recent (hn : 0 < n) (uses : List α) : (recent n uses).head? = uses.getLast? := by
  obtain ⟨n, rfl⟩ : ∃ m, n = m + 1 := ⟨n - 1, by omega⟩
  rcases List.eq_nil_or_concat' uses with rfl | ⟨init, a, rfl⟩
  · rfl
  · unfold recent
    rw [order_snoc, List.take_succ_cons, List.getLast?_concat]
    rfl

/-! ## Insertion against recency -/

/-- A value that is not recent goes to the front of the recent ones. -/
theorem insertFront_of_not_mem (hn : 0 < n) {uses : List α} {a : α} (h : a ∉ recent n uses) :
    insertFront n (recent n uses) a = recent n (uses ++ [a]) := by
  obtain ⟨n, rfl⟩ : ∃ m, n = m + 1 := ⟨n - 1, by omega⟩
  unfold insertFront
  rw [if_neg h]
  unfold recent at h ⊢
  -- the value may be further back than the first `n + 1`, where taking it out changes nothing
  have hrest : ∀ x ∈ (order uses).take n, decide (x ≠ a) = true := by
    intro x hx
    have hne : x ≠ a := by
      intro hxa
      exact h (hxa ▸ List.take_subset_take_left _ (Nat.le_succ n) hx)
    simpa using hne
  rw [order_snoc, List.take_succ_cons, List.take_succ_cons, take_filter hrest, List.take_take,
    Nat.min_eq_left (Nat.le_succ n)]

/-- A value that is recent is the first of them, or insertion forgets that it was used. -/
theorem insertFront_of_mem (hn : 0 < n) {uses : List α} {a : α} (h : a ∈ recent n uses) :
    insertFront n (recent n uses) a = recent n (uses ++ [a]) ↔ uses.getLast? = some a := by
  unfold insertFront
  rw [if_pos h]
  refine ⟨?_, ?_⟩
  · intro heq
    rw [← head?_recent hn, heq, head?_recent hn, List.getLast?_concat]
  · intro hlast
    rcases List.eq_nil_or_concat' uses with rfl | ⟨init, b, rfl⟩
    · cases hlast
    · rw [List.getLast?_concat] at hlast
      obtain rfl := Option.some.inj hlast
      -- used twice in a row
      unfold recent
      rw [order_snoc (init ++ [b]), order_snoc, List.filter_cons_of_neg (by simp),
        List.filter_filter]
      simp

theorem insertFront_recent_iff (hn : 0 < n) (uses : List α) (a : α) :
    insertFront n (recent n uses) a = recent n (uses ++ [a])
      ↔ a ∉ recent n uses ∨ uses.getLast? = some a := by
  by_cases h : a ∈ recent n uses
  · rw [insertFront_of_mem hn h]
    exact ⟨Or.inr, fun hc => hc.resolve_left fun hno => hno h⟩
  · exact ⟨fun _ => Or.inl h, fun _ => insertFront_of_not_mem hn h⟩

/--
**When first-in first-out is least recently used.** On a run the two agree throughout exactly
when each value used is the one used last, or none of the recent ones.
-/
theorem fifo_eq_recent_iff (hn : 0 < n) (uses : List α) :
    (∀ pre, pre <+: uses → fifo n pre = recent n pre)
      ↔ ∀ pre a, pre ++ [a] <+: uses → a ∉ recent n pre ∨ pre.getLast? = some a := by
  refine ⟨?_, ?_⟩
  · intro h pre a hpre
    have hbefore := h pre ((List.prefix_append pre [a]).trans hpre)
    have hafter := h (pre ++ [a]) hpre
    rw [fifo_snoc, hbefore] at hafter
    exact (insertFront_recent_iff hn pre a).mp hafter
  · intro h pre
    -- induction on the last use: before it the two lists agree
    induction pre using List.reverseRecOn with
    | nil => exact fun _ => List.take_nil.symm
    | append_singleton pre a ih =>
        intro hpre
        have hbefore := ih ((List.prefix_append pre [a]).trans hpre)
        rw [fifo_snoc, hbefore]
        exact (insertFront_recent_iff hn pre a).mpr (h pre a hpre)

end SigV4.Recency
