import SigV4.Lib.Bytes

/-!
# Normal paths

What a server does to a path before it looks a file up: runs of separators are merged,
and the segments `.` and `..` are resolved. Both leave a path alone that has no such run
and no such segment. The text is over any alphabet; `sep` and `dot` are two letters of
it.
-/

namespace SigV4.Segments

variable {α : Type} [DecidableEq α]

/-- Merge every run of separators into one. -/
def mergeSeparators (sep : α) : List α → List α
  | a :: b :: rest =>
    if a = sep ∧ b = sep then mergeSeparators sep (b :: rest)
    else a :: mergeSeparators sep (b :: rest)
  | [a] => [a]
  | [] => []

/-- Resolve `.` and `..` from left to right; `out` is what stands before them, last
segment first. A path that ends in one of them keeps its last separator. -/
def resolve (dot : α) : List (List α) → List (List α) → List (List α)
  | out, [] => out.reverse
  | out, [s] =>
    if s = [dot] then ([] :: out).reverse
    else if s = [dot, dot] then ([] :: out.tail).reverse
    else (s :: out).reverse
  | out, s :: t :: rest =>
    if s = [dot] then resolve dot out (t :: rest)
    else if s = [dot, dot] then resolve dot out.tail (t :: rest)
    else resolve dot (s :: out) (t :: rest)

/-- Resolve the dot segments of a path that starts with a separator. -/
def removeDotSegments (sep dot : α) (path : List α) : List α :=
  sep :: [sep].intercalate (resolve dot [] (path.tail.splitOn sep))

theorem mergeSeparators_eq_self {sep : α} : ∀ {path : List α},
    (∀ a b, path ≠ a ++ sep :: sep :: b) → mergeSeparators sep path = path
  | [], _ => rfl
  | [_], _ => rfl
  | c :: d :: rest, h => by
      have hne : ¬(c = sep ∧ d = sep) := by
        intro hc
        obtain ⟨rfl, rfl⟩ := hc
        exact h [] rest rfl
      have htail : ∀ a b, d :: rest ≠ a ++ sep :: sep :: b := by
        intro a b he
        exact h (c :: a) b (by rw [he]; rfl)
      rw [mergeSeparators, if_neg hne, mergeSeparators_eq_self htail]

theorem resolve_eq {dot : α} : ∀ (segments out : List (List α)),
    (∀ s ∈ segments, s ≠ [dot] ∧ s ≠ [dot, dot]) →
      resolve dot out segments = out.reverse ++ segments
  | [], out, _ => by rw [resolve, List.append_nil]
  | [s], out, h => by
      obtain ⟨h1, h2⟩ := h s List.mem_cons_self
      rw [resolve, if_neg h1, if_neg h2, List.reverse_cons]
  | s :: t :: rest, out, h => by
      obtain ⟨h1, h2⟩ := h s List.mem_cons_self
      rw [resolve, if_neg h1, if_neg h2,
        resolve_eq (t :: rest) (s :: out) fun x hx => h x (List.mem_cons_of_mem _ hx),
        List.reverse_cons, List.append_assoc]
      rfl

/-- A path without dot segments is left alone. -/
theorem removeDotSegments_eq_self {sep dot : α} {path : List α} (hrooted : path.head? = some sep)
    (h : ∀ s ∈ path.tail.splitOn sep, s ≠ [dot] ∧ s ≠ [dot, dot]) :
    removeDotSegments sep dot path = path := by
  cases path with
  | nil => exact absurd hrooted (by simp)
  | cons c path =>
      obtain rfl := Option.some.inj hrooted
      unfold removeDotSegments
      rw [resolve_eq _ _ h, List.reverse_nil, List.nil_append, List.tail_cons,
        List.intercalate_splitOn]

example : removeDotSegments '/' '.' (mergeSeparators '/' "/a/b//.././c/..".toList)
    = "/a/".toList := by decide

end SigV4.Segments
