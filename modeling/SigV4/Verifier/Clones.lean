import SigV4.Verifier.Verify

/-!
# Verifiers that share their state

A `Verifier` is an `Arc<State>`: cloning it copies the pointer, so clones share one
state and its caches; `reload` allocates a state and moves one pointer to it. The states
are kept in a list that only grows, and a pointer is an index into it.
-/

namespace SigV4

open Outcome

/-- The states there are, and the verifiers that point to them. -/
structure Clones where
  states : List State
  verifiers : List Nat
  /-- No pointer dangles. -/
  live : ∀ a ∈ verifiers, a < states.length

/-- What is done to the verifiers. -/
inductive Op where
  | new (settings : Settings) (credentials : List Credential)
  | clone (verifier : Nat)
  | verify (verifier : Nat) (method : Str) (rawUri : Bytes) (host : Str) (now : SystemTime)
  | reload (verifier : Nat) (settings : Settings) (credentials : List Credential)

/-- What it gives. -/
inductive Output where
  /-- There is a new verifier. -/
  | made
  | answered (result : VerifyResult)
  | reloaded
  | rejected (error : ConfigError)
  /-- There is no verifier of that number. -/
  | absent
  deriving DecidableEq

namespace Clones

def empty : Clones := ⟨[], [], fun _ h => absurd h List.not_mem_nil⟩

/-- The state behind a pointer. -/
def state (w : Clones) {i a : Nat} (h : w.verifiers[i]? = some a) : State :=
  w.states.get ⟨a, w.live a (List.mem_of_getElem? h)⟩

theorem state_eq (w : Clones) {i a : Nat} (h : w.verifiers[i]? = some a) :
    w.states[a]? = some (w.state h) :=
  List.getElem?_eq_getElem (w.live a (List.mem_of_getElem? h))

/-- `Verifier::new`: a new state, and a new pointer to it. -/
def push (w : Clones) (v : Verifier) : Clones where
  states := w.states ++ [v.state]
  verifiers := w.verifiers ++ [w.states.length]
  live a ha := by
    rw [List.length_append, List.length_singleton]
    rcases List.mem_append.mp ha with ha | ha
    · exact Nat.lt_succ_of_lt (w.live a ha)
    · rw [List.mem_singleton.mp ha]
      exact Nat.lt_succ_self _

/-- `clone()`: a new pointer to an old state. -/
def copy (w : Clones) {i a : Nat} (h : w.verifiers[i]? = some a) : Clones where
  states := w.states
  verifiers := w.verifiers ++ [a]
  live b hb := by
    rcases List.mem_append.mp hb with hb | hb
    · exact w.live b hb
    · rw [List.mem_singleton.mp hb]
      exact w.live a (List.mem_of_getElem? h)

/-- A state changed in place: its caches, behind their locks. -/
def write (w : Clones) (a : Nat) (v : Verifier) : Clones where
  states := w.states.set a v.state
  verifiers := w.verifiers
  live b hb := by
    rw [List.length_set]
    exact w.live b hb

/-- `self.state = Arc::new(..)`: a new state, and an old pointer moved to it. -/
def redirect (w : Clones) (i : Nat) (v : Verifier) : Clones where
  states := w.states ++ [v.state]
  verifiers := w.verifiers.set i w.states.length
  live a ha := by
    rw [List.length_append, List.length_singleton]
    rcases List.mem_or_eq_of_mem_set ha with ha | ha
    · exact Nat.lt_succ_of_lt (w.live a ha)
    · rw [ha]
      exact Nat.lt_succ_self _

def step (C : Crypto) (w : Clones) : Op → Outcome Empty (Output × Clones)
  | .new settings credentials =>
    match Verifier.new C settings credentials with
    | .ok v => ok (.made, w.push v)
    | .exit e => ok (.rejected e, w)
    | .panic p => .panic p
  | .clone i =>
    match h : w.verifiers[i]? with
    | some _ => ok (.made, w.copy h)
    | none => ok (.absent, w)
  | .verify i method rawUri host now =>
    match h : w.verifiers[i]? with
    | some a => do
        let (result, v) ← (Verifier.mk (w.state h)).verify C method rawUri host now
        ok (.answered result, w.write a v)
    | none => ok (.absent, w)
  | .reload i settings credentials =>
    match h : w.verifiers[i]? with
    | some _ =>
        match (Verifier.mk (w.state h)).reload C settings credentials with
        | .ok v => ok (.reloaded, w.redirect i v)
        | .exit e => ok (.rejected e, w)
        | .panic p => .panic p
    | none => ok (.absent, w)

end Clones

end SigV4
