import SigV4.ModuleConfig.Values
import SigV4.Spec.Policy

/-!
# The arguments of a credential

The syntax of `sigv4_verify_credential` after the access key, and the policy an operator
who writes it intends. In each of three dimensions a credential is either free or held to
a list; no argument is written in two ways, so a list of arguments says one thing.
-/

namespace SigV4.Spec

open Ascii Outcome

/-- What a policy restricts. -/
inductive Dimension where
  | host
  | method
  | path
  deriving DecidableEq

/-- The keys of `key=value`. -/
inductive Key where
  | allowed (dim : Dimension)
  | secretKeyFile
  | secretKey
  | enabled
  | maxExpires
  deriving DecidableEq

inductive Argument where
  /-- The bare flag that leaves a dimension unrestricted. -/
  | free (dim : Dimension)
  | keyed (key : Key) (value : Str)
  deriving DecidableEq

/-- The flags as they are written. -/
def Dimension.flag : Dimension → Str
  | host => .lit "allow_any_host"
  | method => .lit "allow_default_methods"
  | path => .lit "allow_any_prefix"

/-- The keys as they are written. -/
def Key.text : Key → Str
  | allowed .host => .lit "allowed_host"
  | allowed .method => .lit "allowed_method"
  | allowed .path => .lit "allowed_prefix"
  | secretKeyFile => .lit "secret_key_file"
  | secretKey => .lit "secret_key"
  | enabled => .lit "enabled"
  | maxExpires => .lit "max_expires"

/-- The arguments as they are written. -/
def Argument.text : Argument → Str
  | free dim => dim.flag
  | keyed key value => (key.text.append (.lit "=")).append value

theorem Argument.keyed_text_bytes (key : Key) (value : Str) :
    (keyed key value).text.bytes = key.text.bytes ++ equals :: value.bytes := by
  show (key.text.bytes ++ SigV4.bytes "=") ++ value.bytes = _
  rw [List.append_assoc]
  rfl

theorem Dimension.flag_inj {a b : Dimension} (h : a.flag = b.flag) : a = b := by
  cases a <;> cases b <;> first | rfl | exact absurd h (by decide)

theorem Key.text_inj {a b : Key} (h : a.text = b.text) : a = b := by
  rcases a with (_ | _ | _) | _ | _ | _ | _ <;> rcases b with (_ | _ | _) | _ | _ | _ | _ <;>
    first | rfl | exact absurd h (by decide)

theorem Dimension.equals_not_mem (dim : Dimension) : equals ∉ dim.flag.bytes := by
  cases dim <;> decide

theorem Key.equals_not_mem (key : Key) : equals ∉ key.text.bytes := by
  rcases key with (_ | _ | _) | _ | _ | _ | _ <;> decide

/-- The key is what stands before the first `=`. -/
theorem Argument.splitOnce_keyed (key : Key) (value : Str) :
    (keyed key value).text.splitOnce equals equals_lt = some (key.text, value) :=
  Str.splitOnce_eq_some.mpr ⟨keyed_text_bytes key value, key.equals_not_mem⟩

/-- **No argument is written in two ways, and no text is two arguments.** -/
theorem Argument.text_inj {a b : Argument} (h : a.text = b.text) : a = b := by
  have hbytes := congrArg Str.bytes h
  cases a with
  | free dim =>
      cases b with
      | free dim' => rw [Dimension.flag_inj h]
      | keyed key value =>
          rw [keyed_text_bytes] at hbytes
          exact absurd (show equals ∈ dim.flag.bytes from hbytes ▸ by simp) dim.equals_not_mem
  | keyed key value =>
      cases b with
      | free dim =>
          rw [keyed_text_bytes] at hbytes
          exact absurd (show equals ∈ dim.flag.bytes from hbytes ▸ by simp) dim.equals_not_mem
      | keyed key' value' =>
          have hsplit := splitOnce_keyed key value
          rw [h, splitOnce_keyed key' value'] at hsplit
          obtain ⟨hkey, hvalue⟩ := Prod.mk.inj (Option.some.inj hsplit)
          rw [Key.text_inj hkey, hvalue]

/-! ## What an operator intends -/

/-- The argument stands in the directive. -/
def Given (rest : List Str) (a : Argument) : Prop := a.text ∈ rest

instance (rest : List Str) (a : Argument) : Decidable (Given rest a) :=
  inferInstanceAs (Decidable (a.text ∈ rest))

/-- Reading one argument more. -/
theorem given_append_singleton {rest : List Str} {a b : Argument} :
    Given (rest ++ [b.text]) a ↔ Given rest a ∨ a = b := by
  unfold Given
  rw [List.mem_append, List.mem_singleton]
  refine ⟨?_, ?_⟩
  · intro hc
    rcases hc with h | h
    · exact Or.inl h
    · exact Or.inr (Argument.text_inj h)
  · intro hc
    rcases hc with h | rfl
    · exact Or.inl h
    · exact Or.inr rfl

/-- The policy of a compiled credential leaves the dimension open. -/
def Unrestricted (c : CompiledCredential) : Dimension → Prop
  | .host => c.allowedHosts = ∅
  | .method => c.allowedMethods = ∅
  | .path => c.allowedPrefixes = []

/-- The values that a compiled credential holds are those that are given. -/
structure Holds (rest : List Str) (c : CompiledCredential) : Prop where
  hosts : ∀ x, x ∈ c.allowedHosts
    ↔ ∃ value, Given rest (.keyed (.allowed .host) value) ∧ normalHost value = x
  methods : ∀ x, x ∈ c.allowedMethods
    ↔ ∃ value, Given rest (.keyed (.allowed .method) value) ∧ normalMethod value = x
  prefixes : ∀ x, x ∈ c.allowedPrefixes
    ↔ ∃ value, Given rest (.keyed (.allowed .path) value) ∧ value.bytes = x

/-- **A dimension is open** exactly where no value is given for it. -/
theorem Holds.unrestricted_iff {rest : List Str} {c : CompiledCredential} (h : Holds rest c)
    (dim : Dimension) :
    Unrestricted c dim ↔ ∀ value, ¬Given rest (.keyed (.allowed dim) value) := by
  cases dim with
  | host =>
      show c.allowedHosts = ∅ ↔ _
      rw [Finset.eq_empty_iff_forall_notMem]
      simp only [h.hosts, not_exists, not_and]
      exact ⟨fun hno value hg => hno _ value hg rfl, fun hno _ value hg => absurd hg (hno value)⟩
  | method =>
      show c.allowedMethods = ∅ ↔ _
      rw [Finset.eq_empty_iff_forall_notMem]
      simp only [h.methods, not_exists, not_and]
      exact ⟨fun hno value hg => hno _ value hg rfl, fun hno _ value hg => absurd hg (hno value)⟩
  | path =>
      show c.allowedPrefixes = [] ↔ _
      rw [List.eq_nil_iff_forall_not_mem]
      simp only [h.prefixes, not_exists, not_and]
      exact ⟨fun hno value hg => hno _ value hg rfl, fun hno _ value hg => absurd hg (hno value)⟩

/--
**What the arguments after the access key intend.** A dimension is unrestricted exactly
where its flag says so; a restricted one holds the values under its key and no others.
-/
structure Intended (settings : Settings) (rest : List Str) (c : CompiledCredential) : Prop
    extends Holds rest c where
  unrestricted : ∀ dim, Unrestricted c dim ↔ Given rest (.free dim)
  prefixes_nodup : c.allowedPrefixes.Nodup
  disabled : c.enabled = false ↔ Given rest (.keyed .enabled (.lit "off"))
  /-- An expiry that is given is the credential's, so there is at most one. -/
  maxExpires : ∀ value, Given rest (.keyed .maxExpires value) →
    parseDuration value = ok c.maxExpires
  defaultMaxExpires : (∀ value, ¬Given rest (.keyed .maxExpires value)) →
    c.maxExpires = Spec.defaultMaxExpires settings

end SigV4.Spec
