import SigV4.Lib.Percent
import SigV4.Lib.Str
import Mathlib.Data.List.Sort

/-!
# Queries

A query is split at every `&`, each piece at its first `=`, and both halves are
percent-decoded. What a query means is the list of pairs this gives. Everything the
verifier reads from a query, and the text it signs, is a function of that list, and
up to order of the multiset of its pairs.
-/

namespace SigV4.Spec

open Ascii Percent

/-- A decoded name and its decoded value. -/
abbrev Pair := Bytes × Bytes

/-- The bytes of a piece before its first `=`. -/
def pieceName (piece : Bytes) : Bytes := field equals piece

/-- The bytes of a piece after its first `=`. -/
def pieceValue (piece : Bytes) : Bytes := piece.drop ((field equals piece).length + 1)

/-- The pair a piece stands for. -/
def decodePiece (piece : Bytes) : Option Pair := do
  let name ← Percent.decode (pieceName piece)
  let value ← Percent.decode (pieceValue piece)
  some (name, value)

/-- The pairs of a query, in order; `none` where an escape is malformed. -/
def pairs (raw : Bytes) : Option (List Pair) :=
  if raw = [] then some [] else (raw.splitOn amp).mapM decodePiece

/-! ## The signing parameters -/

/-- The six names the verifier reads. -/
inductive Known where
  | algorithm
  | credential
  | date
  | expires
  | signedHeaders
  | signature
  deriving DecidableEq, Repr

def Known.name : Known → Bytes
  | algorithm => bytes "X-Amz-Algorithm"
  | credential => bytes "X-Amz-Credential"
  | date => bytes "X-Amz-Date"
  | expires => bytes "X-Amz-Expires"
  | signedHeaders => bytes "X-Amz-SignedHeaders"
  | signature => bytes "X-Amz-Signature"

/-- All six. -/
def Known.all : List Known := [algorithm, credential, date, expires, signedHeaders, signature]

theorem Known.mem_all (k : Known) : k ∈ Known.all := by cases k <;> simp [Known.all]

theorem Known.name_injective {j k : Known} (h : j.name = k.name) : j = k := by
  cases j <;> cases k <;> first | rfl | exact absurd h (by decide)

theorem Known.name_ne_nil (k : Known) : k.name ≠ [] := by cases k <;> decide

/-- One of the six. -/
def isKnown (name : Bytes) : Bool := Known.all.any (·.name == name)

theorem isKnown_iff {name : Bytes} : isKnown name = true ↔ ∃ k : Known, k.name = name := by
  unfold isKnown
  rw [List.any_eq_true]
  refine ⟨?_, ?_⟩
  · intro hc
    obtain ⟨k, _, hk⟩ := hc
    exact ⟨k, eq_of_beq hk⟩
  · intro hc
    obtain ⟨k, hk⟩ := hc
    exact ⟨k, Known.mem_all k, by simpa using hk⟩

/-- The values a query gives a name. -/
def values (k : Known) (ps : List Pair) : List Bytes :=
  (ps.filter (·.1 == k.name)).map Prod.snd

/-- The value of a name given exactly once. -/
def single (k : Known) (ps : List Pair) : Option Str :=
  match values k ps with
  | [v] => Str.fromUtf8 v
  | _ => none

theorem single_eq_some {k : Known} {ps : List Pair} {s : Str} :
    single k ps = some s ↔ values k ps = [s.bytes] := by
  unfold single
  refine ⟨?_, ?_⟩
  · intro h
    split at h
    · rename_i v hv
      rw [hv, Str.fromUtf8_eq_some.mp h]
    · exact absurd h (by simp)
  · intro h
    rw [h]
    exact Str.fromUtf8_bytes s

/-- Every pair has a name, and the values the verifier reads are text. -/
def Acceptable (ps : List Pair) : Prop :=
  ∀ p ∈ ps, p.1 ≠ [] ∧ (isKnown p.1 = true → Utf8.Valid p.2)

instance (ps : List Pair) : Decidable (Acceptable ps) :=
  inferInstanceAs (Decidable (∀ p ∈ ps, p.1 ≠ [] ∧ (isKnown p.1 = true → Utf8.Valid p.2)))

/-- The pairs of a query the verifier goes on with. -/
def accepted (raw : Bytes) : Option (List Pair) :=
  (pairs raw).filter fun ps => decide (Acceptable ps)

theorem accepted_eq_some {raw : Bytes} {ps : List Pair} :
    accepted raw = some ps ↔ pairs raw = some ps ∧ Acceptable ps := by
  unfold accepted
  rw [Option.filter_eq_some_iff]
  simp

/-! ## The text that is signed -/

/-- The pairs a signature is about: all but the signature. -/
def signed (ps : List Pair) : List Pair := ps.filter (·.1 != Known.signature.name)

def encodePair (p : Pair) : Pair := (encode p.1, encode p.2)

/-- Names, then values, as byte strings. -/
def PairLe (a b : Pair) : Prop := a.1 < b.1 ∨ (a.1 = b.1 ∧ a.2 ≤ b.2)

instance : DecidableRel PairLe := fun a b =>
  inferInstanceAs (Decidable (a.1 < b.1 ∨ (a.1 = b.1 ∧ a.2 ≤ b.2)))

/-- `name=value`. -/
def writePair (p : Pair) : Bytes := p.1 ++ equals :: p.2

/-- The encoded pairs that are signed, in order. -/
def sortedPairs (ps : List Pair) : List Pair :=
  ((signed ps).map encodePair).insertionSort PairLe

/-- The canonical query string. -/
def canonicalString (ps : List Pair) : Bytes :=
  [amp].intercalate ((sortedPairs ps).map writePair)

/-! ## The order -/

theorem bytes_lt_trans {a b c : Bytes} (h : a < b) (h' : b < c) : a < c := List.lt_trans h h'

theorem bytes_lt_irrefl (a : Bytes) : ¬a < a := List.lt_irrefl a

theorem bytes_le_trans {a b c : Bytes} (h : a ≤ b) (h' : b ≤ c) : a ≤ c := List.le_trans h h'

theorem pairLe_antisymm {a b : Pair} (h : PairLe a b) (h' : PairLe b a) : a = b := by
  rcases h with h | ⟨h1, h2⟩
  · rcases h' with h' | ⟨h1', _⟩
    · exact absurd (bytes_lt_trans h h') (bytes_lt_irrefl _)
    · rw [h1'] at h
      exact absurd h (bytes_lt_irrefl _)
  · rcases h' with h' | ⟨_, h2'⟩
    · rw [h1] at h'
      exact absurd h' (bytes_lt_irrefl _)
    · exact Prod.ext h1 (List.le_antisymm h2 h2')

instance : Std.Total PairLe where
  total a b := by
    rcases List.le_total a.1 b.1 with h | h
    · by_cases he : a.1 = b.1
      · rcases List.le_total a.2 b.2 with h2 | h2
        · exact Or.inl (Or.inr ⟨he, h2⟩)
        · exact Or.inr (Or.inr ⟨he.symm, h2⟩)
      · exact Or.inl (Or.inl (Std.lt_of_le_of_ne h he))
    · by_cases he : b.1 = a.1
      · rcases List.le_total a.2 b.2 with h2 | h2
        · exact Or.inl (Or.inr ⟨he.symm, h2⟩)
        · exact Or.inr (Or.inr ⟨he, h2⟩)
      · exact Or.inr (Or.inl (Std.lt_of_le_of_ne h he))

instance : IsTrans Pair PairLe where
  trans a b c h h' := by
    rcases h with h | ⟨h1, h2⟩
    · rcases h' with h' | ⟨h1', _⟩
      · exact Or.inl (bytes_lt_trans h h')
      · exact Or.inl (h1' ▸ h)
    · rcases h' with h' | ⟨h1', h2'⟩
      · exact Or.inl (h1 ▸ h')
      · exact Or.inr ⟨h1.trans h1', bytes_le_trans h2 h2'⟩

/-- **Sorting forgets the order**: what is sorted the same is a permutation. -/
theorem insertionSort_eq_iff {l m : List Pair} :
    l.insertionSort PairLe = m.insertionSort PairLe ↔ l.Perm m := by
  refine ⟨?_, ?_⟩
  · intro h
    exact (List.perm_insertionSort PairLe l).symm.trans
      (h ▸ List.perm_insertionSort PairLe m)
  · intro h
    have hperm : (l.insertionSort PairLe).Perm (m.insertionSort PairLe) :=
      ((List.perm_insertionSort PairLe l).trans h).trans (List.perm_insertionSort PairLe m).symm
    exact hperm.eq_of_pairwise (fun a b _ _ => pairLe_antisymm)
      (List.pairwise_insertionSort PairLe l) (List.pairwise_insertionSort PairLe m)

/-! ## The canonical query string and the pairs -/

/-- A written pair holds `=` and encoded text only. -/
theorem mem_writePair {p : Pair} {b : UInt8} (h : b ∈ writePair (encodePair p)) :
    b = equals ∨ encodedByte b = true := by
  rcases List.mem_append.mp h with h | h
  · exact Or.inr (encodedByte_of_mem b h)
  · rcases List.mem_cons.mp h with h | h
    · exact Or.inl h
    · exact Or.inr (encodedByte_of_mem b h)

theorem mem_sortedPairs {ps : List Pair} {e : Pair} :
    e ∈ sortedPairs ps ↔ ∃ p ∈ signed ps, encodePair p = e := by
  unfold sortedPairs
  rw [(List.perm_insertionSort PairLe _).mem_iff, List.mem_map]

/-- The canonical query string depends on the multiset of pairs only. -/
theorem canonicalString_perm {ps qs : List Pair} (h : ps.Perm qs) :
    canonicalString ps = canonicalString qs := by
  have hsigned : (signed ps).Perm (signed qs) := h.filter _
  have hsort := insertionSort_eq_iff.mpr (hsigned.map encodePair)
  unfold canonicalString sortedPairs
  rw [hsort]

/-- So do the values of a name, up to order. -/
theorem values_perm {ps qs : List Pair} (h : ps.Perm qs) (k : Known) :
    (values k ps).Perm (values k qs) := (h.filter _).map _

/-- What is signed holds the values of every name but the signature's. -/
theorem values_signed {k : Known} (hk : k ≠ .signature) (ps : List Pair) :
    values k (signed ps) = values k ps := by
  have hne : ∀ p : Pair, (p.1 == k.name) = true → (p.1 != Known.signature.name) = true := by
    intro p hp
    rw [eq_of_beq hp, bne_iff_ne]
    exact fun hn => hk (Known.name_injective hn)
  unfold values signed
  rw [List.filter_filter]
  congr 1
  refine List.filter_congr ?_
  intro p _
  cases hp : p.1 == k.name with
  | false => rfl
  | true => rw [hne p hp, Bool.and_self]

/-- So does the value of a name given once. -/
theorem single_perm {ps qs : List Pair} (h : ps.Perm qs) (k : Known) :
    single k ps = single k qs := by
  have hv := values_perm h k
  unfold single
  match hp : values k ps, hq : values k qs with
  | [], [] => rfl
  | [a], [b] =>
      rw [hp, hq] at hv
      have : a = b := by simpa using hv
      rw [this]
  | _ :: _ :: _, _ :: _ :: _ => rfl
  | [], _ :: _ | _ :: _, [] | [_], _ :: _ :: _ | _ :: _ :: _, [_] =>
      rw [hp, hq] at hv
      have := hv.length_eq
      simp at this

end SigV4.Spec
