import SigV4.Spec.Pieces
import SigV4.Spec.Policy
import SigV4.Spec.Presign

/-!
# A presigner

What a client does that holds a secret: it writes the five signing parameters and its
own, signs them, adds the signature, and sends the pairs encoded, in an order of its
choice. The verifier reads from the URI the pairs the presigner has written
(`pairs_writeQuery`).
-/

namespace SigV4.Spec

open Ascii Percent

/-! ## Queries written -/

/-- The encoded pairs, `=` in each and `&` between them. -/
def writeQuery (ps : List Pair) : Bytes :=
  [amp].intercalate (ps.map fun p => writePair (encodePair p))

/-- The path and the query. -/
def writeUri (path : Bytes) (ps : List Pair) : Bytes := path ++ question :: writeQuery ps

/-- **Reading undoes writing.** -/
theorem pairs_writeQuery (ps : List Pair) : pairs (writeQuery ps) = some ps := by
  have hwrite : writeQuery ps = joinPairs (ps.map encodePair) := by
    unfold writeQuery joinPairs
    rw [List.map_map]
    rfl
  rw [hwrite]
  exact pairs_joinPairs separate_encodePair decode_encodePair ps

/-- A written query holds separators and encoded text only. -/
theorem mem_writeQuery {ps : List Pair} {b : UInt8} (h : b ∈ writeQuery ps) :
    b = amp ∨ b = equals ∨ encodedByte b = true := by
  rcases mem_intercalate h with h | ⟨v, hv, h⟩
  · exact Or.inl h
  · obtain ⟨p, _, rfl⟩ := List.mem_map.mp hv
    exact Or.inr (mem_writePair h)

theorem uriPath_writeUri {path : Bytes} (h : question ∉ path) (ps : List Pair) :
    uriPath (writeUri path ps) = path := field_append_cons h

theorem uriQuery_writeUri {path : Bytes} (h : question ∉ path) (ps : List Pair) :
    uriQuery (writeUri path ps) = writeQuery ps := by
  show (writeUri path ps).drop ((uriPath (writeUri path ps)).length + 1) = _
  rw [uriPath_writeUri h]
  unfold writeUri
  simp

/-- A query that is written is clean: the URI is valid if its path is. -/
theorem validUri_writeUri {path : Bytes} (h : ValidUri path) (hq : question ∉ path)
    (ps : List Pair) : ValidUri (writeUri path ps) := by
  have hpath : uriPath path = path := field_eq_of_not_mem hq
  refine ⟨?_, ?_, ?_⟩
  · have hrooted := h.rooted
    cases path with
    | nil => exact absurd hrooted (by simp)
    | cons c path => exact hrooted
  · intro b hb
    rcases List.mem_append.mp hb with hb | hb
    · exact h.clean b hb
    · rcases List.mem_cons.mp hb with rfl | hb
      · decide
      · have henc : ∀ b : UInt8, encodedByte b = true → b ∉ [cr, lf, tab, space, hash] := by
          decide +kernel
        rcases mem_writeQuery hb with rfl | rfl | hb
        · decide
        · decide
        · exact henc b hb
  · rw [uriPath_writeUri hq]
    exact hpath ▸ h.path

/-! ## What is signed and sent -/

/-- What a presigner is asked to sign. -/
structure Presign where
  method : Str
  path : Bytes
  host : Str
  region : Str
  amzDate : Str
  expires : UInt64
  extras : List Pair

namespace Presign

/-- The credential scope, with the access key before it. -/
def fields (p : Presign) (c : Credential) : ScopeFields where
  accessKey := c.accessKey.trim.bytes
  date := p.amzDate.bytes.take 8
  region := p.region.bytes
  service := bytes "s3"
  terminal := bytes "aws4_request"

/-- The parameters before signing. -/
def parameters (p : Presign) (c : Credential) : List Pair :=
  (Known.algorithm.name, bytes "AWS4-HMAC-SHA256")
    :: (Known.credential.name, (p.fields c).accessKey ++ slash :: (p.fields c).scope)
    :: (Known.date.name, p.amzDate.bytes)
    :: (Known.expires.name, Decimal.write p.expires.toNat)
    :: (Known.signedHeaders.name, bytes "host") :: p.extras

def signature (C : Crypto) (p : Presign) (c : Credential) : Digest :=
  (signing C (normalMethod p.method).bytes p.path (p.parameters c) (normalHost p.host).bytes
    c.secretKey.bytes p.amzDate.bytes (p.fields c)).signature C

/-- The parameters as they are sent, up to order. -/
def signedPairs (C : Crypto) (p : Presign) (c : Credential) : List Pair :=
  (Known.signature.name, Hex.encode (p.signature C c).val) :: p.parameters c

end Presign

/-- Other parameters give no value to a signing name. -/
theorem values_of_other {l : List Pair} (h : ∀ q ∈ l, isKnown q.1 = false) (k : Known) :
    values k l = [] := by
  unfold values
  rw [List.filter_eq_nil_iff.mpr, List.map_nil]
  intro q hq hk
  have hknown := isKnown_iff.mpr ⟨k, (eq_of_beq hk).symm⟩
  rw [h q hq] at hknown
  exact absurd hknown (by simp)

theorem values_cons (j k : Known) (v : Bytes) (l : List Pair) :
    values k ((j.name, v) :: l) = if j = k then v :: values k l else values k l := by
  unfold values
  by_cases h : j = k
  · rw [if_pos h, h]; simp
  · have hne : j.name ≠ k.name := fun hn => h (Known.name_injective hn)
    rw [if_neg h]; simp [hne]

/-- **Each signing name is sent once.** -/
theorem values_signedPairs {C : Crypto} {p : Presign} {c : Credential}
    (h : ∀ q ∈ p.extras, isKnown q.1 = false) (k : Known) :
    values k (p.signedPairs C c) = [match k with
      | .algorithm => bytes "AWS4-HMAC-SHA256"
      | .credential => (p.fields c).accessKey ++ slash :: (p.fields c).scope
      | .date => p.amzDate.bytes
      | .expires => Decimal.write p.expires.toNat
      | .signedHeaders => bytes "host"
      | .signature => Hex.encode (p.signature C c).val] := by
  unfold Presign.signedPairs Presign.parameters
  simp only [values_cons, values_of_other h]
  cases k <;> rfl

/-- The signature is not signed. -/
theorem canonicalString_signedPairs (C : Crypto) (p : Presign) (c : Credential) :
    canonicalString (p.signedPairs C c) = canonicalString (p.parameters c) := by
  have hsigned : signed (p.signedPairs C c) = signed (p.parameters c) := by
    unfold Presign.signedPairs signed
    rw [List.filter_cons]
    simp
  unfold canonicalString sortedPairs
  rw [hsigned]

end SigV4.Spec
