import SigV4.Spec.Path
import SigV4.Spec.Query
import SigV4.Spec.Scope
import SigV4.Verifier.Types

/-!
# The signature of a presigned URL

The canonical request and the string to sign are lines joined by line feeds. The host
and the region may hold line feeds of their own, so the lines of a message are not what
determines it; what does is that the fields before the host and around the scope hold
none, or have a fixed length. `canonicalRequest_injective` and `stringToSign_injective`
say that no byte can move from one field to another.
-/

namespace SigV4.Spec

open Ascii

/-- The canonical request, for the one signed header `host`. -/
def canonicalRequest (method path query host : Bytes) : Bytes :=
  [lf].intercalate [method, path, query, bytes "host:" ++ host, [], bytes "host",
    bytes "UNSIGNED-PAYLOAD"]

/-- The string to sign. -/
def stringToSign (date scope : Bytes) (hash : Digest) : Bytes :=
  [lf].intercalate [bytes "AWS4-HMAC-SHA256", date, scope, Hex.encode hash.val]

/-- The signing key of a secret. -/
def signingKey (C : Crypto) (secret date region service : Bytes) : Digest :=
  C.hmacSha256 (C.hmacSha256 (C.hmacSha256 (C.hmacSha256 (bytes "AWS4" ++ secret) date).val
    region).val service).val (bytes "aws4_request")

/-- What a presigner signs, and with which key. -/
structure Signing where
  canonicalRequest : Bytes
  key : Digest
  stringToSign : Bytes

/-- The signing of a request by a secret: the path as it is sent, the decoded pairs, and
the credential scope. -/
def signing (C : Crypto) (method path : Bytes) (ps : List Pair) (host secret date : Bytes)
    (f : ScopeFields) : Signing where
  canonicalRequest := canonicalRequest method (canonicalPath path) (canonicalString ps) host
  key := signingKey C secret f.date f.region f.service
  stringToSign := stringToSign date f.scope
    (C.sha256 (canonicalRequest method (canonicalPath path) (canonicalString ps) host))

def Signing.signature (C : Crypto) (s : Signing) : Digest := C.hmacSha256 s.key.val s.stringToSign

/-- The hash an access key is logged by. -/
def accessKeyHash (C : Crypto) (accessKey : Str) : Str :=
  if accessKey.bytes = [] then .empty
  else (Str.lit "sha256:").append ⟨Hex.encode ((C.sha256 accessKey.bytes).val.take 8),
    Utf8.valid_of_ascii (Hex.encode_ascii _)⟩

/-! ## No byte moves between fields -/

theorem lf_split_injective {a b c d : Bytes} (ha : lf ∉ a) (hc : lf ∉ c)
    (h : a ++ lf :: b = c ++ lf :: d) : a = c ∧ b = d := by
  have hac : a = c := by
    have := congrArg (field lf) h
    rw [field_append_cons ha, field_append_cons hc] at this
    exact this
  subst hac
  exact ⟨rfl, (List.cons.inj (List.append_cancel_left h)).2⟩

theorem canonicalRequest_eq (method path query host : Bytes) :
    canonicalRequest method path query host = method ++ lf :: (path ++ lf :: (query ++ lf ::
      (bytes "host:" ++ (host ++ bytes "\n\nhost\nUNSIGNED-PAYLOAD")))) := by
  have htail : bytes "\n\nhost\nUNSIGNED-PAYLOAD"
      = lf :: lf :: (bytes "host" ++ lf :: bytes "UNSIGNED-PAYLOAD") := rfl
  rw [htail]
  simp [canonicalRequest, List.intercalate_cons_cons]

/-- **One canonical request, one request**: the host may hold line feeds, the fields
before it may not. -/
theorem canonicalRequest_injective {m p q h m' p' q' h' : Bytes} (hm : lf ∉ m) (hm' : lf ∉ m')
    (hp : lf ∉ p) (hp' : lf ∉ p') (hq : lf ∉ q) (hq' : lf ∉ q')
    (heq : canonicalRequest m p q h = canonicalRequest m' p' q' h') :
    m = m' ∧ p = p' ∧ q = q' ∧ h = h' := by
  rw [canonicalRequest_eq, canonicalRequest_eq] at heq
  obtain ⟨h1, heq⟩ := lf_split_injective hm hm' heq
  obtain ⟨h2, heq⟩ := lf_split_injective hp hp' heq
  obtain ⟨h3, heq⟩ := lf_split_injective hq hq' heq
  -- what follows the host is fixed
  have h4 := List.append_cancel_right (List.append_cancel_left heq)
  exact ⟨h1, h2, h3, h4⟩

theorem stringToSign_eq_append (date scope : Bytes) (hash : Digest) :
    stringToSign date scope hash = bytes "AWS4-HMAC-SHA256" ++ lf :: (date ++ lf ::
      (scope ++ lf :: Hex.encode hash.val)) := by
  simp [stringToSign, List.intercalate_cons_cons]

/-- **One string to sign, one scope and one hash**: the region may hold line feeds, the
date and the hash have a fixed length. -/
theorem stringToSign_injective {d s d' s' : Bytes} {x x' : Digest} (hd : lf ∉ d) (hd' : lf ∉ d')
    (heq : stringToSign d s x = stringToSign d' s' x') : d = d' ∧ s = s' ∧ x = x' := by
  rw [stringToSign_eq_append, stringToSign_eq_append] at heq
  obtain ⟨_, heq⟩ := List.cons.inj (List.append_cancel_left heq)
  obtain ⟨h1, heq⟩ := lf_split_injective hd hd' heq
  have hlen : (lf :: Hex.encode x.val).length = (lf :: Hex.encode x'.val).length := by
    rw [List.length_cons, List.length_cons, Hex.encode_length, Hex.encode_length, x.property,
      x'.property]
  obtain ⟨h2, h3⟩ := List.append_inj' heq hlen
  have h4 := Hex.encode_injective (List.cons.inj h3).2
  exact ⟨h1, h2, Subtype.ext h4⟩

theorem lf_not_mem_canonicalString (ps : List Pair) : lf ∉ canonicalString ps := by
  intro h
  rcases mem_intercalate h with h | ⟨v, hv, h⟩
  · exact absurd h (by decide)
  · obtain ⟨e, he, rfl⟩ := List.mem_map.mp hv
    obtain ⟨p, _, rfl⟩ := mem_sortedPairs.mp he
    rcases mem_writePair h with h | h
    · exact absurd h (by decide)
    · exact absurd h (by decide)

theorem lf_not_mem_instant (i : Instant) : lf ∉ i.write := by
  have hdig : ∀ v : Bytes, v.all isAsciiDigit = true → lf ∉ v := by
    intro v hv h
    have := List.all_eq_true.mp hv lf h
    exact absurd this (by decide)
  intro h
  rcases List.mem_append.mp h with h | h
  · exact hdig _ i.date_digits h
  · rcases List.mem_cons.mp h with h | h
    · exact absurd h (by decide)
    · rcases List.mem_append.mp h with h | h
      · exact hdig _ i.time_digits h
      · exact absurd h (by decide)

end SigV4.Spec
