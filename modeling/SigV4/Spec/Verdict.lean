import SigV4.Lib.Checks
import SigV4.Spec.Request

/-!
# Verdicts

`AuthorisedBy` says which requests are allowed. Here is the rest: the order in which a request
is checked, what each check asks of it, and what a denial tells. Each check is stated on its
own, over the decoded pairs of the query; the answer to a request is that of the first check
that fails (`Verdict`).
-/

namespace SigV4.Spec

open Outcome

/-! ## What a request says -/

namespace Request

/-- The query stands for these pairs, and they can be gone on with. -/
def Reads (r : Request) (ps : List Pair) : Prop :=
  pairs (uriQuery r.rawUri) = some ps ∧ Acceptable ps

/-- The name is given once, with this value. -/
def Gives (r : Request) (k : Known) (value : Bytes) : Prop :=
  ∃ ps, r.Reads ps ∧ values k ps = [value]

/-- The credential has these fields. -/
def Scoped (r : Request) (f : ScopeFields) : Prop :=
  ∃ value, r.Gives .credential value ∧ IsScope value f

/-- The request is dated at this instant. -/
def Dated (r : Request) (i : Instant) : Prop := r.Gives .date i.write

/-- The request expires after these seconds. -/
def Expires (r : Request) (n : Nat) : Prop := ∃ value, r.Gives .expires value ∧ IsExpires value n

/-- The request names this credential. -/
def Names (r : Request) (credential : Credential) : Prop :=
  ∃ f, r.Scoped f ∧ credential.accessKey.trim.bytes = f.accessKey

/-- The signature is the one that the secret of this credential makes. -/
def SignedBy (C : Crypto) (r : Request) (credential : Credential) : Prop :=
  ∃ ps f i value, r.Reads ps ∧ r.Scoped f ∧ r.Dated i ∧ r.Gives .signature value
    ∧ Hex.decode value = some (((signing C (normalMethod r.method).bytes (uriPath r.rawUri) ps
        (normalHost r.host).bytes credential.secretKey.bytes i.write f).signature C).val)

theorem Reads.unique {r : Request} {ps qs : List Pair} (h : r.Reads ps) (h' : r.Reads qs) :
    ps = qs := Option.some.inj (h.1.symm.trans h'.1)

theorem Reads.gives_iff {r : Request} {ps : List Pair} (h : r.Reads ps) {k : Known}
    {value : Bytes} : r.Gives k value ↔ values k ps = [value] := by
  refine ⟨?_, fun hv => ⟨ps, h, hv⟩⟩
  rintro ⟨qs, hqs, hv⟩
  rwa [h.unique hqs]

theorem Gives.unique {r : Request} {k : Known} {v w : Bytes} (h : r.Gives k v)
    (h' : r.Gives k w) : v = w := by
  obtain ⟨ps, hps, hv⟩ := h
  exact (List.cons.inj (hv.symm.trans (hps.gives_iff.mp h'))).1

theorem Gives.iff {r : Request} {k : Known} {v w : Bytes} (h : r.Gives k v) :
    v = w ↔ r.Gives k w := ⟨fun he => he ▸ h, h.unique⟩

theorem Scoped.unique {r : Request} {f g : ScopeFields} (h : r.Scoped f) (h' : r.Scoped g) :
    f = g := by
  obtain ⟨v, hv, hf⟩ := h
  obtain ⟨w, hw, hg⟩ := h'
  rw [hv.unique hw] at hf
  exact hf.unique hg

theorem Dated.unique {r : Request} {i j : Instant} (h : r.Dated i) (h' : r.Dated j) : i = j :=
  Instant.write_injective (Gives.unique h h')

theorem Expires.unique {r : Request} {m n : Nat} (h : r.Expires m) (h' : r.Expires n) :
    m = n := by
  obtain ⟨v, hv, hm⟩ := h
  obtain ⟨w, hw, hn⟩ := h'
  rw [hv.unique hw] at hm
  exact hm.unique hn

end Request

/-! ## The checks -/

/-- What is checked of a request. -/
inductive Check where
  | metadata
  | methodServed
  | uri
  | query
  | algorithmGiven
  | algorithm
  | credentialGiven
  | scope
  | service
  | signedHeadersGiven
  | signedHeaders
  | dateGiven
  | day
  | expiresGiven
  | expiresNumber
  | expiresRange
  | signatureGiven
  | accessKey
  | enabled
  | policy
  | maxExpires
  | notFuture
  | notExpired
  | signature
  deriving DecidableEq, Repr

namespace Check

/-- The checks of the request line. -/
def ofLine : List Check := [metadata, methodServed, uri, query]

/-- The checks of the signing parameters. -/
def ofParameters : List Check :=
  [algorithmGiven, algorithm, credentialGiven, scope, service, signedHeadersGiven, signedHeaders,
    dateGiven, day, expiresGiven, expiresNumber, expiresRange, signatureGiven]

/-- The checks of the credential. -/
def ofPolicy : List Check := [accessKey, enabled, policy, maxExpires]

/-- The checks of the time. -/
def ofWindow : List Check := [notFuture, notExpired]

/-- The checks before the signature, in order. -/
def beforeSignature : List Check := ofLine ++ ofParameters ++ ofPolicy ++ ofWindow

/-- All checks, in order. -/
def all : List Check := beforeSignature ++ [signature]

theorem mem_all (c : Check) : c ∈ all := by cases c <;> decide

/-- The reason a denial gives. -/
def reason : Check → Reason
  | metadata => .missingMetadata
  | methodServed => .unsupportedMethod
  | uri | query => .invalidUri
  | algorithmGiven | credentialGiven | signedHeadersGiven | dateGiven | expiresGiven
  | signatureGiven => .missingQueryParam
  | algorithm => .unsupportedAlgorithm
  | scope | service | day => .invalidCredentialScope
  | signedHeaders => .unsupportedSignedHeader
  | expiresNumber | expiresRange | maxExpires => .invalidExpiry
  | accessKey => .unknownAccessKey
  | enabled | policy => .unauthorized
  | notFuture => .futureDated
  | notExpired => .expired
  | signature => .signatureMismatch

/-- What a check asks of a request. -/
def Passes (C : Crypto) (settings : Settings) (credentials : List Credential) (r : Request) :
    Check → Prop
  | metadata => (normalMethod r.method).bytes ≠ [] ∧ r.rawUri ≠ [] ∧ (normalHost r.host).bytes ≠ []
  | methodServed => Supported settings (normalMethod r.method)
  | uri => ValidUri r.rawUri
  | query => ∃ ps, r.Reads ps
  | algorithmGiven => ∃ value, r.Gives .algorithm value
  | algorithm => r.Gives .algorithm (bytes "AWS4-HMAC-SHA256")
  | credentialGiven => ∃ value, r.Gives .credential value
  | scope => ∃ f, r.Scoped f
  | service => ∃ f, r.Scoped f ∧ f.service = bytes "s3" ∧ f.terminal = bytes "aws4_request"
  | signedHeadersGiven => ∃ value, r.Gives .signedHeaders value
  | signedHeaders => r.Gives .signedHeaders (bytes "host")
  | dateGiven => ∃ value, r.Gives .date value
  | day => ∃ f i, r.Scoped f ∧ r.Dated i ∧ i.date = f.date
  | expiresGiven => ∃ value, r.Gives .expires value
  | expiresNumber => ∃ n, r.Expires n ∧ n < 2 ^ 64
  | expiresRange => ∃ n, r.Expires n ∧ 1 ≤ n ∧ n ≤ 604800
  | signatureGiven => ∃ value, r.Gives .signature value
  | accessKey => ∃ c ∈ credentials, r.Names c
  | enabled => ∃ c ∈ credentials, r.Names c ∧ c.enabled = true
  | policy => ∃ c ∈ credentials, r.Names c
      ∧ Allows c (normalMethod r.method) (normalHost r.host) (uriPath r.rawUri)
  | maxExpires => ∃ c ∈ credentials, r.Names c ∧ ∃ n, r.Expires n
      ∧ (Spec.maxExpires settings c).lt (.fromSecs (UInt64.ofNat n)) = false
  | notFuture => ∃ i, r.Dated i ∧ i.epochSeconds ≤ wholeSeconds r.now + skewSeconds settings
  | notExpired => ∃ i n, r.Dated i ∧ r.Expires n ∧ wholeSeconds r.now ≤ i.epochSeconds + n
  | signature => ∃ c ∈ credentials, r.Names c ∧ r.SignedBy C c

/-- The check comes before the credential is known. -/
def anonymous : Check → Bool
  | metadata | methodServed | uri | query | algorithmGiven | algorithm | credentialGiven
  | scope => true
  | _ => false

end Check

/-! ## The answer -/

open Classical in
/-- The path a denial tells: none where the URI is not read, or cannot be. -/
noncomputable def toldPath (r : Request) : Check → Bytes
  | .metadata => []
  | _ => if ValidUri r.rawUri then uriPath r.rawUri else []

/-- The hash is that of the access key the request names. -/
def HashOfNamed (C : Crypto) (r : Request) (hash : Str) : Prop :=
  ∃ f key, r.Scoped f ∧ key.bytes = f.accessKey ∧ hash = accessKeyHash C key

/-- The denial that a check gives. -/
structure Denies (C : Crypto) (r : Request) (c : Check) (result : VerifyResult) : Prop where
  denied : result.allowed = false
  reason : result.reason = c.reason
  path : result.path = toldPath r c
  accessKey : result.accessKey = none
  /-- The hash is told from the moment the credential is read. -/
  hash : if c.anonymous then result.accessKeyHash = .empty
    else HashOfNamed C r result.accessKeyHash

/-- The answer to a request that passes every check. -/
structure Grants (C : Crypto) (r : Request) (result : VerifyResult) : Prop where
  allowed : result.allowed = true
  reason : result.reason = .ok
  path : result.path = uriPath r.rawUri
  accessKey : ∃ f key, r.Scoped f ∧ key.bytes = f.accessKey ∧ result.accessKey = some key
    ∧ result.accessKeyHash = accessKeyHash C key

/-- **The answer to a request**: that of the first check that fails, if one does. -/
inductive Verdict (C : Crypto) (settings : Settings) (credentials : List Credential)
    (r : Request) (result : VerifyResult) : Prop where
  | granted : (∀ c ∈ Check.all, c.Passes C settings credentials r) → Grants C r result →
      Verdict C settings credentials r result
  | denied {c : Check} : FirstFailure (Check.Passes C settings credentials r) Check.all c →
      Denies C r c result → Verdict C settings credentials r result

/-! ## One answer -/

theorem HashOfNamed.unique {C : Crypto} {r : Request} {hash hash' : Str}
    (h : HashOfNamed C r hash) (h' : HashOfNamed C r hash') : hash = hash' := by
  obtain ⟨f, key, hf, hkey, rfl⟩ := h
  obtain ⟨g, key', hg, hkey', rfl⟩ := h'
  rw [hf.unique hg] at hkey
  rw [Str.ext (hkey.trans hkey'.symm)]

theorem Denies.unique {C : Crypto} {r : Request} {c : Check} {result result' : VerifyResult}
    (h : Denies C r c result) (h' : Denies C r c result') : result = result' := by
  have hhash : result.accessKeyHash = result'.accessKeyHash := by
    have h1 := h.hash
    have h2 := h'.hash
    cases hc : c.anonymous with
    | true =>
        rw [hc, if_pos rfl] at h1 h2
        exact h1.trans h2.symm
    | false =>
        rw [hc, if_neg Bool.false_ne_true] at h1 h2
        exact h1.unique h2
  have h1 := h.denied.trans h'.denied.symm
  have h2 := h.reason.trans h'.reason.symm
  have h3 := h.path.trans h'.path.symm
  have h4 := h.accessKey.trans h'.accessKey.symm
  cases result
  cases result'
  dsimp only at h1 h2 h3 h4 hhash
  rw [h1, h2, h3, h4, hhash]

theorem Grants.unique {C : Crypto} {r : Request} {result result' : VerifyResult}
    (h : Grants C r result) (h' : Grants C r result') : result = result' := by
  obtain ⟨f, key, hf, hkey, h4, h5⟩ := h.accessKey
  obtain ⟨g, key', hg, hkey', h4', h5'⟩ := h'.accessKey
  rw [hf.unique hg] at hkey
  obtain rfl := Str.ext (hkey.trans hkey'.symm)
  have h1 := h.allowed.trans h'.allowed.symm
  have h2 := h.reason.trans h'.reason.symm
  have h3 := h.path.trans h'.path.symm
  cases result
  cases result'
  dsimp only at h1 h2 h3 h4 h5 h4' h5'
  rw [h1, h2, h3, h4, h5, h4', h5']

/-- **A request has one verdict.** -/
theorem Verdict.unique {C : Crypto} {settings : Settings} {credentials : List Credential}
    {r : Request} {result result' : VerifyResult} (h : Verdict C settings credentials r result)
    (h' : Verdict C settings credentials r result') : result = result' := by
  cases h with
  | granted hall hg =>
      cases h' with
      | granted _ hg' => exact hg.unique hg'
      | denied hc' _ => exact absurd hall hc'.not_all
  | denied hc hd =>
      cases h' with
      | granted hall _ => exact absurd hall hc.not_all
      | denied hc' hd' =>
          obtain rfl := hc.unique hc'
          exact hd.unique hd'

end SigV4.Spec
