import SigV4.Proof.Tamper
import SigV4.Property.Completeness
import SigV4.Property.Malleability

/-!
# The presigner of the tests

The tests sign their requests with a presigner of their own, and then tamper with the URIs. What
they expect holds for every input and not for those of the tests alone: the presigner canonicalises
as the verifier does, what it writes of an input that may be signed is allowed, and with a parameter
taken out or given twice, or a digit of the signature changed, it is denied for the reason that the
tests name.
-/

namespace SigV4

open Outcome Ascii Percent Spec Presigner

variable {C : Crypto} {settings : Settings} {credentials : List Credential} {v : Verifier}
  {input : PresignInput} {c : Credential} {i : Instant} {extras : List Pair} {method host : Str}
  {now : SystemTime}

/--
**The plain canonicalisation agrees with that of the verifier**: on every path; on every value that
the verifier decodes; and on every query that it accepts but the empty one, of which the presigner
makes a parameter without a name.
-/
theorem presigner_canonicalises {raw canonical : Bytes} {q : SigV4Query}
    (h : canonicalQuery raw = ok (canonical, q)) (path value : Bytes) :
    testCanonicalPath (ε := Empty) path = canonicalUriFromValidPath path
      ∧ (∀ decoded, SigV4.percentDecode value = ok decoded →
          Presigner.percentDecode (ε := Empty) value = ok decoded)
      ∧ (testCanonicalQuery (ε := Empty) raw = ok canonical ↔ raw ≠ []) := by
  refine ⟨?_, ?_, ?_⟩
  · rw [testCanonicalPath_eq, canonicalUriFromValidPath_eq]
  · intro decoded hdecoded
    refine Presigner.percentDecode_of_decode ?_
    rw [percentDecode_eq] at hdecoded
    cases hd : decode value with
    | none =>
        rw [hd] at hdecoded
        cases hdecoded
    | some d =>
        rw [hd] at hdecoded
        rw [Outcome.ok.inj hdecoded]
  · rw [canonicalQuery_eq] at h
    cases ha : accepted raw with
    | none =>
        rw [ha] at h
        cases h
    | some ps =>
        rw [ha] at h
        obtain ⟨rfl, _⟩ := Prod.mk.inj (Outcome.ok.inj h)
        obtain ⟨hpairs, _⟩ := accepted_eq_some.mp ha
        refine ⟨?_, fun hne => testCanonicalQuery_eq hne hpairs⟩
        rintro htest rfl
        -- nothing is written for the empty query
        obtain rfl : ps = [] := (Option.some.inj hpairs).symm
        exact absurd htest (by decide)

theorem presigner_canonicalises_sample :
    testCanonicalQuery (ε := Empty) (bytes "b=%2f&%61&X-Amz-Signature=00")
      = ok (bytes "a=&b=%2F") := by
  let read : SigV4Query := { SigV4Query.default with
                             signature := .lit "00", signatureCount := 1 }
  have haccepted : canonicalQuery (bytes "b=%2f&%61&X-Amz-Signature=00")
      = ok (bytes "a=&b=%2F", read) := by rfl
  exact (presigner_canonicalises haccepted [] []).2.2.mpr (by decide)

/-- The credential may be used for what is asked to be signed. -/
structure Signable (settings : Settings) (credentials : List Credential) (input : PresignInput)
    (c : Credential) (i : Instant) (extras : List Pair) : Prop where
  of : input.Of c i extras
  configured : c ∈ credentials
  enabled : c.enabled = true
  accessKey : slash ∉ c.accessKey.trim.bytes
  method : Supported settings input.method
  host : (normalHost input.host).bytes ≠ []
  path : splitOriginalUri input.path.bytes = ok (input.path.bytes, [])
  noQuery : question ∉ input.path.bytes
  policy : Allows c input.method (normalHost input.host) input.path.bytes
  region_ne : input.region.bytes ≠ []
  region : slash ∉ input.region.bytes
  expires_pos : 1 ≤ input.expires.secs
  expires_le : (maxExpires settings c).lt (.fromSecs input.expires.secs) = false
  extras_named : ∀ q ∈ extras, q.1 ≠ []
  extras_other : ∀ q ∈ extras, isKnown q.1 = false

/-- The request comes with the method and the host that were signed, and in time. -/
structure SentAs (settings : Settings) (input : PresignInput) (i : Instant) (method host : Str)
    (now : SystemTime) : Prop where
  method : normalMethod method = input.method
  host : normalHost host = normalHost input.host
  notFuture : i.epochSeconds ≤ wholeSeconds now + skewSeconds settings
  notExpired : wholeSeconds now ≤ i.epochSeconds + input.expires.secs.toNat

/-! ## What is sent -/

/-- The parameters with a signature. -/
def signedParams (input : PresignInput) (sig : Str) : List RawQueryParam :=
  input.params input.credential ++ [qp (.lit "X-Amz-Signature") sig]

/-- The pairs with a signature. -/
def signedPairs (input : PresignInput) (c : Credential) (extras : List Pair) (sig : Bytes) :
    List Pair :=
  (input.presign extras).parameters c ++ [(Known.signature.name, sig)]

/-- The pairs with the signature that the presigner makes. -/
def sentPairs (C : Crypto) (input : PresignInput) (c : Credential) (extras : List Pair) :
    List Pair :=
  signedPairs input c extras (Hex.encode ((input.presign extras).signature C c).val)

theorem sentPairs_perm (C : Crypto) (input : PresignInput) (c : Credential) (extras : List Pair) :
    (sentPairs C input c extras).Perm ((input.presign extras).signedPairs C c) :=
  List.perm_append_singleton _ _

theorem values_date_sentPairs (h : ∀ q ∈ extras, isKnown q.1 = false) :
    values .date (sentPairs C input c extras) = [input.signTime.timestamp.bytes] := by
  have hperm := values_perm (sentPairs_perm C input c extras) .date
  rw [values_signedPairs (p := input.presign extras) h] at hperm
  exact List.perm_singleton.mp hperm

theorem spells_signedParams (h : input.Of c i extras) {sig : Str}
    (hsig : sig.bytes.all unreserved = true) :
    List.Forall₂ RawQueryParam.Spells (signedParams input sig)
      (signedPairs input c extras sig.bytes) :=
  List.rel_append (spells_params h) (.cons (spells_of_unreserved rfl rfl (by rfl) hsig) .nil)

theorem plain_signedParams (h : input.Of c i extras)
    (hother : ∀ p ∈ extras, isKnown p.1 = false) {sig : Str}
    (hsig : sig.bytes.all unreserved = true) :
    List.Forall₂ RawQueryParam.Plain (signedParams input sig)
      (signedPairs input c extras sig.bytes) :=
  List.rel_append (plain_params h hother)
    (.cons ⟨spells_of_unreserved rfl rfl (by rfl) hsig, fun _ => rfl⟩ .nil)

theorem signedParams_ne_nil (input : PresignInput) (sig : Str) : signedParams input sig ≠ [] := by
  unfold signedParams
  simp

theorem Signable.validUri (h : Signable settings credentials input c i extras) :
    ValidUri input.path.bytes := (splitOriginalUri_eq_ok.mp h.path).1

/-- What the presigner writes is a URI of these pairs. -/
theorem Signable.written (h : Signable settings credentials input c i extras) {sig : Str}
    (hsig : sig.bytes.all unreserved = true) :
    Written (writtenUri input.path (signedParams input sig)).bytes input.path.bytes
      (signedPairs input c extras sig.bytes) :=
  written_writtenUri h.validUri h.noQuery (spells_signedParams h.of hsig)

/-- An instant is one that the clock can show. -/
theorem epochSeconds_mem (i : Instant) : i64.lo ≤ i.epochSeconds ∧ i.epochSeconds ≤ i64.hi := by
  have hbounds := epochSeconds_bounds i
  unfold i64
  dsimp only
  omega

theorem noNanos_lt : (0 : UInt32) < 1000000000 := by decide

/-- The instant, on the clock. -/
def Spec.Instant.systemTime (i : Instant) : SystemTime :=
  ⟨i.epochSeconds, 0, epochSeconds_mem i, noNanos_lt⟩

/-- At the instant of its date, what is asked to be signed may be sent. -/
theorem Signable.presignable (h : Signable settings credentials input c i extras) :
    Presignable settings credentials (skewSeconds settings) (input.presign extras) c
      ⟨i.dateText, i.epochSeconds⟩ i.systemTime where
  configured := h.configured
  enabled := h.enabled
  accessKey := h.accessKey
  method := by
    show Supported settings (normalMethod input.method)
    rw [h.of.method]
    exact h.method
  host := h.host
  path := h.path
  noQuery := h.noQuery
  policy := by
    show Allows c (normalMethod input.method) _ _
    rw [h.of.method]
    exact h.policy
  region_ne := h.region_ne
  region := h.region
  date := parseAmzDate_eq_ok.mpr ⟨i, h.of.timestamp, rfl⟩
  expires_pos := h.expires_pos
  expires_le := h.expires_le
  extras_named := h.extras_named
  extras_other := h.extras_other
  wholeSecond := rfl
  notBefore := by
    have hskew : 0 ≤ skewSeconds settings := by
      unfold skewSeconds i64
      dsimp only
      omega
    show i.epochSeconds - skewSeconds settings ≤ i.epochSeconds
    omega
  notAfter := by
    show i.epochSeconds ≤ i.epochSeconds + _
    omega

/-- **What is signed is authorised**, however the method, the host and the parameters are
written. -/
theorem Signable.authorisedBy (hrun : Running C settings credentials v)
    (h : Signable settings credentials input c i extras)
    (hsent : SentAs settings input i method host now) {u : Bytes}
    (hu : Written u input.path.bytes (sentPairs C input c extras)) :
    AuthorisedBy C settings credentials ⟨method, u, host, now⟩ (sentPairs C input c extras) c
      ((input.presign extras).fields c) i input.expires.secs.toNat := by
  obtain ⟨_, v₀, hnew, _⟩ := running_inv hrun
  obtain ⟨j, hauth⟩ :=
    authorisedBy_of_presigned hnew h.presignable (sentPairs_perm C input c extras)
  -- the request is dated once
  obtain rfl : j = i := by
    have hdate := hauth.date
    rw [values_date_sentPairs h.extras_other, h.of.timestamp] at hdate
    exact Instant.write_injective (List.cons.inj hdate).1.symm
  have hmethod : normalMethod method = normalMethod input.method := by
    rw [hsent.method, h.of.method]
  have hpath : uriPath (writeUri input.path.bytes (sentPairs C input c extras)) = uriPath u :=
    (uriPath_writeUri h.noQuery _).trans hu.path.symm
  exact { hauth with
    method := by
      show Supported settings (normalMethod method)
      rw [hmethod]
      exact hauth.method
    host := by
      show (normalHost host).bytes ≠ []
      rw [hsent.host]
      exact hauth.host
    uri := hu.uri
    pairs := hu.pairs
    policy := by
      show Allows c (normalMethod method) (normalHost host) (uriPath u)
      rw [hmethod, hsent.host, ← hpath]
      exact hauth.policy
    notFuture := hsent.notFuture
    notExpired := hsent.notExpired
    signature := by
      obtain ⟨value, hvalue, hdecode⟩ := hauth.signature
      refine ⟨value, hvalue, ?_⟩
      show _ = some (((signing C (normalMethod method).bytes (uriPath u) _
        (normalHost host).bytes _ _ _).signature C).val)
      rw [hmethod, hsent.host, ← hpath]
      exact hdecode }

/-- What the presigner writes, and that it is a URI of what is sent. -/
theorem Signable.exists_uri (C : Crypto) (h : Signable settings credentials input c i extras) :
    ∃ sig : Str,
      presignedUri (ε := Empty) C input = ok (writtenUri input.path (signedParams input sig))
      ∧ sig.bytes = Hex.encode ((input.presign extras).signature C c).val := by
  obtain ⟨sig, huri, hsig⟩ := presignedUri_eq (ε := Empty) C h.of
  exact ⟨sig, huri, hsig⟩

/-- **It is allowed**, and the answer names the path and the access key. -/
theorem Signable.verified (hrun : Running C settings credentials v)
    (h : Signable settings credentials input c i extras)
    (hsent : SentAs settings input i method host now) {u : Bytes}
    (hu : Written u input.path.bytes (sentPairs C input c extras)) :
    ∃ v', v.verify C method u host now
      = ok ({ allowed := true, reason := .ok, path := input.path.bytes,
              accessKey := some c.accessKey.trim,
              accessKeyHash := Spec.accessKeyHash C c.accessKey.trim }, v') := by
  obtain ⟨hsane, v₀, hnew, hsame⟩ := running_inv hrun
  have hanswer := answer_of_authorisedBy (new_eq_ok.mp hnew) (h.authorisedBy hrun hsent hu)
  obtain ⟨v', hverify, _, _⟩ := verify_eq hsane method u host now
  dsimp only at hanswer
  rw [answer_congr hsame, hanswer, hu.path] at hverify
  exact ⟨v', hverify⟩

/--
**What the presigner writes is allowed.** For every input that names a configured credential and
is well formed, the presigner ends without a panic, and a verifier with this credential allows the
URI that it wrote, whatever it has answered before, for as long as the request is in time.
-/
theorem presigned_allowed (hrun : Running C settings credentials v)
    (h : Signable settings credentials input c i extras)
    (hsent : SentAs settings input i method host now) :
    ∃ uri v', presignedUri (ε := Empty) C input = ok uri
      ∧ v.verify C method uri.bytes host now
        = ok ({ allowed := true, reason := .ok, path := input.path.bytes,
                accessKey := some c.accessKey.trim,
                accessKeyHash := Spec.accessKeyHash C c.accessKey.trim }, v') := by
  obtain ⟨sig, huri, hsig⟩ := h.exists_uri C
  have hunreserved : sig.bytes.all unreserved = true := by
    rw [hsig]
    exact unreserved_hex _
  have hwritten := h.written hunreserved
  rw [hsig] at hwritten
  obtain ⟨v', hverify⟩ := h.verified hrun hsent hwritten
  exact ⟨_, v', huri, hverify⟩

/-! ## What is tampered with -/

/-- The name of a parameter, as text. -/
def Spec.Known.key (k : Known) : Str := ⟨k.name, by cases k <;> exact valid_bytes _⟩

theorem values_filter_other {j k : Known} (hj : j ≠ k) (ps : List Pair) :
    values j (ps.filter fun p => p.1 != k.name) = values j ps := by
  unfold values
  rw [List.filter_filter]
  refine congrArg _ (List.filter_congr fun p _ => ?_)
  cases hp : p.1 == j.name with
  | false => rfl
  | true =>
      have hne : (p.1 != k.name) = true := by
        rw [eq_of_beq hp, bne_iff_ne]
        exact fun hn => hj (Known.name_injective hn)
      rw [hne, Bool.and_self]

theorem values_filter_self (k : Known) (ps : List Pair) :
    values k (ps.filter fun p => p.1 != k.name) = [] := by
  unfold values
  rw [List.filter_filter, List.filter_eq_nil_iff.mpr, List.map_nil]
  intro p _
  unfold bne
  cases p.1 == k.name <;> simp

/-- What is signed has no signature. -/
theorem name_ne_of_mem_parameters (hother : ∀ q ∈ extras, isKnown q.1 = false) {p : Pair}
    (hp : p ∈ (input.presign extras).parameters c) : p.1 ≠ Known.signature.name := by
  have hown : ∀ k : Known, k ≠ .signature → k.name ≠ Known.signature.name :=
    fun k hk hname => hk (Known.name_injective hname)
  unfold Presign.parameters at hp
  simp only [List.mem_cons] at hp
  rcases hp with rfl | rfl | rfl | rfl | rfl | hp
  · exact hown .algorithm (by decide)
  · exact hown .credential (by decide)
  · exact hown .date (by decide)
  · exact hown .expires (by decide)
  · exact hown .signedHeaders (by decide)
  · intro hname
    have hknown := isKnown_iff.mpr ⟨.signature, hname.symm⟩
    rw [hother p hp] at hknown
    exact Bool.noConfusion hknown

theorem values_signature_parameters (hother : ∀ q ∈ extras, isKnown q.1 = false) :
    values .signature ((input.presign extras).parameters c) = [] := by
  unfold values
  rw [List.filter_eq_nil_iff.mpr, List.map_nil]
  intro p hp hname
  exact name_ne_of_mem_parameters hother hp (eq_of_beq hname)

/-- A plain parameter has a name exactly where its pair does. -/
theorem name_eq_key_iff {q : RawQueryParam} {p : Pair} (h : q.Plain p) (k : Known) :
    q.name = k.key ↔ p.1 = k.name := by
  have hdecode : Percent.decode k.name = some k.name :=
    decode_of_unreserved (by cases k <;> rfl)
  refine ⟨fun hname => ?_, fun hp => Str.ext ?_⟩
  · have hq := h.name
    rw [hname] at hq
    exact Option.some.inj (hq.symm.trans hdecode)
  · exact (h.plain (isKnown_iff.mpr ⟨k, hp.symm⟩)).trans hp

/-- Two URIs of one path. -/
theorem sameBut_of_written {k : Known} {u u' path : Bytes} {ps ps' : List Pair}
    (hu : Written u path ps) (hu' : Written u' path ps') (hacc : Acceptable ps)
    (hacc' : Acceptable ps')
    (hothers : ∀ j ≠ k, ∀ value, values j ps = [value] → values j ps' = [value]) :
    SameBut k ⟨method, u, host, now⟩ ⟨method, u', host, now⟩ ps ps' where
  method := rfl
  host := rfl
  now := rfl
  uri := hu'.uri
  path := hu'.path.trans hu.path.symm
  reads := ⟨hu.pairs, hacc⟩
  reads' := ⟨hu'.pairs, hacc'⟩
  others := hothers

section Mutants

variable (hrun : Running C settings credentials v)
  (h : Signable settings credentials input c i extras)
  (hsent : SentAs settings input i method host now)
include hrun h hsent

/-- Every check passes on what is sent. -/
theorem Signable.passes {u : Bytes} (hu : Written u input.path.bytes (sentPairs C input c extras)) :
    ∀ check ∈ Check.all, check.Passes C settings credentials ⟨method, u, host, now⟩ := by
  obtain ⟨v', hverify⟩ := h.verified hrun hsent hu
  obtain ⟨_, _, hverify', hverdict⟩ := exists_verdict hrun ⟨method, u, host, now⟩
  obtain ⟨rfl, _⟩ := Prod.mk.inj (Outcome.ok.inj (hverify.symm.trans hverify'))
  exact hverdict.allowed_iff.mp rfl

/-- **A parameter that is not given once** is asked for. -/
theorem Signable.denies_missing {u u' : Bytes} {ps' : List Pair} {k : Known}
    (hu : Written u input.path.bytes (sentPairs C input c extras))
    (hu' : Written u' input.path.bytes ps') (hacc' : Acceptable ps')
    (hothers : ∀ j ≠ k, ∀ value, values j (sentPairs C input c extras) = [value] →
      values j ps' = [value]) (hk : (values k ps').length ≠ 1) :
    ∃ result w, v.verify C method u' host now = ok (result, w)
      ∧ Denies C ⟨method, u', host, now⟩ (Check.given k) result := by
  obtain ⟨result, w, hverify, hverdict⟩ := exists_verdict hrun ⟨method, u', host, now⟩
  have hacc := (h.authorisedBy hrun hsent hu).acceptable
  have hsame : SameBut k ⟨method, u, host, now⟩ ⟨method, u', host, now⟩ _ ps' :=
    sameBut_of_written hu hu' hacc hacc' hothers
  exact ⟨result, w, hverify, hsame.denies hk (h.passes hrun hsent hu) hverdict⟩

/-- A parameter taken out of the text. -/
theorem Signable.denies_removed {sig : Str}
    (hsig : sig.bytes = Hex.encode ((input.presign extras).signature C c).val) (k : Known) :
    ∃ result w,
      v.verify C method
          (removeQueryParam (writtenUri input.path (signedParams input sig)) k.key).bytes host now
        = ok (result, w)
      ∧ result.reason = .missingQueryParam := by
  have hhex : sig.bytes.all unreserved = true := by rw [hsig]; exact unreserved_hex _
  have hplain := plain_signedParams h.of h.extras_other hhex
  rw [removeQueryParam_writtenUri h.noQuery (signedParams_ne_nil input sig)
    (separates_of_spells (spells_signedParams h.of hhex)) k.key]
  have hwritten := h.written hhex
  have hkept := List.rel_filter (R := RawQueryParam.Plain) (p := fun q => q.name != k.key)
    (q := fun p => p.1 != k.name)
    (fun q p hq => by
      show (q.name != k.key) = true ↔ (p.1 != k.name) = true
      rw [bne_iff_ne, bne_iff_ne, ne_eq, ne_eq, name_eq_key_iff hq k]) hplain
  have hwritten' := written_writtenUri h.validUri h.noQuery
    (hkept.imp fun _ _ hq => hq.toSpells)
  rw [hsig] at hwritten hwritten'
  have hacc := (h.authorisedBy hrun hsent hwritten).acceptable
  obtain ⟨result, w, hverify, hdenies⟩ := h.denies_missing hrun hsent (k := k) hwritten hwritten'
    (fun p hp => hacc p (List.mem_of_mem_filter hp))
    (fun j hj value hvalue => (values_filter_other hj _).trans hvalue)
    (by rw [values_filter_self]; decide)
  exact ⟨result, w, hverify, hdenies.reason.trans (Check.reason_given k)⟩

/-- A parameter written once more at the end. -/
theorem Signable.denies_appended {sig : Str}
    (hsig : sig.bytes = Hex.encode ((input.presign extras).signature C c).val) {k : Known}
    {q : RawQueryParam} {value : Bytes} (hq : q.Spells (k.name, value))
    (hvalid : Utf8.Valid value) :
    ∃ result w,
      v.verify C method
          (format [writtenUri input.path (signedParams input sig), .lit "&", q.text]).bytes host now
        = ok (result, w)
      ∧ result.reason = .missingQueryParam := by
  have hhex : sig.bytes.all unreserved = true := by rw [hsig]; exact unreserved_hex _
  have hwritten := h.written hhex
  have happended : (format [writtenUri input.path (signedParams input sig), .lit "&", q.text]).bytes
      = (writtenUri input.path (signedParams input sig ++ [q])).bytes := by
    rw [format_bytes, writtenUri_bytes, joinRawQuery_snoc (signedParams_ne_nil input sig)]
    simp only [List.flatMap_cons, List.flatMap_nil, List.append_nil, writtenUri_bytes, text_bytes,
      List.append_assoc]
    rfl
  have hwritten' := written_writtenUri h.validUri h.noQuery
    (List.rel_append (spells_signedParams h.of hhex) (.cons hq .nil))
  rw [← happended] at hwritten'
  rw [hsig] at hwritten hwritten'
  have hauth := h.authorisedBy hrun hsent hwritten
  have hacc : Acceptable (sentPairs C input c extras ++ [(k.name, value)]) := by
    intro p hp
    rcases List.mem_append.mp hp with hp | hp
    · exact hauth.acceptable p hp
    · rw [List.mem_singleton.mp hp]
      exact ⟨k.name_ne_nil, fun _ => hvalid⟩
  have hothers : ∀ j ≠ k, ∀ x, values j (sentPairs C input c extras) = [x] →
      values j (sentPairs C input c extras ++ [(k.name, value)]) = [x] := by
    intro j hj x hx
    rwa [values_append, if_neg (Ne.symm hj)]
  have htwice : (values k (sentPairs C input c extras ++ [(k.name, value)])).length ≠ 1 := by
    rw [values_append, if_pos rfl, List.length_append, hauth.once k]
    simp
  obtain ⟨result, w, hverify, hdenies⟩ :=
    h.denies_missing hrun hsent hwritten hwritten' hacc hothers htwice
  exact ⟨result, w, hverify, hdenies.reason.trans (Check.reason_given k)⟩

/-- Another signature in its place. -/
theorem Signable.denies_resigned {u u' : Bytes} {value : Bytes}
    (hu : Written u input.path.bytes (sentPairs C input c extras))
    (hu' : Written u' input.path.bytes (signedPairs input c extras value))
    (hvalid : Utf8.Valid value)
    (hne : value.map toAsciiUppercase
      ≠ (Hex.encode ((input.presign extras).signature C c).val).map toAsciiUppercase) :
    ∃ result w, v.verify C method u' host now = ok (result, w)
      ∧ result.reason = .signatureMismatch := by
  obtain ⟨_, v₀, hnew, _⟩ := running_inv hrun
  have hst := compileState_eq_ok (new_eq_ok.mp hnew)
  have hacc := (h.authorisedBy hrun hsent hu).acceptable
  have hvalues : ∀ x, values .signature (signedPairs input c extras x) = [x] := by
    intro x
    unfold signedPairs
    rw [values_append, if_pos rfl, values_signature_parameters h.extras_other, List.nil_append]
  have hsigned : ∀ x, signed (signedPairs input c extras x)
      = signed ((input.presign extras).parameters c) := by
    intro x
    unfold signed signedPairs
    rw [List.filter_append]
    simp
  have hresigned : Resigned ⟨method, u, host, now⟩ ⟨method, u', host, now⟩
      (sentPairs C input c extras) (signedPairs input c extras value)
      (Hex.encode ((input.presign extras).signature C c).val) value := {
    method := rfl
    host := rfl
    now := rfl
    uri := hu'.uri
    path := hu'.path.trans hu.path.symm
    reads := ⟨hu.pairs, hacc⟩
    reads' := by
      refine ⟨hu'.pairs, fun p hp => ?_⟩
      rcases List.mem_append.mp hp with hp | hp
      · exact hacc p (List.mem_append_left _ hp)
      · rw [List.mem_singleton.mp hp]
        exact ⟨Known.signature.name_ne_nil, fun _ => hvalid⟩
    signed := .of_eq ((hsigned _).trans (hsigned _).symm)
    value := hvalues _
    value' := hvalues _ }
  obtain ⟨result, w, hverify, hverdict⟩ := exists_verdict hrun ⟨method, u', host, now⟩
  have hdenies := hresigned.denies_signature hst (h.passes hrun hsent hu) hne hverdict
  exact ⟨result, w, hverify, hdenies.reason⟩

/-- A digit of the signature changed. -/
theorem Signable.denies_tampered {sig : Str}
    (hsig : sig.bytes = Hex.encode ((input.presign extras).signature C c).val) :
    ∃ text result w,
      tamperedSignature (ε := Empty) (writtenUri input.path (signedParams input sig)) = ok text
        ∧ v.verify C method (replaceQueryParam (writtenUri input.path (signedParams input sig))
            (.lit "X-Amz-Signature") text).bytes host now = ok (result, w)
        ∧ result.reason = .signatureMismatch := by
  have hhex : sig.bytes.all unreserved = true := by rw [hsig]; exact unreserved_hex _
  have hseparates := separates_of_spells (spells_signedParams h.of hhex)
  -- the names before the signature's are others
  have hnames : ∀ q ∈ input.params input.credential,
      Separates q ∧ q.name ≠ .lit "X-Amz-Signature" := by
    intro q hq
    obtain ⟨p, hp, hplain⟩ := exists_mem_of_forall₂ (plain_params h.of h.extras_other) q hq
    refine ⟨hseparates q (List.mem_append_left _ hq), fun hname => ?_⟩
    have hknown := (name_eq_key_iff hplain .signature).mp (hname.trans (Str.ext rfl))
    exact name_ne_of_mem_parameters h.extras_other hp hknown
  obtain ⟨b, rest, hb⟩ : ∃ b rest, ((input.presign extras).signature C c).val = b :: rest := by
    have hlen := ((input.presign extras).signature C c).property
    cases hval : ((input.presign extras).signature C c).val with
    | nil =>
        rw [hval] at hlen
        exact absurd hlen (by decide)
    | cons b rest => exact ⟨b, rest, rfl⟩
  have hdigits : sig.bytes
      = Hex.digit (b >>> 4) :: Hex.digit (b &&& 0x0F) :: Hex.encode rest := by
    rw [hsig, hb, Hex.encode_cons]
    rfl
  obtain ⟨text, htext, htamper⟩ := tamperParts_text (ε := Empty) hnames
    (hseparates _ (List.mem_append_right _ List.mem_cons_self)) hdigits
    (Hex.digit_lt _ (mask_lt b))
  refine ⟨text, ?_⟩
  have htampered : tamperedSignature (ε := Empty)
      (writtenUri input.path (signedParams input sig)) = ok text := by
    unfold tamperedSignature
    rw [cutUri_writtenUri h.noQuery]
    dsimp only
    rw [partsOf_joinRawQuery (signedParams_ne_nil input sig) hseparates]
    exact htamper
  have hreplaced : replaceQueryParam (writtenUri input.path (signedParams input sig))
      (.lit "X-Amz-Signature") text = writtenUri input.path (signedParams input text) := by
    rw [replaceQueryParam_writtenUri h.noQuery (signedParams_ne_nil input sig) hseparates]
    refine congrArg (writtenUri input.path) ?_
    unfold signedParams
    rw [List.map_append]
    refine congrArg₂ _ ?_ rfl
    refine (List.map_congr_left fun q hq => ?_).trans (List.map_id _)
    rw [beq_eq_false_iff_ne.mpr (hnames q hq).2, if_neg Bool.false_ne_true]
    rfl
  have hother : ∀ n : UInt8, n < 16 → toAsciiUppercase
      (if Hex.digit n == zero then 0x31 else zero) ≠ toAsciiUppercase (Hex.digit n) :=
    forall_lt_sixteen (by decide)
  have hunreserved : text.bytes.all unreserved = true := by
    have hdigit : unreserved (if Hex.digit (b >>> 4) == zero then 0x31 else zero) = true := by
      cases Hex.digit (b >>> 4) == zero <;> rfl
    rw [hdigits, List.all_cons, Bool.and_eq_true] at hhex
    rw [htext, List.all_cons, hdigit, hhex.2, Bool.and_self]
  have hwritten := h.written hhex
  rw [hsig] at hwritten
  have hne : text.bytes.map toAsciiUppercase
      ≠ (Hex.encode ((input.presign extras).signature C c).val).map toAsciiUppercase := by
    rw [← hsig, hdigits, htext]
    intro heq
    exact hother _ (shift_lt b) (List.cons.inj heq).1
  obtain ⟨result, w, hverify, hreason⟩ := h.denies_resigned hrun hsent hwritten
    (h.written hunreserved) text.valid hne
  exact ⟨result, w, htampered, by rw [hreplaced]; exact hverify, hreason⟩

end Mutants

/--
**What is tampered with is denied.** An input names a configured credential that may be used for
it, and the URI that the presigner writes of it is sent as it was signed and in time, whatever the
verifier has answered before. With one of the six parameters taken out, or written once more with a
value that is text, it is denied with `missing_query_param`; with a digit of its signature changed,
with `signature_mismatch`. None of the helpers panics.
-/
theorem presigned_mutants_denied (hrun : Running C settings credentials v)
    (h : Signable settings credentials input c i extras)
    (hsent : SentAs settings input i method host now) :
    ∃ uri, presignedUri (ε := Empty) C input = ok uri
      ∧ (∀ k : Known, ∃ result w,
        v.verify C method (removeQueryParam uri k.key).bytes host now = ok (result, w)
          ∧ result.reason = .missingQueryParam)
      ∧ (∀ (k : Known) (q : RawQueryParam) (value : Bytes), q.Spells (k.name, value) →
        Utf8.Valid value → ∃ result w,
          v.verify C method (format [uri, .lit "&", q.text]).bytes host now = ok (result, w)
            ∧ result.reason = .missingQueryParam)
      ∧ ∃ text result w, tamperedSignature (ε := Empty) uri = ok text
        ∧ v.verify C method (replaceQueryParam uri (.lit "X-Amz-Signature") text).bytes host now
          = ok (result, w) ∧ result.reason = .signatureMismatch := by
  obtain ⟨sig, huri, hsig⟩ := h.exists_uri C
  exact ⟨_, huri, h.denies_removed hrun hsent hsig,
    fun k q value hq hvalid => h.denies_appended hrun hsent hsig hq hvalid,
    h.denies_tampered hrun hsent hsig⟩

/-- The input of the tests. -/
def sampleInput : PresignInput where
  method := .lit "GET"
  path := .lit "/bucket/file.jpg"
  host := .lit "minio.example.com"
  accessKey := .lit "AKIATEST"
  secretKey := .lit "test-secret"
  region := .lit "us-east-1"
  signTime := ⟨.lit "20260102", .lit "20260102T030405Z"⟩
  expires := .fromSecs 300
  extra := []

/-- The signing time of the tests. -/
def sampleInstant : Instant where
  year := 2026
  month := 1
  day := 2
  hour := 3
  minute := 4
  second := 5
  year_le := by decide
  isDate := by decide
  hour_le := by decide
  minute_le := by decide
  second_le := by decide

theorem sampleInput_signable : Signable sampleSettings [sampleCredential] sampleInput
    sampleCredential sampleInstant [] where
  of := {
    accessKey := by rfl
    secretKey := by rfl
    method := Str.ext (by decide)
    date := by rfl
    timestamp := by rfl
    extra := .nil }
  configured := List.mem_singleton.mpr rfl
  enabled := rfl
  accessKey := by decide
  method := by
    have hne : sampleSettings.supportedMethods ≠ [] := List.cons_ne_nil _ _
    unfold Supported
    rw [if_neg hne]
    exact ⟨.lit "GET", List.mem_cons_self, Str.ext (by decide)⟩
  host := by decide
  path := by rfl
  noQuery := by decide
  policy := by
    refine ⟨Or.inr ⟨.lit "GET", by simp [sampleCredential], Str.ext (by decide)⟩,
      Or.inr ⟨.lit "minio.example.com", by simp [sampleCredential], Str.ext (by decide)⟩,
      Or.inr ⟨bytes "/bucket/", by simp [sampleCredential], by decide, bytes "file.jpg", rfl, ?_⟩⟩
    exact Or.inr (Or.inl rfl)
  region_ne := by decide
  region := by decide
  expires_pos := by decide
  expires_le := rfl
  extras_named := fun q hq => absurd hq List.not_mem_nil
  extras_other := fun q hq => absurd hq List.not_mem_nil

theorem sampleInstant_epochSeconds : sampleInstant.epochSeconds = 1767323045 := by
  have hparse : parseAmzDate (.lit "20260102T030405Z")
      = ok ⟨.lit "20260102", 1767323045⟩ := by rfl
  obtain ⟨i, hwrite, hparsed⟩ := parseAmzDate_eq_ok.mp hparse
  have hi : i = sampleInstant := Instant.write_injective (hwrite.symm.trans (by rfl))
  rw [← hi]
  exact (congrArg ParsedAmzDate.epochSeconds hparsed).symm

theorem sampleInput_sentAs : SentAs sampleSettings sampleInput sampleInstant (.lit "get")
    (.lit "MinIO.example.com") sampleRequest.now where
  method := Str.ext (by decide)
  host := Str.ext (by decide)
  notFuture := by
    rw [sampleInstant_epochSeconds]
    decide
  notExpired := by
    rw [sampleInstant_epochSeconds]
    decide

theorem presigned_allowed_sample :
    ∃ uri v', presignedUri (ε := Empty) sampleCrypto sampleInput = ok uri
      ∧ sampleVerifier.verify sampleCrypto (.lit "get") uri.bytes (.lit "MinIO.example.com")
          sampleRequest.now
        = ok ({ allowed := true, reason := .ok, path := sampleInput.path.bytes,
                accessKey := some sampleCredential.accessKey.trim,
                accessKeyHash := Spec.accessKeyHash sampleCrypto sampleCredential.accessKey.trim },
            v') :=
  presigned_allowed sample_running sampleInput_signable sampleInput_sentAs

/-- Taken out, given twice and changed. -/
theorem presigned_mutants_denied_sample :
    ∃ uri, presignedUri (ε := Empty) sampleCrypto sampleInput = ok uri
      ∧ (∃ result w, sampleVerifier.verify sampleCrypto (.lit "get")
          (removeQueryParam uri Known.expires.key).bytes (.lit "MinIO.example.com")
          sampleRequest.now = ok (result, w) ∧ result.reason = .missingQueryParam)
      ∧ (∃ result w, sampleVerifier.verify sampleCrypto (.lit "get")
          (format [uri, .lit "&", (qp (.lit "X-Amz-Expires") (.lit "86400")).text]).bytes
          (.lit "MinIO.example.com") sampleRequest.now = ok (result, w)
          ∧ result.reason = .missingQueryParam)
      ∧ ∃ text result w, tamperedSignature (ε := Empty) uri = ok text
        ∧ sampleVerifier.verify sampleCrypto (.lit "get")
          (replaceQueryParam uri (.lit "X-Amz-Signature") text).bytes (.lit "MinIO.example.com")
          sampleRequest.now = ok (result, w) ∧ result.reason = .signatureMismatch := by
  obtain ⟨uri, huri, hremoved, happended, htampered⟩ :=
    presigned_mutants_denied sample_running sampleInput_signable sampleInput_sentAs
  have hspells : (qp (.lit "X-Amz-Expires") (.lit "86400")).Spells
      (Known.expires.name, bytes "86400") := spells_of_unreserved rfl rfl (by rfl) (by rfl)
  exact ⟨uri, huri, hremoved .expires, happended .expires _ _ hspells (valid_bytes _), htampered⟩

end SigV4
