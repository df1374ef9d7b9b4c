import SigV4.Property.Verdict
import SigV4.Spec.Presigner

/-!
# One parameter at a time

Each check consults some of the six parameters, and what it does not consult may change under it
(`SameBut.passes`). So a parameter that is left out, or given again, fails the check that asks for
it and none before: every allowed request shows which parameter is the matter.
-/

namespace SigV4

open Outcome Spec

variable {C : Crypto} {settings : Settings} {credentials : List Credential} {v v' : Verifier}
  {k : Known} {r r' : Request} {ps ps' : List Pair}

namespace Spec.Check

/-- The parameters that a check reads the values of. -/
def consults : Check → List Known
  | metadata | methodServed | uri | query => []
  | algorithmGiven | algorithm => [.algorithm]
  | credentialGiven | scope | service | accessKey | enabled | policy => [.credential]
  | signedHeadersGiven | signedHeaders => [.signedHeaders]
  | dateGiven | notFuture => [.date]
  | day => [.credential, .date]
  | expiresGiven | expiresNumber | expiresRange => [.expires]
  | signatureGiven => [.signature]
  | maxExpires => [.credential, .expires]
  | notExpired => [.date, .expires]
  | signature => Known.all

/-- The check that asks for a parameter. -/
def given : Known → Check
  | .algorithm => algorithmGiven
  | .credential => credentialGiven
  | .date => dateGiven
  | .expires => expiresGiven
  | .signedHeaders => signedHeadersGiven
  | .signature => signatureGiven

theorem reason_given (k : Known) : (given k).reason = .missingQueryParam := by
  cases k <;> rfl

theorem passes_given_iff (h : r.Reads ps) :
    Check.Passes C settings credentials r (given k) ↔ ∃ value, values k ps = [value] := by
  have hgives : Check.Passes C settings credentials r (given k) ↔ ∃ value, r.Gives k value := by
    cases k <;> exact Iff.rfl
  rw [hgives]
  exact exists_congr fun _ => h.gives_iff

/-- Nothing consults a parameter before it is asked for. -/
theorem not_consulted_before_given (k : Known) : ∃ pre post,
    Check.all = pre ++ given k :: post ∧ ∀ c ∈ pre, k ∉ c.consults := by
  refine ⟨Check.all.takeWhile (· != given k), (Check.all.dropWhile (· != given k)).tail, ?_, ?_⟩
  · cases k <;> rfl
  · cases k <;> decide

end Spec.Check

/-- `r'` says what `r` says, but for the values of one parameter. -/
structure SameBut (k : Known) (r r' : Request) (ps ps' : List Pair) : Prop where
  method : normalMethod r'.method = normalMethod r.method
  host : normalHost r'.host = normalHost r.host
  now : r'.now = r.now
  uri : ValidUri r'.rawUri
  path : uriPath r'.rawUri = uriPath r.rawUri
  reads : r.Reads ps
  reads' : r'.Reads ps'
  others : ∀ j ≠ k, ∀ value, values j ps = [value] → values j ps' = [value]

namespace SameBut

theorem gives (h : SameBut k r r' ps ps') {j : Known} (hj : j ≠ k) {x : Bytes}
    (hx : r.Gives j x) : r'.Gives j x :=
  h.reads'.gives_iff.mpr (h.others j hj x (h.reads.gives_iff.mp hx))

theorem scopes (h : SameBut k r r' ps ps') (hk : Known.credential ≠ k) {f : ScopeFields}
    (hf : r.Scoped f) : r'.Scoped f := by
  obtain ⟨x, hx, hscope⟩ := hf
  exact ⟨x, h.gives hk hx, hscope⟩

theorem dated (h : SameBut k r r' ps ps') (hk : Known.date ≠ k) {i : Instant} (hi : r.Dated i) :
    r'.Dated i := h.gives hk hi

theorem expires (h : SameBut k r r' ps ps') (hk : Known.expires ≠ k) {n : Nat}
    (hn : r.Expires n) : r'.Expires n := by
  obtain ⟨x, hx, hexpires⟩ := hn
  exact ⟨x, h.gives hk hx, hexpires⟩

theorem names (h : SameBut k r r' ps ps') (hk : Known.credential ≠ k) {c : Credential}
    (hc : r.Names c) : r'.Names c := by
  obtain ⟨f, hf, hkey⟩ := hc
  exact ⟨f, h.scopes hk hf, hkey⟩

/-- **A check carries over** where it does not consult the parameter. -/
theorem passes (h : SameBut k r r' ps ps') {c : Check} (hc : k ∉ c.consults)
    (hp : c.Passes C settings credentials r) : c.Passes C settings credentials r' := by
  have hother : ∀ j ∈ c.consults, j ≠ k := fun j hj he => hc (he ▸ hj)
  unfold Check.consults at hother
  cases c with
  | metadata =>
      obtain ⟨hmethod, _, hhost⟩ := hp
      refine ⟨by rwa [h.method], ?_, by rwa [h.host]⟩
      exact List.isEmpty_eq_false_iff.mp h.uri.isEmpty_eq_false
  | methodServed =>
      have hp : Supported settings (normalMethod r.method) := hp
      rwa [← h.method] at hp
  | uri => exact h.uri
  | query => exact ⟨ps', h.reads'⟩
  | algorithmGiven | credentialGiven | signedHeadersGiven | dateGiven | expiresGiven
  | signatureGiven =>
      obtain ⟨x, hx⟩ := hp
      exact ⟨x, h.gives (hother _ (List.mem_singleton.mpr rfl)) hx⟩
  | algorithm | signedHeaders => exact h.gives (hother _ (List.mem_singleton.mpr rfl)) hp
  | scope =>
      obtain ⟨f, hf⟩ := hp
      exact ⟨f, h.scopes (hother _ (List.mem_singleton.mpr rfl)) hf⟩
  | service =>
      obtain ⟨f, hf, hservice⟩ := hp
      exact ⟨f, h.scopes (hother _ (List.mem_singleton.mpr rfl)) hf, hservice⟩
  | day =>
      obtain ⟨f, i, hf, hi, hday⟩ := hp
      exact ⟨f, i, h.scopes (hother _ (by simp)) hf, h.dated (hother _ (by simp)) hi, hday⟩
  | expiresNumber | expiresRange =>
      obtain ⟨n, hn, hrange⟩ := hp
      exact ⟨n, h.expires (hother _ (List.mem_singleton.mpr rfl)) hn, hrange⟩
  | accessKey =>
      obtain ⟨c, hmem, hnames⟩ := hp
      exact ⟨c, hmem, h.names (hother _ (List.mem_singleton.mpr rfl)) hnames⟩
  | enabled =>
      obtain ⟨c, hmem, hnames, henabled⟩ := hp
      exact ⟨c, hmem, h.names (hother _ (List.mem_singleton.mpr rfl)) hnames, henabled⟩
  | policy =>
      obtain ⟨c, hmem, hnames, hallows⟩ := hp
      refine ⟨c, hmem, h.names (hother _ (List.mem_singleton.mpr rfl)) hnames, ?_⟩
      rwa [h.method, h.host, h.path]
  | maxExpires =>
      obtain ⟨c, hmem, hnames, n, hn, hmax⟩ := hp
      exact ⟨c, hmem, h.names (hother _ (by simp)) hnames, n, h.expires (hother _ (by simp)) hn,
        hmax⟩
  | notFuture =>
      obtain ⟨i, hi, hle⟩ := hp
      exact ⟨i, h.dated (hother _ (List.mem_singleton.mpr rfl)) hi, by rwa [h.now]⟩
  | notExpired =>
      obtain ⟨i, n, hi, hn, hle⟩ := hp
      exact ⟨i, n, h.dated (hother _ (by simp)) hi, h.expires (hother _ (by simp)) hn,
        by rwa [h.now]⟩
  | signature => exact absurd (Known.mem_all k) hc

end SameBut

/-- The verdict is a grant exactly where every check passes. -/
theorem Spec.Verdict.allowed_iff {result : VerifyResult}
    (h : Verdict C settings credentials r result) :
    result.allowed = true ↔ ∀ c ∈ Check.all, c.Passes C settings credentials r := by
  cases h with
  | granted hall hg => exact ⟨fun _ => hall, fun _ => hg.allowed⟩
  | denied hc hd =>
      exact ⟨fun h => Bool.noConfusion (h.symm.trans hd.denied), fun h => absurd h hc.not_all⟩

/-- Where every check passed, the first to fail is the one that asks for the parameter. -/
theorem SameBut.denies (h : SameBut k r r' ps ps') (hk : (values k ps').length ≠ 1)
    (hall : ∀ c ∈ Check.all, c.Passes C settings credentials r) {result : VerifyResult}
    (hverdict : Verdict C settings credentials r' result) : Denies C r' (Check.given k) result := by
  have hfirst : FirstFailure (Check.Passes C settings credentials r') Check.all (Check.given k) := by
    obtain ⟨pre, post, hl, hpre⟩ := Check.not_consulted_before_given k
    refine ⟨pre, post, hl, fun c hc => ?_, fun hgiven => ?_⟩
    · exact h.passes (hpre c hc) (hall c (Check.mem_all c))
    · obtain ⟨value, hvalue⟩ := (Check.passes_given_iff h.reads').mp hgiven
      exact hk (by rw [hvalue]; rfl)
  cases hverdict with
  | granted hall' _ => exact absurd hall' hfirst.not_all
  | denied hd hdenies =>
      obtain rfl := hd.unique hfirst
      exact hdenies

/--
**Each parameter once.** A request is allowed, and one of its six parameters is left out or given
again, so that the URI can still be read: then it is denied with `missing_query_param`, by the
check that asks for this parameter. Whether the values agree is of no account.
-/
theorem parameter_once (hrun : Running C settings credentials v) (h : SameBut k r r' ps ps')
    (hk : (values k ps').length ≠ 1) {result : VerifyResult}
    (hverify : v.verify C r.method r.rawUri r.host r.now = ok (result, v'))
    (hallowed : result.allowed = true) :
    ∃ result' w, v.verify C r'.method r'.rawUri r'.host r'.now = ok (result', w)
      ∧ result'.reason = .missingQueryParam ∧ Denies C r' (Check.given k) result' := by
  obtain ⟨_, _, hverify₁, hverdict⟩ := exists_verdict hrun r
  obtain ⟨rfl, _⟩ := Prod.mk.inj (Outcome.ok.inj (hverify.symm.trans hverify₁))
  obtain ⟨result', w, hverify', hverdict'⟩ := exists_verdict hrun r'
  have hdenies := h.denies hk (hverdict.allowed_iff.mp hallowed) hverdict'
  exact ⟨result', w, hverify', hdenies.reason.trans (Check.reason_given k), hdenies⟩

/-- The sample request with other parameters is read as they are. -/
theorem rewritten_sample (ps : List Pair) (hps : Acceptable ps) :
    ValidUri (writeUri (bytes "/bucket/file.jpg") ps)
      ∧ uriPath (writeUri (bytes "/bucket/file.jpg") ps) = uriPath sampleRequest.rawUri
      ∧ ({ sampleRequest with rawUri := writeUri (bytes "/bucket/file.jpg") ps } : Request).Reads
        ps := by
  have hquestion : Ascii.question ∉ bytes "/bucket/file.jpg" := by decide
  have hsplit : splitOriginalUri (bytes "/bucket/file.jpg")
      = ok (bytes "/bucket/file.jpg", []) := by decide
  refine ⟨validUri_writeUri (splitOriginalUri_eq_ok.mp hsplit).1 hquestion _,
    (uriPath_writeUri hquestion _).trans (splitOriginalUri_eq_ok.mp sample_uri).2.1.symm, ?_, hps⟩
  show pairs (uriQuery (writeUri _ _)) = _
  rw [uriQuery_writeUri hquestion, pairs_writeQuery]

/-- The sample request without its expiry. -/
def unexpiringPairs : List Pair := samplePairs.filter (·.1 != Known.expires.name)

def unexpiringRequest : Request :=
  { sampleRequest with rawUri := writeUri (bytes "/bucket/file.jpg") unexpiringPairs }

theorem sameBut_sample :
    SameBut .expires sampleRequest unexpiringRequest samplePairs unexpiringPairs := by
  obtain ⟨huri, hpath, hreads⟩ := rewritten_sample unexpiringPairs (by decide)
  exact {
    method := rfl
    host := rfl
    now := rfl
    uri := huri
    path := hpath
    reads := accepted_eq_some.mp sample_accepted
    reads' := hreads
    others := by
      intro j hj value hvalue
      have hkept : values j unexpiringPairs = values j samplePairs := by
        cases j <;> first | rfl | exact absurd rfl hj
      rwa [hkept] }

theorem parameter_once_sample :
    ∃ result' w, sampleVerifier.verify sampleCrypto unexpiringRequest.method
        unexpiringRequest.rawUri unexpiringRequest.host unexpiringRequest.now = ok (result', w)
      ∧ result'.reason = .missingQueryParam
      ∧ Denies sampleCrypto unexpiringRequest (Check.given .expires) result' := by
  obtain ⟨result, v', hverify, hallowed⟩ := sample_allowed
  exact parameter_once sample_running sameBut_sample (by decide) hverify hallowed

end SigV4
