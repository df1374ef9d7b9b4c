import SigV4.Property.Soundness

/-!
# The answer depends on what a request means

Two requests that agree in method and host up to case and surrounding space, have the
same path and decode to the same pairs in any order get the same answer, allowed or
denied. After the first stage they differ in the six slots of the query only; a slot is
read through `single`, and `single` and the canonical query string do not see the order
of the pairs.
-/

namespace SigV4

open Outcome Ascii Spec

variable {C : Crypto} {st : State}

theorem accepted_of_canonicalQuery_ok {raw : Bytes} {x : Bytes × SigV4Query}
    (h : canonicalQuery raw = ok x) : ∃ ps, accepted raw = some ps := by
  rw [canonicalQuery_eq] at h
  cases ha : accepted raw with
  | none =>
      rw [ha] at h
      exact absurd h (by simp)
  | some ps => exact ⟨ps, rfl⟩

theorem accepted_of_canonicalQuery {raw : Bytes} {ps : List Pair} {x : Bytes × SigV4Query}
    (h : canonicalQuery raw = ok x) (hps : pairs raw = some ps) : accepted raw = some ps := by
  obtain ⟨qs, ha⟩ := accepted_of_canonicalQuery_ok h
  obtain ⟨hqs, _⟩ := accepted_eq_some.mp ha
  rw [ha, ← hqs, hps]

/-- What is answered on a request line: every stage after the first. -/
def answerLine (C : Crypto) (st : State) (line : RequestLine) (now : SystemTime) : VerifyResult :=
  let checked := do
    let params ← checkParameters C st line.rawPath line.query
    let cred ← checkPolicy C st line params
    checkWindow st line params cred now
    ok (params, cred)
  match checked with
  | .ok (params, cred) => signatureAnswer C line params cred
  | .exit denied => denied
  | .panic _ => deny .invalidUri [] .empty

theorem answer_of_line {method : Str} {rawUri : Bytes} {host : Str} {line : RequestLine}
    (h : checkRequestLine st method rawUri host = ok line) (now : SystemTime) :
    answer C st method rawUri host now = answerLine C st line now := by
  unfold answer checkRequest answerLine
  rw [h, ok_bind]
  cases checkParameters C st line.rawPath line.query with
  | exit e => rfl
  | panic p => rfl
  | ok params =>
      rw [ok_bind, ok_bind]
      cases checkPolicy C st line params with
      | exit e => rfl
      | panic p => rfl
      | ok cred =>
          rw [ok_bind, ok_bind]
          cases checkWindow st line params cred now <;> rfl

/-- The stages after the first read the query through its six values. -/
theorem answerLine_congr {line : RequestLine} {query : SigV4Query}
    (h : ∀ k, query.single k = line.query.single k) (now : SystemTime) :
    answerLine C st { line with query := query } now = answerLine C st line now := by
  have hparams : checkParameters C st line.rawPath query
      = checkParameters C st line.rawPath line.query :=
    checkParameters_congr_values (fun k _ => h k) (congrArg Option.isNone (h .signature))
  have hsig : ∀ params cred, signatureAnswer C { line with query := query } params cred
      = signatureAnswer C line params cred := by
    intro params cred
    unfold signatureAnswer carriedSignature
    rw [h .signature]
    rfl
  unfold answerLine
  simp only [hparams, hsig]
  rfl

/-- The first stage, where URI and query are accepted. -/
theorem checkRequestLine_of_accepted {method : Str} {rawUri : Bytes} {host : Str} {ps : List Pair}
    (huri : ValidUri rawUri) (hps : accepted (uriQuery rawUri) = some ps) :
    checkRequestLine st method rawUri host
      = if (normalMethod method).isEmpty || (normalHost host).isEmpty then
          exit (deny .missingMetadata [] .empty)
        else if normalMethod method ∉ st.supportedMethods then
          exit (deny .unsupportedMethod (uriPath rawUri) .empty)
        else ok (.of method rawUri host ps) := by
  classical
  rw [checkRequestLine_eq, if_pos huri, if_pos huri, hps, huri.isEmpty_eq_false, Bool.or_false]

/-- **One meaning, one answer**, on a state. -/
theorem answer_of_same_meaning {method₁ method₂ host₁ host₂ : Str} {u₁ u₂ path q₁ q₂ : Bytes}
    {ps₁ ps₂ : List Pair} (hmethod : normalMethod method₁ = normalMethod method₂)
    (hhost : normalHost host₁ = normalHost host₂)
    (hu₁ : splitOriginalUri u₁ = ok (path, q₁)) (hu₂ : splitOriginalUri u₂ = ok (path, q₂))
    (hq₁ : accepted q₁ = some ps₁) (hq₂ : accepted q₂ = some ps₂) (hperm : ps₁.Perm ps₂)
    (now : SystemTime) :
    answer C st method₁ u₁ host₁ now = answer C st method₂ u₂ host₂ now := by
  obtain ⟨huri₁, hpath₁, rfl⟩ := splitOriginalUri_eq_ok.mp hu₁
  obtain ⟨huri₂, hpath₂, rfl⟩ := splitOriginalUri_eq_ok.mp hu₂
  have hline₁ := @checkRequestLine_of_accepted st method₁ u₁ host₁ ps₁ huri₁ hq₁
  have hline₂ := @checkRequestLine_of_accepted st method₂ u₂ host₂ ps₂ huri₂ hq₂
  rw [hpath₁, hmethod, hhost] at hline₁
  rw [hpath₂] at hline₂
  by_cases hempty : ((normalMethod method₂).isEmpty || (normalHost host₂).isEmpty) = true
  · rw [if_pos hempty] at hline₁ hline₂
    unfold answer checkRequest
    rw [hline₁, hline₂]
  · rw [if_neg hempty] at hline₁ hline₂
    by_cases hs : normalMethod method₂ ∉ st.supportedMethods
    · rw [if_pos hs] at hline₁ hline₂
      unfold answer checkRequest
      rw [hline₁, hline₂]
    · rw [if_neg hs] at hline₁ hline₂
      -- the two lines differ in the slots of the query only
      have hlines : RequestLine.of method₁ u₁ host₁ ps₁
          = { RequestLine.of method₂ u₂ host₂ ps₂ with query := .ofPairs ps₁ } := by
        unfold RequestLine.of
        rw [hmethod, hhost, hpath₁, hpath₂, canonicalString_perm hperm]
      rw [answer_of_line hline₁, answer_of_line hline₂, hlines]
      refine answerLine_congr (fun k => ?_) now
      show (SigV4Query.ofPairs ps₁).single k = (SigV4Query.ofPairs ps₂).single k
      rw [ofPairs_single (accepted_eq_some.mp hq₁).2, ofPairs_single (accepted_eq_some.mp hq₂).2,
        single_perm hperm]

/--
**The answer does not depend on the spelling.** Methods equal up to case and surrounding
space, hosts equal up to case and surrounding space, one path, and queries that decode to
the same pairs in any order: one answer, in all its fields.
-/
theorem verify_spelling {settings : Settings} {credentials : List Credential}
    {v w : Verifier} (hv : Running C settings credentials v) (hw : Running C settings credentials w)
    {method₁ method₂ host₁ host₂ : Str} {u₁ u₂ path q₁ q₂ : Bytes} {ps₁ ps₂ : List Pair}
    {x₁ x₂ : Bytes × SigV4Query}
    (hmethod : method₁.trim.toAsciiUppercase = method₂.trim.toAsciiUppercase)
    (hhost : host₁.trim.toAsciiLowercase = host₂.trim.toAsciiLowercase)
    (hu₁ : splitOriginalUri u₁ = ok (path, q₁)) (hu₂ : splitOriginalUri u₂ = ok (path, q₂))
    (hq₁ : canonicalQuery q₁ = ok x₁) (hq₂ : canonicalQuery q₂ = ok x₂)
    (hps₁ : pairs q₁ = some ps₁) (hps₂ : pairs q₂ = some ps₂) (hperm : ps₁.Perm ps₂)
    (now : SystemTime) :
    ∃ result v' w', v.verify C method₁ u₁ host₁ now = ok (result, v')
      ∧ w.verify C method₂ u₂ host₂ now = ok (result, w') := by
  have hacc₁ := accepted_of_canonicalQuery hq₁ hps₁
  have hacc₂ := accepted_of_canonicalQuery hq₂ hps₂
  obtain ⟨result, v', h₁, _⟩ := verify_total hv method₁ u₁ host₁ now
  obtain ⟨result', w', h₂, _⟩ := verify_total hw method₂ u₂ host₂ now
  obtain ⟨st, hst, hr⟩ := running_answer hv h₁
  obtain ⟨st', hst', hr'⟩ := running_answer hw h₂
  obtain rfl := Outcome.ok.inj (hst.symm.trans hst')
  have hsame : answer C st method₁ u₁ host₁ now = answer C st method₂ u₂ host₂ now :=
    answer_of_same_meaning hmethod hhost hu₁ hu₂ hacc₁ hacc₂ hperm now
  rw [← hr, ← hr'] at hsame
  exact ⟨result, v', w', h₁, hsame ▸ h₂⟩

theorem verify_spelling_sample :
    ∃ result v' w',
      sampleVerifier.verify sampleCrypto sampleRequest.method sampleRequest.rawUri
          sampleRequest.host sampleRequest.now = ok (result, v')
        ∧ sampleVerifier.verify sampleCrypto respelledRequest.method respelledRequest.rawUri
          respelledRequest.host sampleRequest.now = ok (result, w') := by
  have hq₁ := canonicalQuery_eq (uriQuery sampleRequest.rawUri)
  have hq₂ := canonicalQuery_eq (uriQuery respelledRequest.rawUri)
  rw [sample_accepted] at hq₁
  rw [respelled_accepted] at hq₂
  exact verify_spelling sample_running sample_running (by decide) (by decide) sample_uri
    respelled_uri hq₁ hq₂ (accepted_eq_some.mp sample_accepted).1
    (accepted_eq_some.mp respelled_accepted).1 (List.reverse_perm _).symm _

end SigV4
