import SigV4.Property.Soundness

/-!
# The time window

A request that has passed every other check is let through from its date, less the skew,
to its date and its expiry, in whole seconds and both ends included. Clock, skew, date and
expiry go through machine types that clamp; the comparisons come out as those of the exact
numbers, however large or small these are.
-/

namespace SigV4

open Outcome Spec

variable {C : Crypto} {settings : Settings} {credentials : List Credential} {v : Verifier}
  {method : Str} {rawUri : Bytes} {host : Str} {line : RequestLine} {params : Parameters}
  {cred : CompiledCredential} {now : SystemTime}

/-- A request that passes every check before the time checks. -/
structure PassesChecks (C : Crypto) (st : State) (method : Str) (rawUri : Bytes) (host : Str)
    (line : RequestLine) (params : Parameters) (cred : CompiledCredential) : Prop where
  requestLine : checkRequestLine st method rawUri host = ok line
  parameters : checkParameters C st line.rawPath line.query = ok params
  policy : checkPolicy C st line params = ok cred

/-- `date > now + skew`, in exact integers. -/
def FutureDated (settings : Settings) (params : Parameters) (now : SystemTime) : Prop :=
  params.parsedDate.epochSeconds > now.secs + settings.allowedClockSkew.secs.toNat

/-- `now > date + expires`, in exact integers. -/
def PastExpiry (params : Parameters) (now : SystemTime) : Prop :=
  now.secs > params.parsedDate.epochSeconds + params.expiresSeconds.toNat

instance : Decidable (FutureDated settings params now) := inferInstanceAs (Decidable (_ > _))

instance : Decidable (PastExpiry params now) := inferInstanceAs (Decidable (_ > _))

/-- **What a request is answered** that passes every other check, from the epoch on. -/
theorem answer_of_passesChecks {st : State}
    (hskew : st.settings.allowedClockSkew = settings.allowedClockSkew)
    (h : PassesChecks C st method rawUri host line params cred) (hnow : 0 ≤ now.secs) :
    answer C st method rawUri host now
      = if FutureDated settings params now then deny .futureDated line.rawPath cred.accessKeyHash
        else if PastExpiry params now then deny .expired line.rawPath cred.accessKeyHash
        else signatureAnswer C line params cred := by
  have hreads := checkParameters_eq_ok.mp h.parameters
  obtain ⟨i, _, hi⟩ := parseAmzDate_eq_ok.mp hreads.parsedDate
  have hdate : params.parsedDate.epochSeconds = i.epochSeconds := by rw [hi]
  have hdates := epochSeconds_bounds i
  have hwhole : wholeSeconds now = now.secs := by
    have hi64 : i64.hi = 9223372036854775807 := rfl
    unfold wholeSeconds
    rw [if_pos (Or.inl hnow), hi64]
    omega
  -- a skew that is clamped is past every date as it is
  have hfuture : i.epochSeconds > now.secs + saturatingDurationI64 st.settings.allowedClockSkew
      ↔ FutureDated settings params now := by
    have hi64 : i64.hi = 9223372036854775807 := rfl
    unfold saturatingDurationI64 FutureDated
    rw [hskew, hi64, hdate]
    omega
  have hexpired : now.secs > i.epochSeconds + params.expiresSeconds.toNat
      ↔ PastExpiry params now := by
    unfold PastExpiry
    rw [hdate]
  have hwindow := checkWindow_eq st line cred now hdate hreads.expires_le
  rw [hwhole] at hwindow
  simp only [hfuture, hexpired] at hwindow
  unfold answer checkRequest
  rw [h.requestLine, ok_bind, h.parameters, ok_bind, h.policy, ok_bind, hwindow]
  by_cases hf : FutureDated settings params now
  · rw [if_pos hf, if_pos hf]
    rfl
  · rw [if_neg hf, if_neg hf]
    by_cases he : PastExpiry params now
    · rw [if_pos he, if_pos he]
      rfl
    · rw [if_neg he, if_neg he]
      rfl

theorem signatureAnswer_reason (C : Crypto) (line : RequestLine) (params : Parameters)
    (cred : CompiledCredential) :
    (signatureAnswer C line params cred).reason ≠ .futureDated
      ∧ (signatureAnswer C line params cred).reason ≠ .expired := by
  unfold signatureAnswer
  split
  · exact ⟨by simp, by simp⟩
  · exact ⟨by simp [deny], by simp [deny]⟩

section

variable {st : State} (hskew : st.settings.allowedClockSkew = settings.allowedClockSkew)
  (h : PassesChecks C st method rawUri host line params cred) (hnow : 0 ≤ now.secs)

include hskew h hnow

theorem futureDated_iff :
    (answer C st method rawUri host now).reason = .futureDated
      ↔ FutureDated settings params now := by
  have hother := signatureAnswer_reason C line params cred
  rw [answer_of_passesChecks hskew h hnow]
  by_cases hf : FutureDated settings params now
  · rw [if_pos hf]
    exact ⟨fun _ => hf, fun _ => rfl⟩
  · rw [if_neg hf]
    refine ⟨fun hr => ?_, fun hc => absurd hc hf⟩
    by_cases he : PastExpiry params now
    · rw [if_pos he] at hr
      exact absurd hr (by simp [deny])
    · rw [if_neg he] at hr
      exact absurd hr hother.1

theorem expired_iff :
    (answer C st method rawUri host now).reason = .expired
      ↔ ¬FutureDated settings params now ∧ PastExpiry params now := by
  have hother := signatureAnswer_reason C line params cred
  rw [answer_of_passesChecks hskew h hnow]
  by_cases hf : FutureDated settings params now
  · rw [if_pos hf]
    exact ⟨fun hr => absurd hr (by simp [deny]), fun hc => absurd hf hc.1⟩
  · rw [if_neg hf]
    by_cases he : PastExpiry params now
    · rw [if_pos he]
      exact ⟨fun _ => ⟨hf, he⟩, fun _ => rfl⟩
    · rw [if_neg he]
      exact ⟨fun hr => absurd hr hother.2, fun hc => absurd hc.2 he⟩

theorem allowed_iff :
    (answer C st method rawUri host now).allowed = true
      ↔ (¬FutureDated settings params now ∧ ¬PastExpiry params now)
        ∧ carriedSignature line.query = some (expectedSignature C line params cred).val := by
  rw [answer_of_passesChecks hskew h hnow]
  by_cases hf : FutureDated settings params now
  · rw [if_pos hf]
    exact ⟨fun hc => absurd hc Bool.false_ne_true, fun hc => absurd hf hc.1.1⟩
  · rw [if_neg hf]
    by_cases he : PastExpiry params now
    · rw [if_pos he]
      exact ⟨fun hc => absurd hc Bool.false_ne_true, fun hc => absurd he hc.1.2⟩
    · rw [if_neg he, signatureAnswer_allowed]
      exact ⟨fun hs => ⟨⟨hf, he⟩, hs⟩, fun hc => hc.2⟩

end

/-- A running verifier has the configured skew. -/
theorem running_skew (hv : Running C settings credentials v) :
    v.state.settings.allowedClockSkew = settings.allowedClockSkew := by
  obtain ⟨_, v₀, hnew, hsame⟩ := running_inv hv
  have hst := compileState_eq_ok (new_eq_ok.mp hnew)
  rw [hsame.settings, hst.effective]
  rfl

/-- Running verifiers of one configuration answer alike. -/
theorem running_answer_congr {w : Verifier} (hv : Running C settings credentials v)
    (hw : Running C settings credentials w) (method : Str) (rawUri : Bytes) (host : Str)
    (now : SystemTime) :
    answer C w.state method rawUri host now = answer C v.state method rawUri host now := by
  obtain ⟨_, v₀, hnew, hsame⟩ := running_inv hv
  obtain ⟨_, w₀, hnew', hsame'⟩ := running_inv hw
  obtain rfl := Outcome.ok.inj (hnew.symm.trans hnew')
  rw [answer_congr hsame, answer_congr hsame']

/--
**The window is exact.** A request that passes every other check is from the future when its
date exceeds clock and skew, and otherwise expired when the clock exceeds date and expiry; it
passes the time checks on one contiguous range, and is allowed there when its signature is
right. Once expired it stays expired.
-/
theorem verify_window (hv : Running C settings credentials v)
    (h : PassesChecks C v.state method rawUri host line params cred) (hnow : 0 ≤ now.secs) :
    ∃ result v', v.verify C method rawUri host now = ok (result, v')
      ∧ (result.reason = .futureDated ↔ params.parsedDate.epochSeconds
          > now.secs + settings.allowedClockSkew.secs.toNat)
      ∧ (result.reason = .expired
          ↔ ¬params.parsedDate.epochSeconds > now.secs + settings.allowedClockSkew.secs.toNat
            ∧ now.secs > params.parsedDate.epochSeconds + params.expiresSeconds.toNat)
      ∧ ((result.reason ≠ .futureDated ∧ result.reason ≠ .expired)
          ↔ params.parsedDate.epochSeconds - settings.allowedClockSkew.secs.toNat ≤ now.secs
            ∧ now.secs ≤ params.parsedDate.epochSeconds + params.expiresSeconds.toNat)
      ∧ (result.allowed = true
          ↔ (params.parsedDate.epochSeconds - settings.allowedClockSkew.secs.toNat ≤ now.secs
              ∧ now.secs ≤ params.parsedDate.epochSeconds + params.expiresSeconds.toNat)
            ∧ carriedSignature line.query = some (expectedSignature C line params cred).val)
      ∧ (result.reason = .expired → ∀ (w : Verifier) (later : SystemTime),
          Running C settings credentials w → now.secs ≤ later.secs →
            ∃ result' w', w.verify C method rawUri host later = ok (result', w')
              ∧ result'.reason = .expired) := by
  have hskew := running_skew hv
  have hfuture := futureDated_iff hskew h hnow
  have hexpired := expired_iff hskew h hnow
  have hallowed := allowed_iff hskew h hnow
  obtain ⟨v', hverify, _, _⟩ := verify_eq (running_inv hv).1 method rawUri host now
  refine ⟨_, v', hverify, hfuture, hexpired, ?_, ?_, ?_⟩
  · rw [Ne, Ne, hfuture, hexpired]
    unfold FutureDated PastExpiry
    omega
  · rw [hallowed]
    refine and_congr_left fun _ => ?_
    unfold FutureDated PastExpiry
    omega
  · intro hr w later hw hle
    obtain ⟨hnotFuture, hpast⟩ := hexpired.mp hr
    obtain ⟨w', hverify', _, _⟩ := verify_eq (running_inv hw).1 method rawUri host later
    refine ⟨_, w', hverify', ?_⟩
    rw [running_answer_congr hv hw, expired_iff hskew h (by omega)]
    unfold FutureDated at hnotFuture ⊢
    unfold PastExpiry at hpast ⊢
    omega

/-- The sample request passes every check but, at the end of time, the last. -/
theorem verify_window_sample :
    ∃ (params : Parameters) (result : VerifyResult) (v' : Verifier),
      sampleVerifier.verify sampleCrypto sampleRequest.method sampleRequest.rawUri
          sampleRequest.host ⟨9223372036854775807, 999999999, by decide, by decide⟩
        = ok (result, v')
      ∧ (result.reason = .expired
        ↔ ¬params.parsedDate.epochSeconds > 9223372036854775807
            + (sampleSettings.allowedClockSkew.secs.toNat : Int)
          ∧ 9223372036854775807 > params.parsedDate.epochSeconds + params.expiresSeconds.toNat) := by
  have hok : (checkRequest sampleCrypto sampleVerifier.state sampleRequest.method
      sampleRequest.rawUri sampleRequest.host sampleRequest.now).isOk = true := by
    decide +kernel
  obtain ⟨⟨line, params, cred⟩, hchecked⟩ := isOk_iff.mp hok
  obtain ⟨hline, hparams, hlookup, hcheck, _⟩ := checkRequest_eq_ok.mp hchecked
  have hpasses : PassesChecks sampleCrypto sampleVerifier.state sampleRequest.method
      sampleRequest.rawUri sampleRequest.host line params cred :=
    ⟨hline, hparams, checkPolicy_eq_ok.mpr ⟨hlookup, hcheck⟩⟩
  have hnow : 0 ≤ SystemTime.secs ⟨9223372036854775807, 999999999, by decide, by decide⟩ := by
    decide
  obtain ⟨result, v', hverify, _, hexpired, _⟩ := verify_window sample_running hpasses hnow
  exact ⟨params, result, v', hverify, hexpired⟩

end SigV4
