import SigV4.Proof.Verify
import SigV4.Spec.Request

/-!
# The answer is "allowed" exactly on authorised requests

The checks are taken one stage at a time: what it says of the request that a stage is
passed (`checkRequestLine_eq_ok`, `checkParameters_eq_ok`, `checkCredential_eq_ok`,
`checkWindow_eq_ok`). Put together they are the fields of `AuthorisedBy`, in both
directions: `authorisedBy_of_allowed` and `answer_of_authorisedBy`.
-/

namespace SigV4

open Outcome Ascii Spec

variable {C : Crypto} {st : State}

/-! ## The request line -/

/-- The request line of a request whose query stands for `ps`. -/
def RequestLine.of (method : Str) (rawUri : Bytes) (host : Str) (ps : List Pair) :
    RequestLine where
  method := normalMethod method
  host := normalHost host
  rawPath := uriPath rawUri
  canonicalQueryString := canonicalString ps
  query := .ofPairs ps

theorem RequestLine.of_single {ps : List Pair} (h : Acceptable ps) (method : Str) (rawUri : Bytes)
    (host : Str) (k : Known) :
    (RequestLine.of method rawUri host ps).query.single k = single k ps := ofPairs_single h k

/-- **The first stage**, with its answers. -/
theorem checkRequestLine_eq (st : State) (method : Str) (rawUri : Bytes) (host : Str)
    [Decidable (ValidUri rawUri)] : checkRequestLine st method rawUri host
      = if (normalMethod method).isEmpty || rawUri.isEmpty || (normalHost host).isEmpty then
          exit (deny .missingMetadata [] .empty)
        else if normalMethod method ∉ st.supportedMethods then
          exit (deny .unsupportedMethod (if ValidUri rawUri then uriPath rawUri else []) .empty)
        else if ValidUri rawUri then
          match accepted (uriQuery rawUri) with
          | some ps => ok (.of method rawUri host ps)
          | none => exit (deny .invalidUri (uriPath rawUri) .empty)
        else exit (deny .invalidUri [] .empty) := by
  unfold checkRequestLine
  rw [asciiUpperCow_eq, asciiLowerCow_eq, splitOriginalUri_eq]
  unfold normalMethod normalHost
  dsimp only
  cases he : method.trim.toAsciiUppercase.isEmpty || rawUri.isEmpty
      || host.trim.toAsciiLowercase.isEmpty with
  | true => rfl
  | false =>
      rw [exitIf_false, ok_bind, if_neg Bool.false_ne_true]
      by_cases hs : method.trim.toAsciiUppercase ∉ st.supportedMethods
      · rw [if_pos hs, if_pos hs]
        by_cases hu : ValidUri rawUri
        · rw [if_pos hu, if_pos hu, map_ok, recover_ok, ok_bind]
        · rw [if_neg hu, if_neg hu, map_exit, recover_exit, ok_bind]
      · rw [if_neg hs, if_neg hs]
        by_cases hu : ValidUri rawUri
        · rw [if_pos hu, if_pos hu, mapExit_ok, ok_bind]
          dsimp only
          rw [canonicalQuery_eq]
          cases accepted (uriQuery rawUri) with
          | none => rfl
          | some ps => rfl
        · rw [if_neg hu, if_neg hu, mapExit_exit, exit_bind]

/-- A request the first stage answers nothing to. -/
structure LineOk (st : State) (method : Str) (rawUri : Bytes) (host : Str) (ps : List Pair) :
    Prop where
  method_ne : (normalMethod method).bytes ≠ []
  host_ne : (normalHost host).bytes ≠ []
  supported : normalMethod method ∈ st.supportedMethods
  uri : ValidUri rawUri
  accepted : accepted (uriQuery rawUri) = some ps

theorem isEmpty_eq_false {s : Str} : s.isEmpty = false ↔ s.bytes ≠ [] := by
  rw [Bool.eq_false_iff, Ne, Str.isEmpty_iff]

theorem checkRequestLine_eq_ok {method : Str} {rawUri : Bytes} {host : Str} {line : RequestLine} :
    checkRequestLine st method rawUri host = ok line
      ↔ ∃ ps, LineOk st method rawUri host ps ∧ line = .of method rawUri host ps := by
  classical
  rw [checkRequestLine_eq]
  refine ⟨?_, ?_⟩
  · intro h
    cases he : (normalMethod method).isEmpty || rawUri.isEmpty || (normalHost host).isEmpty with
    | true =>
        rw [if_pos he] at h
        exact absurd h (by simp)
    | false =>
        rw [if_neg (by simp [he])] at h
        simp only [Bool.or_eq_false_iff] at he
        obtain ⟨⟨hm, _⟩, hh⟩ := he
        by_cases hs : normalMethod method ∈ st.supportedMethods
        · rw [if_neg (not_not_intro hs)] at h
          by_cases hu : ValidUri rawUri
          · rw [if_pos hu] at h
            cases ha : accepted (uriQuery rawUri) with
            | none =>
                rw [ha] at h
                exact absurd h (by simp)
            | some ps =>
                rw [ha] at h
                exact ⟨ps, ⟨isEmpty_eq_false.mp hm, isEmpty_eq_false.mp hh, hs, hu, ha⟩,
                  (Outcome.ok.inj h).symm⟩
          · rw [if_neg hu] at h
            exact absurd h (by simp)
        · rw [if_pos hs] at h
          exact absurd h (by simp)
  · intro hc
    obtain ⟨ps, hok, rfl⟩ := hc
    rw [isEmpty_eq_false.mpr hok.method_ne, isEmpty_eq_false.mpr hok.host_ne,
      hok.uri.isEmpty_eq_false,
      Bool.or_false, Bool.or_false, if_neg Bool.false_ne_true,
      if_neg (not_not_intro hok.supported), if_pos hok.uri, hok.accepted]

/-! ## The parameters -/

/-- Of the signature it is only asked whether it is there. -/
theorem checkParameters_congr_values {path : Bytes} {query query' : SigV4Query}
    (h : ∀ k, k ≠ .signature → query.single k = query'.single k)
    (hsig : (query.single .signature).isNone = (query'.single .signature).isNone) :
    checkParameters C st path query = checkParameters C st path query' := by
  have halg := h .algorithm Known.noConfusion
  have hcred := h .credential Known.noConfusion
  have hdate := h .date Known.noConfusion
  have hexp := h .expires Known.noConfusion
  have hheaders := h .signedHeaders Known.noConfusion
  simp only [SigV4Query.single] at halg hcred hdate hexp hheaders hsig
  unfold checkParameters
  rw [halg, hcred, hdate, hexp, hheaders, hsig]

/-! ## Policy and time -/

theorem checkCredential_eq_ok {line : RequestLine} {params : Parameters}
    {cred : CompiledCredential} : checkCredential line params cred = ok ()
      ↔ cred.enabled = true
        ∧ (cred.methodAllowed line.method = true ∧ cred.hostAllowed line.host = true
          ∧ cred.pathAllowed line.rawPath = true)
        ∧ cred.maxExpires.lt (.fromSecs params.expiresSeconds) = false := by
  unfold checkCredential
  refine ⟨?_, ?_⟩
  · intro h
    obtain ⟨_, henabled, h⟩ := bind_eq_ok.mp h
    obtain ⟨_, hpolicy, h⟩ := bind_eq_ok.mp h
    have henabled := exitIf_eq_ok.mp henabled
    have hpolicy := exitIf_eq_ok.mp hpolicy
    simp only [Bool.or_eq_false_iff, Bool.not_eq_false'] at henabled hpolicy
    exact ⟨henabled, ⟨hpolicy.1.1, hpolicy.1.2, hpolicy.2⟩, exitIf_eq_ok.mp h⟩
  · intro hc
    obtain ⟨henabled, ⟨hm, hh, hp⟩, hmax⟩ := hc
    rw [henabled, hm, hh, hp, hmax]
    rfl

/-- **The window**: within the range of dates no addition saturates. -/
theorem checkWindow_eq (st : State) (line : RequestLine) {params : Parameters}
    (cred : CompiledCredential) (now : SystemTime) {i : Instant}
    (hdate : params.parsedDate.epochSeconds = i.epochSeconds)
    (hle : params.expiresSeconds ≤ maxSigv4ExpiresSecs) :
    checkWindow st line params cred now
      = if i.epochSeconds > wholeSeconds now
            + saturatingDurationI64 st.settings.allowedClockSkew then
          exit (deny .futureDated line.rawPath cred.accessKeyHash)
        else if wholeSeconds now > i.epochSeconds + params.expiresSeconds.toNat then
          exit (deny .expired line.rawPath cred.accessKeyHash)
        else ok () := by
  have hi64 : i64 = ⟨-9223372036854775808, 9223372036854775807⟩ := rfl
  have hdates := epochSeconds_bounds i
  have hnow := wholeSeconds_bounds now
  have hn : params.expiresSeconds.toNat ≤ 604800 := UInt64.le_iff_toNat_le.mp hle
  have hskew : 0 ≤ saturatingDurationI64 st.settings.allowedClockSkew := by
    unfold saturatingDurationI64
    rw [hi64]
    dsimp only
    omega
  rw [hi64] at hnow
  dsimp only at hnow
  have hfuture : i.epochSeconds > saturate i64 (wholeSeconds now
        + saturatingDurationI64 st.settings.allowedClockSkew)
      ↔ i.epochSeconds > wholeSeconds now
        + saturatingDurationI64 st.settings.allowedClockSkew := by
    rw [hi64]
    unfold saturate
    dsimp only
    omega
  have hexpired : wholeSeconds now > saturate i64 (i.epochSeconds
        + min (params.expiresSeconds.toNat : Int) i64.hi)
      ↔ wholeSeconds now > i.epochSeconds + params.expiresSeconds.toNat := by
    rw [hi64]
    unfold saturate
    dsimp only
    omega
  unfold checkWindow exitIf
  rw [systemTimeEpochSeconds_eq, ok_bind, hdate]
  simp only [decide_eq_true_eq, hfuture, hexpired]
  by_cases h : i.epochSeconds > wholeSeconds now
      + saturatingDurationI64 st.settings.allowedClockSkew
  · rw [if_pos h, if_pos h, exit_bind]
  · rw [if_neg h, if_neg h, ok_bind]

theorem checkWindow_eq_ok {line : RequestLine} {params : Parameters} {cred : CompiledCredential}
    {now : SystemTime} {i : Instant} (hdate : params.parsedDate.epochSeconds = i.epochSeconds)
    (hle : params.expiresSeconds ≤ maxSigv4ExpiresSecs) :
    checkWindow st line params cred now = ok ()
      ↔ i.epochSeconds ≤ wholeSeconds now + saturatingDurationI64 st.settings.allowedClockSkew
        ∧ wholeSeconds now ≤ i.epochSeconds + params.expiresSeconds.toNat := by
  rw [checkWindow_eq st line cred now hdate hle]
  split
  · simp; omega
  · split
    · simp; omega
    · simp; omega

theorem saturatingDurationI64_eq {settings : Settings} {credentials : List Credential}
    (h : CompiledState C settings credentials st) :
    saturatingDurationI64 st.settings.allowedClockSkew = skewSeconds settings := by
  rw [h.effective]
  rfl

/-! ## From the answer to the specification -/

theorem accepted_text {ps : List Pair} (h : Acceptable ps) {k : Known} {v : Bytes}
    (hv : values k ps = [v]) : ∃ s : Str, s.bytes = v ∧ single k ps = some s := by
  have hmem : v ∈ values k ps := by rw [hv]; exact List.mem_singleton.mpr rfl
  obtain ⟨p, hp, rfl⟩ := List.mem_map.mp hmem
  obtain ⟨hp, hk⟩ := List.mem_filter.mp hp
  have hvalid := (h p hp).2 (isKnown_iff.mpr ⟨k, (eq_of_beq hk).symm⟩)
  exact ⟨⟨p.2, hvalid⟩, rfl, single_eq_some.mpr hv⟩

theorem parseCredentialScope_eq_ok {s : Str} {scope : CredentialScope}
    (h : parseCredentialScope s = ok scope) :
    IsScope s.bytes scope.fields ∧ scope.scope.bytes = scope.fields.scope := by
  rcases parseCredentialScope_eq s with ⟨scope', hp, h1, h2⟩ | ⟨_, hp⟩
  · rw [hp] at h
    rw [← Outcome.ok.inj h]
    exact ⟨h1, h2⟩
  · rw [hp] at h
    exact absurd h (by simp)

theorem parseCredentialScope_of_isScope {s : Str} {f : ScopeFields} (h : IsScope s.bytes f) :
    ∃ scope, parseCredentialScope s = ok scope ∧ scope.fields = f
      ∧ scope.scope.bytes = scope.fields.scope := by
  rcases parseCredentialScope_eq s with ⟨scope, hp, h1, h2⟩ | ⟨hno, _⟩
  · exact ⟨scope, hp, h1.unique h, h2⟩
  · exact absurd h (hno f)

theorem parseAmzDate_eq_ok {s : Str} {parsed : ParsedAmzDate} :
    parseAmzDate s = ok parsed
      ↔ ∃ i : Instant, s.bytes = i.write ∧ parsed = ⟨i.dateText, i.epochSeconds⟩ := by
  rcases parseAmzDate_eq s with ⟨hi, hp⟩ | ⟨hno, hp⟩
  · rw [hp]
    refine ⟨?_, ?_⟩
    · intro h
      exact ⟨hi.instant, hi.write.symm, (Outcome.ok.inj h).symm⟩
    · intro hc
      obtain ⟨i, hw, rfl⟩ := hc
      rw [Instant.write_injective (hi.write.trans hw)]
  · rw [hp]
    refine ⟨?_, ?_⟩
    · intro h
      exact absurd h (by simp)
    · intro hc
      obtain ⟨i, hw, _⟩ := hc
      exact absurd (hw ▸ i.isInstant) hno

/-- The signature that is expected is the one the specification makes. -/
theorem expectedSignature_eq {method : Str} {rawUri : Bytes} {host : Str} {ps : List Pair}
    {params : Parameters} {cred : CompiledCredential} {secret : Bytes} {i : Instant}
    (hseed : cred.secretSeed = bytes "AWS4" ++ secret) (hdate : params.amzDate.bytes = i.write)
    (hscope : params.scope.scope.bytes = params.scope.fields.scope) :
    expectedSignature C (.of method rawUri host ps) params cred
      = (signing C (normalMethod method).bytes (uriPath rawUri) ps (normalHost host).bytes secret
          i.write params.scope.fields).signature C := by
  unfold expectedSignature
  rw [hseed, deriveSigningKey_eq, hdate, hscope]
  rfl

theorem signatureAnswer_allowed {line : RequestLine} {params : Parameters}
    {cred : CompiledCredential} : (signatureAnswer C line params cred).allowed = true
      ↔ carriedSignature line.query = some (expectedSignature C line params cred).val := by
  unfold signatureAnswer
  split
  · rename_i h
    exact ⟨fun _ => h, fun _ => rfl⟩
  · rename_i h
    exact ⟨fun hc => absurd hc Bool.false_ne_true, fun hc => absurd hc h⟩

/-- Only the last stage allows a request. -/
theorem checked_of_allowed {method : Str} {rawUri : Bytes} {host : Str} {now : SystemTime}
    (h : (answer C st method rawUri host now).allowed = true) :
    ∃ line params cred, checkRequest C st method rawUri host now = ok (line, params, cred)
      ∧ carriedSignature line.query = some (expectedSignature C line params cred).val := by
  unfold answer at h
  cases hr : checkRequest C st method rawUri host now with
  | exit denied =>
      have hends := checkRequest_ends C st method rawUri host now
      rw [hr] at h hends
      exact absurd (h.symm.trans hends) (by simp)
  | panic p =>
      rw [hr] at h
      exact absurd h (by simp [deny])
  | ok checked =>
      obtain ⟨line, params, cred⟩ := checked
      rw [hr] at h
      exact ⟨line, params, cred, rfl, signatureAnswer_allowed.mp h⟩

/-- **Soundness of the answer**: what is allowed is authorised. -/
theorem authorised_of_allowed {settings : Settings} {credentials : List Credential}
    (hst : compileState C settings credentials = ok st) {r : Request}
    (h : (answer C st r.method r.rawUri r.host r.now).allowed = true) :
    Authorised C settings credentials r := by
  have hstate := compileState_eq_ok hst
  obtain ⟨line, params, cred, hr, hsignature⟩ := checked_of_allowed h
  obtain ⟨hline, hparams, hlookup, hcheck, hwindow⟩ := checkRequest_eq_ok.mp hr
  obtain ⟨ps, hok, rfl⟩ := checkRequestLine_eq_ok.mp hline
  obtain ⟨hpairs, hacc⟩ := accepted_eq_some.mp hok.accepted
  have hreads := checkParameters_eq_ok.mp hparams
  have hvalue : ∀ k s, (RequestLine.of r.method r.rawUri r.host ps).query.single k = some s →
      values k ps = [s.bytes] := by
    intro k s hs
    rw [RequestLine.of_single hacc] at hs
    exact single_eq_some.mp hs
  obtain ⟨credText, hcredText, hscope⟩ := hreads.credential
  obtain ⟨expText, hexpText, hexp⟩ := hreads.expires
  obtain ⟨sigText, hsigText⟩ := hreads.signature
  obtain ⟨credential, hmem, hkey, hcompile⟩ := (hstate.installed.find _ _).mp hlookup
  have hcred := compileCredential_eq_ok hcompile
  obtain ⟨hisScope, hscopeText⟩ := parseCredentialScope_eq_ok hscope
  obtain ⟨i, hwrite, hparsed⟩ := parseAmzDate_eq_ok.mp hreads.parsedDate
  have hday := hreads.day
  rw [hparsed] at hday
  obtain ⟨henabled, hpolicy, hmax⟩ := checkCredential_eq_ok.mp hcheck
  obtain ⟨hfuture, hexpired⟩ :=
    (checkWindow_eq_ok (by rw [hparsed]) hreads.expires_le).mp hwindow
  rw [saturatingDurationI64_eq hstate] at hfuture
  rw [expectedSignature_eq hcred.secretSeed hwrite hscopeText] at hsignature
  unfold carriedSignature at hsignature
  rw [hsigText, Option.bind_some] at hsignature
  have hn : UInt64.ofNat params.expiresSeconds.toNat = params.expiresSeconds :=
    UInt64.ofNat_toNat
  refine ⟨ps, credential, params.scope.fields, i, params.expiresSeconds.toNat, ?_⟩
  exact {
    method := (hstate.supportedMethods _).mp hok.supported
    host := hok.host_ne
    uri := hok.uri
    pairs := hpairs
    acceptable := hacc
    once := by
      intro k
      cases k with
      | algorithm => rw [hvalue _ _ hreads.algorithm]; rfl
      | credential => rw [hvalue _ _ hcredText]; rfl
      | date => rw [hvalue _ _ hreads.date]; rfl
      | expires => rw [hvalue _ _ hexpText]; rfl
      | signedHeaders => rw [hvalue _ _ hreads.signedHeaders]; rfl
      | signature => rw [hvalue _ _ hsigText]; rfl
    algorithm := hvalue _ _ hreads.algorithm
    signedHeaders := hvalue _ _ hreads.signedHeaders
    scope := ⟨_, hvalue _ _ hcredText, hisScope⟩
    service := by
      show params.scope.service.bytes = _
      rw [hreads.service, hstate.service]
      rfl
    terminal := by
      show params.scope.terminal.bytes = _
      rw [hreads.terminal]
      rfl
    date := by rw [hvalue _ _ hreads.date, hwrite]
    day := congrArg Str.bytes hday
    expires := ⟨_, hvalue _ _ hexpText, parseU64_eq_some.mp hexp⟩
    expires_pos := by
      refine Nat.pos_of_ne_zero fun h0 => hreads.expires_ne ?_
      rw [← hn, h0]
      rfl
    expires_le := UInt64.le_iff_toNat_le.mp hreads.expires_le
    configured := hmem
    accessKey := congrArg Str.bytes hkey
    enabled := hcred.enabled ▸ henabled
    policy := (allows_iff hcred hok.host_ne).mp hpolicy
    maxExpires := by
      rw [hn]
      unfold Spec.maxExpires
      rw [← hcred.maxExpires]
      exact hmax
    notFuture := hfuture
    notExpired := hexpired
    signature := ⟨_, hvalue _ _ hsigText, hsignature⟩ }

/-! ## From the specification to the answer -/

/-- **Completeness of the answer**: what is authorised is allowed, with everything the
answer says. -/
theorem answer_of_authorisedBy {settings : Settings} {credentials : List Credential}
    (hst : compileState C settings credentials = ok st) {r : Request} {ps : List Pair}
    {credential : Credential} {f : ScopeFields} {i : Instant} {n : Nat}
    (h : AuthorisedBy C settings credentials r ps credential f i n) :
    answer C st r.method r.rawUri r.host r.now
      = { allowed := true, reason := .ok, path := uriPath r.rawUri,
          accessKey := some credential.accessKey.trim,
          accessKeyHash := Spec.accessKeyHash C credential.accessKey.trim } := by
  have hstate := compileState_eq_ok hst
  have hsupported := (hstate.supportedMethods _).mpr h.method
  have hmethod : (normalMethod r.method).bytes ≠ [] := by
    rcases supported_get_or_head hst hsupported with hm | hm
    · rw [hm]; decide
    · rw [hm]; decide
  have hline : LineOk st r.method r.rawUri r.host ps :=
    ⟨hmethod, h.host, hsupported, h.uri, accepted_eq_some.mpr ⟨h.pairs, h.acceptable⟩⟩
  obtain ⟨credValue, hcredValue, hisScope⟩ := h.scope
  obtain ⟨expValue, hexpValue, hisExpires⟩ := h.expires
  obtain ⟨sigValue, hsigValue, hsig⟩ := h.signature
  -- the values are text
  obtain ⟨credText, rfl, hcredText⟩ := accepted_text h.acceptable hcredValue
  obtain ⟨expText, rfl, hexpText⟩ := accepted_text h.acceptable hexpValue
  obtain ⟨sigText, rfl, hsigText⟩ := accepted_text h.acceptable hsigValue
  obtain ⟨dateText, hdateBytes, hdateText⟩ := accepted_text h.acceptable h.date
  obtain ⟨scope, hscope, rfl, hscopeText⟩ := parseCredentialScope_of_isScope hisScope
  have hn : (UInt64.ofNat n).toNat = n :=
    UInt64.toNat_ofNat_of_lt' (Nat.lt_of_le_of_lt h.expires_le (by decide))
  let params : Parameters := ⟨scope, dateText, ⟨i.dateText, i.epochSeconds⟩, UInt64.ofNat n⟩
  have hreads : ReadsAs st (fun k => single k ps) params := by
    exact {
      algorithm := single_eq_some.mpr h.algorithm
      credential := ⟨credText, hcredText, hscope⟩
      service := by rw [hstate.service]; exact Str.ext h.service
      terminal := Str.ext h.terminal
      signedHeaders := single_eq_some.mpr h.signedHeaders
      date := hdateText
      parsedDate := parseAmzDate_eq_ok.mpr ⟨i, hdateBytes, rfl⟩
      day := Str.ext h.day
      expires := ⟨expText, hexpText, parseU64_eq_some.mpr (by rw [hn]; exact hisExpires)⟩
      expires_ne := by
        intro h0
        have := congrArg UInt64.toNat h0
        rw [hn] at this
        exact absurd (this ▸ h.expires_pos) (by decide)
      expires_le := by
        rw [UInt64.le_iff_toNat_le, hn]
        exact h.expires_le
      signature := ⟨sigText, hsigText⟩ }
  have hsingle : (RequestLine.of r.method r.rawUri r.host ps).query.single
      = fun k => single k ps := funext (RequestLine.of_single h.acceptable _ _ _)
  -- the credential that is configured is the one that is found
  obtain ⟨cred, hcompile⟩ := hstate.installed.compiles credential h.configured
  have hcred := compileCredential_eq_ok hcompile
  have hlookup : st.credentials.lookup params.scope.accessKey = some cred :=
    (hstate.installed.find _ _).mpr ⟨credential, h.configured, Str.ext h.accessKey, hcompile⟩
  have hcheck : checkCredential (.of r.method r.rawUri r.host ps) params cred = ok () := by
    refine checkCredential_eq_ok.mpr ⟨?_, (allows_iff hcred h.host).mpr h.policy, ?_⟩
    · rw [hcred.enabled]
      exact h.enabled
    · rw [hcred.maxExpires]
      exact h.maxExpires
  have hwindow : checkWindow st (.of r.method r.rawUri r.host ps) params cred r.now = ok () := by
    have hdate : params.parsedDate.epochSeconds = i.epochSeconds := rfl
    refine (checkWindow_eq_ok hdate hreads.expires_le).mpr ?_
    rw [saturatingDurationI64_eq hstate, hn]
    exact ⟨h.notFuture, h.notExpired⟩
  have hrequest : checkRequest C st r.method r.rawUri r.host r.now
      = ok (.of r.method r.rawUri r.host ps, params, cred) := by
    refine checkRequest_eq_ok.mpr ⟨?_, ?_, hlookup, hcheck, hwindow⟩
    · exact checkRequestLine_eq_ok.mpr ⟨ps, hline, rfl⟩
    · exact checkParameters_eq_ok.mpr (hsingle ▸ hreads)
  have hcarried : carriedSignature (RequestLine.of r.method r.rawUri r.host ps).query
      = some (expectedSignature C (.of r.method r.rawUri r.host ps) params cred).val := by
    unfold carriedSignature
    rw [hsingle]
    dsimp only
    rw [hsigText, Option.bind_some, hsig,
      expectedSignature_eq hcred.secretSeed hdateBytes hscopeText]
  unfold answer
  rw [hrequest]
  dsimp only
  unfold signatureAnswer
  rw [if_pos hcarried, hcred.accessKeyHash, hcred.accessKey]
  rfl

end SigV4
