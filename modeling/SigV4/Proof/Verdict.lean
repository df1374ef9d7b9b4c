import SigV4.Proof.Answer
import SigV4.Spec.Verdict

/-!
# `verify` makes the checks of the specification

One lemma for each stage of `verify`: it makes the checks of its stage, in their order, and a
denial of it is that of the first that fails. What a later stage knows of the earlier ones is
what their checks say (`Request.Reads` after the request line, `Request.Scoped` and the rest
after the parameters).
-/

namespace SigV4

open Outcome Ascii Spec

variable {C : Crypto} {settings : Settings} {credentials : List Credential} {st : State}
  {r : Request} {ps : List Pair}

/-! ## The denials -/

/-- A denial before the credential is read. -/
theorem denies_anonymous {c : Check} (hc : c.anonymous = true) {path : Bytes}
    (hpath : path = toldPath r c) : Denies C r c (deny c.reason path .empty) where
  denied := rfl
  reason := rfl
  path := hpath
  accessKey := rfl
  hash := by rw [if_pos hc]; rfl

/-- A denial after it. -/
theorem denies_named {c : Check} (hc : c.anonymous = false) {path : Bytes}
    (hpath : path = toldPath r c) {hash : Str} (hhash : HashOfNamed C r hash) :
    Denies C r c (deny c.reason path hash) where
  denied := rfl
  reason := rfl
  path := hpath
  accessKey := rfl
  hash := by rw [hc, if_neg Bool.false_ne_true]; exact hhash

theorem toldPath_of_valid {c : Check} (hc : c ≠ .metadata) (h : ValidUri r.rawUri) :
    uriPath r.rawUri = toldPath r c := by
  unfold toldPath
  split
  · exact absurd rfl hc
  · rw [if_pos h]

theorem toldPath_of_invalid {c : Check} (h : ¬ValidUri r.rawUri) : [] = toldPath r c := by
  unfold toldPath
  split
  · rfl
  · rw [if_neg h]

/-! ## The request line -/

/-- **The first stage** makes the checks of the request line. -/
theorem checkRequestLine_follows (hst : CompiledState C settings credentials st) (r : Request) :
    Follows (Check.Passes C settings credentials r) (Denies C r) Check.ofLine
      (checkRequestLine st r.method r.rawUri r.host) := by
  classical
  rw [checkRequestLine_eq]
  unfold Check.ofLine
  have hmeta : ((normalMethod r.method).isEmpty || r.rawUri.isEmpty
      || (normalHost r.host).isEmpty) = false
        ↔ Check.Passes C settings credentials r .metadata := by
    rw [Bool.or_eq_false_iff, Bool.or_eq_false_iff, isEmpty_eq_false, isEmpty_eq_false,
      List.isEmpty_eq_false_iff, and_assoc]
    rfl
  cases he : (normalMethod r.method).isEmpty || r.rawUri.isEmpty || (normalHost r.host).isEmpty with
  | true =>
      rw [if_pos rfl]
      refine follows_fail (fun hp => ?_) (denies_anonymous (c := .metadata) rfl rfl) _
      rw [hmeta.mpr hp] at he
      exact Bool.noConfusion he
  | false =>
      rw [if_neg Bool.false_ne_true]
      have hmeta := hmeta.mp he
      by_cases hs : normalMethod r.method ∉ st.supportedMethods
      · rw [if_pos hs]
        refine ⟨.methodServed, .cons (firstFailure_head ?_ _) hmeta,
          denies_anonymous (c := .methodServed) rfl rfl⟩
        exact fun hp => hs ((hst.supportedMethods _).mpr hp)
      · rw [if_neg hs]
        have hserved : Check.Passes C settings credentials r .methodServed :=
          (hst.supportedMethods _).mp (not_not.mp hs)
        by_cases hu : ValidUri r.rawUri
        · rw [if_pos hu]
          cases ha : accepted (uriQuery r.rawUri) with
          | none =>
              refine ⟨.query, .cons (.cons (.cons (firstFailure_head ?_ _) hu) hserved) hmeta,
                denies_anonymous (c := .query) rfl (toldPath_of_valid Check.noConfusion hu)⟩
              rintro ⟨ps, hps⟩
              rw [accepted_eq_some.mpr hps] at ha
              exact absurd ha (Option.some_ne_none ps)
          | some ps =>
              have hquery : Check.Passes C settings credentials r .query :=
                ⟨ps, accepted_eq_some.mp ha⟩
              simp only [Follows, List.forall_mem_cons, List.not_mem_nil, false_implies,
                implies_true, and_true]
              exact ⟨hmeta, hserved, hu, hquery⟩
        · rw [if_neg hu]
          have huri : ¬Check.Passes C settings credentials r .uri := hu
          exact ⟨.uri, .cons (.cons (firstFailure_head huri _) hserved) hmeta,
            denies_anonymous (c := .uri) rfl (toldPath_of_invalid hu)⟩

/-! ## The parameters -/

/-- A value is there when the name is given once. -/
theorem single_iff_gives (h : r.Reads ps) (k : Known) :
    (∃ s, single k ps = some s) ↔ ∃ value, r.Gives k value := by
  refine ⟨?_, ?_⟩
  · rintro ⟨s, hs⟩
    exact ⟨s.bytes, h.gives_iff.mpr (single_eq_some.mp hs)⟩
  · rintro ⟨value, hv⟩
    obtain ⟨s, _, hs⟩ := accepted_text h.2 (h.gives_iff.mp hv)
    exact ⟨s, hs⟩

/-- It is the value that is given. -/
theorem gives_of_single (h : r.Reads ps) {k : Known} {s : Str} (hs : single k ps = some s)
    {value : Bytes} : r.Gives k value ↔ s.bytes = value := by
  rw [h.gives_iff, single_eq_some.mp hs]
  simp

section

variable {value : Str} {scope : CredentialScope}

theorem parseCredentialScope_follows (hvalue : r.Gives .credential value.bytes)
    (hpath : uriPath r.rawUri = toldPath r .scope) :
    Follows (Check.Passes C settings credentials r) (Denies C r) [.scope]
      ((parseCredentialScope value).mapExit fun _ =>
        deny .invalidCredentialScope (uriPath r.rawUri) .empty) := by
  rcases parseCredentialScope_eq value with ⟨scope, hp, hscope, _⟩ | ⟨hno, hp⟩
  · rw [hp, mapExit_ok]
    exact follows_pass (c := Check.scope) ⟨scope.fields, value.bytes, hvalue, hscope⟩ scope
  · rw [hp, mapExit_exit]
    refine follows_fail ?_ (denies_anonymous (c := .scope) rfl hpath) []
    rintro ⟨f, v, hv, hf⟩
    rw [← hvalue.unique hv] at hf
    exact hno f hf

theorem scoped_of_parse (hvalue : r.Gives .credential value.bytes)
    (h : parseCredentialScope value = ok scope) : r.Scoped scope.fields :=
  ⟨value.bytes, hvalue, (parseCredentialScope_eq_ok h).1⟩

theorem hashOfNamed_of_scoped (h : r.Scoped scope.fields) :
    HashOfNamed C r (Spec.accessKeyHash C scope.accessKey) :=
  ⟨scope.fields, scope.accessKey, h, rfl, rfl⟩

/-- The service and the terminal are the ones there are. -/
theorem service_iff (hst : CompiledState C settings credentials st) (h : r.Scoped scope.fields) :
    (scope.service != st.settings.supportedService || scope.terminal != terminal) = false
      ↔ Check.Passes C settings credentials r .service := by
  rw [Bool.or_eq_false_iff, bne_eq_false_iff_eq, bne_eq_false_iff_eq, hst.service]
  refine ⟨?_, ?_⟩
  · rintro ⟨hs, ht⟩
    exact ⟨scope.fields, h, congrArg Str.bytes hs, congrArg Str.bytes ht⟩
  · rintro ⟨f, hf, hs, ht⟩
    rw [← h.unique hf] at hs ht
    exact ⟨Str.ext hs, Str.ext ht⟩

/-- The date is an instant on the day of the scope. -/
theorem day_iff (hvalue : r.Gives .date value.bytes) (hscope : r.Scoped scope.fields)
    {o : Option ParsedAmzDate}
    (ho : (some <$> parseAmzDate value).recover (δ := VerifyResult) (fun _ => none) = ok o) :
    (∃ parsed, o.filter (·.date == scope.date) = some parsed)
      ↔ Check.Passes C settings credentials r .day := by
  refine ⟨?_, ?_⟩
  · rintro ⟨parsed, hparsed⟩
    obtain ⟨hp, hday⟩ := (parsedDate_eq_some ho).mp hparsed
    obtain ⟨i, hi, rfl⟩ := parseAmzDate_eq_ok.mp hp
    rw [hi] at hvalue
    exact ⟨scope.fields, i, hscope, hvalue, congrArg Str.bytes hday⟩
  · rintro ⟨f, i, hf, hi, hday⟩
    rw [← hscope.unique hf] at hday
    refine ⟨⟨i.dateText, i.epochSeconds⟩, (parsedDate_eq_some ho).mpr ⟨?_, Str.ext hday⟩⟩
    exact parseAmzDate_eq_ok.mpr ⟨i, hvalue.unique hi, rfl⟩

theorem expiresNumber_iff (hvalue : r.Gives .expires value.bytes) :
    (∃ n, parseU64 value = some n) ↔ Check.Passes C settings credentials r .expiresNumber := by
  refine ⟨?_, ?_⟩
  · rintro ⟨n, hn⟩
    exact ⟨n.toNat, ⟨value.bytes, hvalue, parseU64_eq_some.mp hn⟩, n.toNat_lt⟩
  · rintro ⟨n, ⟨v, hv, hn⟩, hlt⟩
    rw [← hvalue.unique hv, ← UInt64.toNat_ofNat_of_lt' hlt] at hn
    exact ⟨UInt64.ofNat n, parseU64_eq_some.mpr hn⟩

theorem expiresRange_iff {n : UInt64} (h : r.Expires n.toNat) :
    (n == 0 || decide (n > maxSigv4ExpiresSecs)) = false
      ↔ Check.Passes C settings credentials r .expiresRange := by
  have hzero : (n == 0) = false ↔ 1 ≤ n.toNat := by
    rw [beq_eq_false_iff_ne, ne_eq, ← UInt64.toNat_inj]
    exact Nat.one_le_iff_ne_zero.symm
  rw [Bool.or_eq_false_iff, decide_eq_false_iff_not, UInt64.not_lt, UInt64.le_iff_toNat_le, hzero]
  refine ⟨fun hn => ⟨n.toNat, h, hn⟩, ?_⟩
  rintro ⟨m, hm, hrange⟩
  rw [h.unique hm]
  exact hrange

end

/-- **The second stage** makes the checks of the parameters. -/
theorem checkParameters_follows (hst : CompiledState C settings credentials st)
    (hreads : r.Reads ps) (huri : ValidUri r.rawUri) :
    Follows (Check.Passes C settings credentials r) (Denies C r) Check.ofParameters
      (checkParameters C st (uriPath r.rawUri)
        (RequestLine.of r.method r.rawUri r.host ps).query) := by
  have hsingle := RequestLine.of_single hreads.2 r.method r.rawUri r.host
  have hgiven : ∀ k, (∃ s, (RequestLine.of r.method r.rawUri r.host ps).query.single k = some s)
      ↔ ∃ value, r.Gives k value := by
    intro k
    rw [hsingle]
    exact single_iff_gives hreads k
  have hgives : ∀ {k : Known} {s : Str} {e : VerifyResult},
      ofOption e ((RequestLine.of r.method r.rawUri r.host ps).query.single k) = ok s →
        r.Gives k s.bytes := by
    intro k s e hs
    have hs := ofOption_eq_ok.mp hs
    rw [hsingle] at hs
    exact (gives_of_single hreads hs).mpr rfl
  have hpath : ∀ c : Check, c ≠ .metadata → uriPath r.rawUri = toldPath r c :=
    fun c hc => toldPath_of_valid hc huri
  have hanonymous : ∀ c : Check, c ≠ .metadata → c.anonymous = true →
      Denies C r c (deny c.reason (uriPath r.rawUri) .empty) :=
    fun c hc ha => denies_anonymous ha (hpath c hc)
  unfold checkParameters Check.ofParameters
  simp only [someOrDeny_eq, denyIf_eq]
  refine follows_check (follows_ofOption (hgiven .algorithm)
    (hanonymous .algorithmGiven Check.noConfusion rfl)) fun alg halg _ => ?_
  refine follows_check (follows_exitIf ?_ (hanonymous .algorithm Check.noConfusion rfl))
    fun _ _ _ => ?_
  · rw [bne_eq_false_iff_eq, Str.ext_iff]
    exact (hgives halg).iff
  refine follows_check (follows_ofOption (hgiven .credential)
    (hanonymous .credentialGiven Check.noConfusion rfl)) fun text htext _ => ?_
  refine follows_check (parseCredentialScope_follows (hgives htext) (hpath _ Check.noConfusion))
    fun scope hscope _ => ?_
  have hscoped := scoped_of_parse (hgives htext) (mapExit_eq_ok.mp hscope)
  have hnamed : ∀ c : Check, c ≠ .metadata → c.anonymous = false →
      Denies C r c (deny c.reason (uriPath r.rawUri) (Spec.accessKeyHash C scope.accessKey)) :=
    fun c hc ha => denies_named ha (hpath c hc) (hashOfNamed_of_scoped hscoped)
  refine follows_check (follows_exitIf (service_iff hst hscoped)
    (hnamed .service Check.noConfusion rfl)) fun _ _ _ => ?_
  refine follows_check (follows_ofOption (hgiven .signedHeaders)
    (hnamed .signedHeadersGiven Check.noConfusion rfl)) fun headers hheaders _ => ?_
  refine follows_check (follows_exitIf ?_ (hnamed .signedHeaders Check.noConfusion rfl))
    fun _ _ _ => ?_
  · rw [bne_eq_false_iff_eq, Str.ext_iff]
    exact (hgives hheaders).iff
  refine follows_check (follows_ofOption (hgiven .date)
    (hnamed .dateGiven Check.noConfusion rfl)) fun amzDate hdate _ => ?_
  -- parsing alone denies nothing
  refine follows_bind (l := []) ?_ fun o ho _ => ?_
  · rcases parseAmzDate_eq amzDate with ⟨_, hp⟩ | ⟨_, hp⟩
    · rw [hp]
      exact follows_ok _
    · rw [hp]
      exact follows_ok _
  refine follows_check (follows_ofOption (day_iff (hgives hdate) hscoped ho)
    (hnamed .day Check.noConfusion rfl)) fun _ _ _ => ?_
  refine follows_check (follows_ofOption (hgiven .expires)
    (hnamed .expiresGiven Check.noConfusion rfl)) fun expires hexpires _ => ?_
  refine follows_check (follows_ofOption (expiresNumber_iff (hgives hexpires))
    (hnamed .expiresNumber Check.noConfusion rfl)) fun n hn _ => ?_
  have hn : r.Expires n.toNat :=
    ⟨expires.bytes, hgives hexpires, parseU64_eq_some.mp (ofOption_eq_ok.mp hn)⟩
  refine follows_check (follows_exitIf (expiresRange_iff hn)
    (hnamed .expiresRange Check.noConfusion rfl)) fun _ _ _ => ?_
  refine follows_check (m := []) (follows_exitIf ?_ (hnamed .signatureGiven Check.noConfusion rfl))
    fun _ _ _ => follows_ok _
  rw [Option.isNone_eq_false_iff, Option.isSome_iff_exists]
  exact hgiven .signature

/-! ## The credential -/

/-- What the later stages know of the parameters. -/
structure Understood (r : Request) (params : Parameters) (i : Instant) : Prop where
  scope : r.Scoped params.scope.fields
  scopeText : params.scope.scope.bytes = params.scope.fields.scope
  dated : r.Dated i
  amzDate : params.amzDate.bytes = i.write
  parsed : params.parsedDate.epochSeconds = i.epochSeconds
  expires : r.Expires params.expiresSeconds.toNat
  expires_le : params.expiresSeconds ≤ maxSigv4ExpiresSecs

theorem understood_of_checkParameters (hreads : r.Reads ps) {path : Bytes} {params : Parameters}
    (h : checkParameters C st path (RequestLine.of r.method r.rawUri r.host ps).query
      = ok params) : ∃ i, Understood r params i := by
  have hsingle := RequestLine.of_single hreads.2 r.method r.rawUri r.host
  have hreadsAs := checkParameters_eq_ok.mp h
  have hgives : ∀ {k : Known} {s : Str},
      (RequestLine.of r.method r.rawUri r.host ps).query.single k = some s → r.Gives k s.bytes := by
    intro k s hs
    rw [hsingle] at hs
    exact (gives_of_single hreads hs).mpr rfl
  obtain ⟨text, htext, hscope⟩ := hreadsAs.credential
  obtain ⟨expires, hexpires, hn⟩ := hreadsAs.expires
  obtain ⟨i, hi, hparsed⟩ := parseAmzDate_eq_ok.mp hreadsAs.parsedDate
  exact ⟨i, {
    scope := scoped_of_parse (hgives htext) hscope
    scopeText := (parseCredentialScope_eq_ok hscope).2
    dated := by
      have hdate := hgives hreadsAs.date
      rwa [hi] at hdate
    amzDate := hi
    parsed := by rw [hparsed]
    expires := ⟨expires.bytes, hgives hexpires, parseU64_eq_some.mp hn⟩
    expires_le := hreadsAs.expires_le }⟩

/-- A request names one of the configured credentials at most. -/
theorem names_unique (hst : CompiledState C settings credentials st) {c c' : Credential}
    (hmem : c ∈ credentials) (hmem' : c' ∈ credentials) (h : r.Names c) (h' : r.Names c') :
    c = c' := by
  obtain ⟨f, hf, hkey⟩ := h
  obtain ⟨g, hg, hkey'⟩ := h'
  rw [← hf.unique hg, ← hkey] at hkey'
  exact List.inj_on_of_nodup_map hst.installed.distinct hmem hmem' (Str.ext hkey'.symm)

/-- The credential that is found is the one that is named. -/
structure Found (C : Crypto) (settings : Settings) (credentials : List Credential) (r : Request)
    (credential : Credential) (cred : CompiledCredential) : Prop where
  configured : credential ∈ credentials
  named : r.Names credential
  compiled : Compiled C (defaultMaxExpires settings) credential cred
  /-- No other credential is named. -/
  only : ∀ c ∈ credentials, r.Names c → c = credential

theorem found_of_lookup (hst : CompiledState C settings credentials st)
    {scope : CredentialScope} (hscoped : r.Scoped scope.fields) {cred : CompiledCredential}
    (h : st.credentials.lookup scope.accessKey = some cred) :
    ∃ credential, Found C settings credentials r credential cred := by
  obtain ⟨credential, hmem, hkey, hcompile⟩ := (hst.installed.find _ _).mp h
  have hnames : r.Names credential := ⟨scope.fields, hscoped, congrArg Str.bytes hkey⟩
  exact ⟨credential, hmem, hnames, compileCredential_eq_ok hcompile,
    fun c hc hcn => names_unique hst hc hmem hcn hnames⟩

/-- A check of the named credential is one of the credential that is found. -/
theorem Found.check_iff {credential : Credential} {cred : CompiledCredential}
    (h : Found C settings credentials r credential cred) (Q : Credential → Prop) :
    (∃ c ∈ credentials, r.Names c ∧ Q c) ↔ Q credential := by
  refine ⟨?_, fun hq => ⟨credential, h.configured, h.named, hq⟩⟩
  rintro ⟨c, hc, hn, hq⟩
  rwa [← h.only c hc hn]

theorem accessKey_iff (hst : CompiledState C settings credentials st)
    {scope : CredentialScope} (hscoped : r.Scoped scope.fields) :
    (∃ cred, st.credentials.lookup scope.accessKey = some cred)
      ↔ Check.Passes C settings credentials r .accessKey := by
  refine ⟨?_, ?_⟩
  · rintro ⟨cred, hcred⟩
    obtain ⟨credential, hfound⟩ := found_of_lookup hst hscoped hcred
    exact ⟨credential, hfound.configured, hfound.named⟩
  · rintro ⟨credential, hmem, f, hf, hkey⟩
    rw [← hscoped.unique hf] at hkey
    obtain ⟨cred, hcompile⟩ := hst.installed.compiles credential hmem
    exact ⟨cred, (hst.installed.find _ _).mpr ⟨credential, hmem, Str.ext hkey, hcompile⟩⟩

theorem Found.hashOfNamed {credential : Credential} {cred : CompiledCredential}
    (h : Found C settings credentials r credential cred) :
    HashOfNamed C r cred.accessKeyHash := by
  obtain ⟨f, hf, hkey⟩ := h.named
  exact ⟨f, cred.accessKey, hf, by rw [h.compiled.accessKey, hkey], h.compiled.accessKeyHash⟩

section

variable {params : Parameters} {i : Instant} {credential : Credential} {cred : CompiledCredential}

/-- **The third stage** makes the checks of the credential. -/
theorem checkCredential_follows (hfound : Found C settings credentials r credential cred)
    (hparams : Understood r params i) (huri : ValidUri r.rawUri)
    (hhost : (normalHost r.host).bytes ≠ []) :
    Follows (Check.Passes C settings credentials r) (Denies C r) [.enabled, .policy, .maxExpires]
      (checkCredential (.of r.method r.rawUri r.host ps) params cred) := by
  have hnamed : ∀ c : Check, c ≠ .metadata → c.anonymous = false →
      Denies C r c (deny c.reason (uriPath r.rawUri) cred.accessKeyHash) :=
    fun c hc ha => denies_named ha (toldPath_of_valid hc huri) hfound.hashOfNamed
  unfold checkCredential
  refine follows_check (follows_exitIf ?_ (hnamed .enabled Check.noConfusion rfl)) fun _ _ _ => ?_
  · rw [Bool.not_eq_false', hfound.compiled.enabled]
    exact (hfound.check_iff (·.enabled = true)).symm
  refine follows_check (follows_exitIf ?_ (hnamed .policy Check.noConfusion rfl)) fun _ _ _ => ?_
  · simp only [Bool.or_eq_false_iff, Bool.not_eq_false']
    rw [and_assoc]
    exact (allows_iff hfound.compiled hhost).trans (hfound.check_iff fun c =>
      Allows c (normalMethod r.method) (normalHost r.host) (uriPath r.rawUri)).symm
  refine follows_exitIf ?_ (hnamed .maxExpires Check.noConfusion rfl)
  have hcap : cred.maxExpires = Spec.maxExpires settings credential := hfound.compiled.maxExpires
  rw [hcap]
  refine Iff.trans ?_ (hfound.check_iff fun c => ∃ n, r.Expires n
    ∧ (Spec.maxExpires settings c).lt (.fromSecs (UInt64.ofNat n)) = false).symm
  refine ⟨fun h => ⟨_, hparams.expires, by rwa [UInt64.ofNat_toNat]⟩, ?_⟩
  rintro ⟨n, hn, h⟩
  rwa [← hparams.expires.unique hn, UInt64.ofNat_toNat] at h

/-- **The fourth stage** makes the checks of the time. -/
theorem checkWindow_follows (hst : CompiledState C settings credentials st)
    (hfound : Found C settings credentials r credential cred) (hparams : Understood r params i)
    (huri : ValidUri r.rawUri) :
    Follows (Check.Passes C settings credentials r) (Denies C r) [.notFuture, .notExpired]
      (checkWindow st (.of r.method r.rawUri r.host ps) params cred r.now) := by
  have hnamed : ∀ c : Check, c ≠ .metadata → c.anonymous = false →
      Denies C r c (deny c.reason (uriPath r.rawUri) cred.accessKeyHash) :=
    fun c hc ha => denies_named ha (toldPath_of_valid hc huri) hfound.hashOfNamed
  have hfuture : Check.Passes C settings credentials r .notFuture
      ↔ i.epochSeconds ≤ wholeSeconds r.now + skewSeconds settings := by
    refine ⟨?_, fun h => ⟨i, hparams.dated, h⟩⟩
    rintro ⟨j, hj, h⟩
    rwa [hparams.dated.unique hj]
  have hexpired : Check.Passes C settings credentials r .notExpired
      ↔ wholeSeconds r.now ≤ i.epochSeconds + params.expiresSeconds.toNat := by
    refine ⟨?_, fun h => ⟨i, _, hparams.dated, hparams.expires, h⟩⟩
    rintro ⟨j, n, hj, hn, h⟩
    rwa [hparams.dated.unique hj, hparams.expires.unique hn]
  rw [checkWindow_eq st _ cred r.now hparams.parsed hparams.expires_le,
    saturatingDurationI64_eq hst]
  cases Int.lt_or_le (wholeSeconds r.now + skewSeconds settings) i.epochSeconds with
  | inl hf =>
      rw [if_pos hf]
      exact follows_fail (fun hp => absurd (hfuture.mp hp) (Int.not_le.mpr hf))
        (hnamed .notFuture Check.noConfusion rfl) _
  | inr hf =>
      rw [if_neg (Int.not_lt.mpr hf)]
      have hf := hfuture.mpr hf
      cases Int.lt_or_le (i.epochSeconds + params.expiresSeconds.toNat) (wholeSeconds r.now) with
      | inl he =>
          rw [if_pos he]
          refine ⟨.notExpired, .cons (firstFailure_head (fun hp => ?_) _) hf,
            hnamed .notExpired Check.noConfusion rfl⟩
          exact absurd (hexpired.mp hp) (Int.not_le.mpr he)
      | inr he =>
          rw [if_neg (Int.not_lt.mpr he)]
          have he := hexpired.mpr he
          exact List.forall_mem_cons.mpr ⟨hf, List.forall_mem_singleton.mpr he⟩

/-- **The last check** is that of the signature. -/
theorem carriedSignature_iff (hreads : r.Reads ps)
    (hfound : Found C settings credentials r credential cred) (hparams : Understood r params i) :
    carriedSignature (RequestLine.of r.method r.rawUri r.host ps).query
        = some (expectedSignature C (.of r.method r.rawUri r.host ps) params cred).val
      ↔ Check.Passes C settings credentials r .signature := by
  rw [expectedSignature_eq hfound.compiled.secretSeed hparams.amzDate hparams.scopeText]
  refine Iff.trans ?_ (hfound.check_iff (r.SignedBy C)).symm
  unfold carriedSignature
  rw [RequestLine.of_single hreads.2, Option.bind_eq_some_iff]
  refine ⟨?_, ?_⟩
  · rintro ⟨s, hs, hdecode⟩
    exact ⟨ps, _, i, s.bytes, hreads, hparams.scope, hparams.dated,
      (gives_of_single hreads hs).mpr rfl, hdecode⟩
  · rintro ⟨qs, f, j, value, hqs, hf, hj, hvalue, hdecode⟩
    obtain rfl := hreads.unique hqs
    obtain rfl := hparams.scope.unique hf
    obtain rfl := hparams.dated.unique hj
    obtain ⟨s, hs⟩ := (single_iff_gives hreads .signature).mpr ⟨value, hvalue⟩
    rw [← (gives_of_single hreads hs).mp hvalue] at hdecode
    exact ⟨s, hs, hdecode⟩

end

/-! ## All stages -/

/-- **The checks before the signature** are made in order. -/
theorem checkRequest_follows (hst : CompiledState C settings credentials st) (r : Request) :
    Follows (Check.Passes C settings credentials r) (Denies C r) Check.beforeSignature
      (checkRequest C st r.method r.rawUri r.host r.now) := by
  unfold checkRequest Check.beforeSignature
  rw [List.append_assoc, List.append_assoc]
  refine follows_bind (checkRequestLine_follows hst r) fun line hline _ => ?_
  obtain ⟨ps, hok, rfl⟩ := checkRequestLine_eq_ok.mp hline
  have hreads : r.Reads ps := accepted_eq_some.mp hok.accepted
  refine follows_bind (checkParameters_follows hst hreads hok.uri) fun params hparams _ => ?_
  obtain ⟨i, hparams⟩ := understood_of_checkParameters hreads hparams
  refine follows_bind ?_ fun cred hcred _ => ?_
  · unfold checkPolicy Check.ofPolicy
    rw [someOrDeny_eq]
    refine follows_check (follows_ofOption (accessKey_iff hst hparams.scope)
      (denies_named (c := Check.accessKey) rfl (toldPath_of_valid Check.noConfusion hok.uri)
        (hashOfNamed_of_scoped hparams.scope))) fun cred hcred _ => ?_
    obtain ⟨credential, hfound⟩ :=
      found_of_lookup hst hparams.scope (ofOption_eq_ok.mp hcred)
    exact follows_bind (m := []) (checkCredential_follows hfound hparams hok.uri hok.host_ne)
      fun _ _ _ => follows_ok _
  · obtain ⟨credential, hfound⟩ :=
      found_of_lookup hst hparams.scope (checkPolicy_eq_ok.mp hcred).1
    exact follows_bind (m := []) (checkWindow_follows hst hfound hparams hok.uri)
      fun _ _ _ => follows_ok _

/-- **The answer is the verdict.** -/
theorem answer_verdict (hst : CompiledState C settings credentials st) (r : Request) :
    Verdict C settings credentials r (answer C st r.method r.rawUri r.host r.now) := by
  have hfollows := checkRequest_follows hst r
  unfold answer
  cases hr : checkRequest C st r.method r.rawUri r.host r.now with
  | panic p =>
      rw [hr] at hfollows
      exact absurd hfollows id
  | exit denied =>
      rw [hr] at hfollows
      obtain ⟨c, hc, hdenies⟩ := hfollows
      exact .denied (hc.append_right _) hdenies
  | ok checked =>
      obtain ⟨line, params, cred⟩ := checked
      rw [hr] at hfollows
      obtain ⟨hline, hparams, hlookup, _, _⟩ := checkRequest_eq_ok.mp hr
      obtain ⟨ps, hok, rfl⟩ := checkRequestLine_eq_ok.mp hline
      have hreads : r.Reads ps := accepted_eq_some.mp hok.accepted
      obtain ⟨i, hparams⟩ := understood_of_checkParameters hreads hparams
      obtain ⟨credential, hfound⟩ := found_of_lookup hst hparams.scope hlookup
      have hsig := carriedSignature_iff hreads hfound hparams
      dsimp only
      unfold signatureAnswer
      split
      · rename_i hcarried
        obtain ⟨f, hf, hkey⟩ := hfound.named
        refine .granted (fun c hc => ?_) ⟨rfl, rfl, rfl, f, cred.accessKey, hf, ?_, rfl, ?_⟩
        · rcases List.mem_append.mp hc with hc | hc
          · exact hfollows c hc
          · rw [List.mem_singleton.mp hc]
            exact hsig.mp hcarried
        · rw [hfound.compiled.accessKey, hkey]
        · exact hfound.compiled.accessKeyHash
      · rename_i hcarried
        refine .denied (c := .signature) ?_ (denies_named (c := Check.signature) rfl
          (toldPath_of_valid Check.noConfusion hok.uri) hfound.hashOfNamed)
        exact (firstFailure_head (fun hp => hcarried (hsig.mpr hp)) []).append hfollows

/-- **A running verifier gives the verdict of its configuration.** -/
theorem exists_verdict {v : Verifier} (hrun : Running C settings credentials v) (r : Request) :
    ∃ result v', v.verify C r.method r.rawUri r.host r.now = ok (result, v')
      ∧ Verdict C settings credentials r result := by
  obtain ⟨hsane, v₀, hnew, hsame⟩ := running_inv hrun
  obtain ⟨v', hverify, _, _⟩ := verify_eq hsane r.method r.rawUri r.host r.now
  refine ⟨_, v', hverify, ?_⟩
  rw [answer_congr hsame]
  exact answer_verdict (compileState_eq_ok (new_eq_ok.mp hnew)) r

end SigV4
