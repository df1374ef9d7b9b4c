import SigV4.Proof.Config
import SigV4.Proof.Query
import SigV4.Proof.Scope
import SigV4.Verifier.Verify

/-!
# `verify` meets its specification

`answer` is what a request is answered on a state, with no cache and no panic in it.
`verify_eq` says that a verifier whose caches are sound gives that answer and has sound
caches again, and `running_inv` that every verifier there is has sound caches and the
configuration it was given. Everything said about `verify` goes through these two.
-/

namespace SigV4

open Outcome Ascii Spec

variable {ε : Type}

/-! ## Names and policy -/

theorem asciiUpperCow_eq (s : Str) : asciiUpperCow s = s.toAsciiUppercase := by
  unfold asciiUpperCow
  split
  · rfl
  · rename_i h
    refine Str.ext ?_
    rw [Str.toAsciiUppercase_bytes]
    conv => lhs; rw [← List.map_id s.bytes]
    refine List.map_congr_left ?_
    intro b hb
    have hno : isAsciiLowercase b = false := by
      cases hl : isAsciiLowercase b with
      | false => rfl
      | true => exact absurd (List.any_eq_true.mpr ⟨b, hb, hl⟩) h
    exact (toAsciiUppercase_of_not_lower hno).symm

theorem asciiLowerCow_eq (s : Str) : asciiLowerCow s = s.toAsciiLowercase := by
  unfold asciiLowerCow
  split
  · rfl
  · rename_i h
    refine Str.ext ?_
    rw [Str.toAsciiLowercase_bytes]
    conv => lhs; rw [← List.map_id s.bytes]
    refine List.map_congr_left ?_
    intro b hb
    have hno : isAsciiUppercase b = false := by
      cases hu : isAsciiUppercase b with
      | false => rfl
      | true => exact absurd (List.any_eq_true.mpr ⟨b, hb, hu⟩) h
    exact (toAsciiLowercase_of_not_upper hno).symm

theorem pathMatchesPrefix_iff {path pfx : Bytes} :
    pathMatchesPrefix path pfx = true ↔ Extends path pfx := by
  unfold pathMatchesPrefix Extends
  refine ⟨?_, ?_⟩
  · intro h
    split at h
    · rename_i hp
      obtain ⟨suffix, rfl⟩ := List.isPrefixOf_iff_prefix.mp hp
      refine ⟨suffix, rfl, ?_⟩
      simpa [or_assoc] using h
    · exact absurd h (by simp)
  · intro hc
    obtain ⟨suffix, rfl, h⟩ := hc
    rw [if_pos (List.isPrefixOf_iff_prefix.mpr (List.prefix_append _ _))]
    simpa [or_assoc] using h

theorem pathAllowed_iff {c : CompiledCredential} {path : Bytes} :
    c.pathAllowed path = true
      ↔ c.allowedPrefixes = [] ∨ ∃ p ∈ c.allowedPrefixes, Extends path p := by
  unfold CompiledCredential.pathAllowed
  rw [Bool.or_eq_true, List.isEmpty_iff, List.any_eq_true]
  simp only [pathMatchesPrefix_iff]

section

variable {C : Crypto} {d : Duration} {credential : Credential} {c : CompiledCredential}

theorem methodAllowed_iff (h : Compiled C d credential c) (method : Str) :
    c.methodAllowed method = true ↔ AllowsMethod credential method := by
  unfold CompiledCredential.methodAllowed AllowsMethod
  rw [Bool.or_eq_true, decide_eq_true_iff, decide_eq_true_iff, h.allowedMethods method]
  refine or_congr_left ?_
  refine ⟨?_, ?_⟩
  · intro he
    refine List.eq_nil_iff_forall_not_mem.mpr fun m hmem => ?_
    have := (h.allowedMethods (normalMethod m)).mpr ⟨m, hmem, rfl⟩
    rw [he] at this
    exact absurd this (Finset.notMem_empty _)
  · intro he
    refine Finset.eq_empty_iff_forall_notMem.mpr fun m hmem => ?_
    obtain ⟨a, ha, _⟩ := (h.allowedMethods m).mp hmem
    rw [he] at ha
    exact absurd ha List.not_mem_nil

theorem hostAllowed_iff (h : Compiled C d credential c) (host : Str) :
    c.hostAllowed host = true ↔ (∀ a ∈ credential.allowedHosts, (normalHost a).bytes = [])
      ∨ host.bytes ≠ [] ∧ ∃ a ∈ credential.allowedHosts, normalHost a = host := by
  unfold CompiledCredential.hostAllowed
  rw [Bool.or_eq_true, decide_eq_true_iff, decide_eq_true_iff, h.allowedHosts host]
  refine or_congr_left ?_
  refine ⟨?_, ?_⟩
  · intro he a ha
    by_contra hne
    have := (h.allowedHosts (normalHost a)).mpr ⟨hne, a, ha, rfl⟩
    rw [he] at this
    exact absurd this (Finset.notMem_empty _)
  · intro hall
    refine Finset.eq_empty_iff_forall_notMem.mpr fun x hmem => ?_
    obtain ⟨hne, a, ha, rfl⟩ := (h.allowedHosts x).mp hmem
    exact hne (hall a ha)

theorem pathAllowed_iff_allowsPath (h : Compiled C d credential c) (path : Bytes) :
    c.pathAllowed path = true ↔ AllowsPath credential path := by
  unfold AllowsPath
  rw [pathAllowed_iff]
  refine or_congr ?_ ?_
  · refine ⟨?_, ?_⟩
    · intro he p hmem
      by_contra hne
      have := (h.allowedPrefixes p).mpr ⟨hne, hmem⟩
      rw [he] at this
      exact absurd this List.not_mem_nil
    · intro hall
      refine List.eq_nil_iff_forall_not_mem.mpr fun p hmem => ?_
      obtain ⟨hne, hin⟩ := (h.allowedPrefixes p).mp hmem
      exact hne (hall p hin)
  · refine ⟨?_, ?_⟩
    · intro hc
      obtain ⟨p, hmem, hext⟩ := hc
      obtain ⟨hne, hin⟩ := (h.allowedPrefixes p).mp hmem
      exact ⟨p, hin, hne, hext⟩
    · intro hc
      obtain ⟨p, hin, hne, hext⟩ := hc
      exact ⟨p, (h.allowedPrefixes p).mpr ⟨hne, hin⟩, hext⟩

/-- **The compiled policy is the configured one.** -/
theorem allows_iff (h : Compiled C d credential c) {method host : Str} {path : Bytes}
    (hhost : host.bytes ≠ []) :
    (c.methodAllowed method = true ∧ c.hostAllowed host = true ∧ c.pathAllowed path = true)
      ↔ Allows credential method host path := by
  have hnamed : (host.bytes ≠ [] ∧ ∃ a ∈ credential.allowedHosts, normalHost a = host)
      ↔ ∃ a ∈ credential.allowedHosts, normalHost a = host :=
    ⟨fun hx => hx.2, fun hx => ⟨hhost, hx⟩⟩
  rw [methodAllowed_iff h, hostAllowed_iff h, pathAllowed_iff_allowsPath h, hnamed]
  refine ⟨?_, ?_⟩
  · intro hc
    obtain ⟨h1, h2, h3⟩ := hc
    exact ⟨h1, h2, h3⟩
  · intro ha
    exact ⟨ha.method, ha.host, ha.path⟩

end

/-! ## The denials -/

theorem denyFor_eq {α : Type} (C : Crypto) (reason : Reason) (path : Bytes) (accessKey : Str) :
    denyFor (α := α) C reason path accessKey
      = exit (deny reason path (Spec.accessKeyHash C accessKey)) := by
  unfold denyFor
  rw [hashAccessKey_eq, ok_bind]

theorem someOrDeny_eq {α : Type} (C : Crypto) (reason : Reason) (path : Bytes) (accessKey : Str)
    (o : Option α) : someOrDeny C reason path accessKey o
      = ofOption (deny reason path (Spec.accessKeyHash C accessKey)) o := by
  cases o with
  | none => exact denyFor_eq C reason path accessKey
  | some a => rfl

theorem denyIf_eq (C : Crypto) (c : Bool) (reason : Reason) (path : Bytes) (accessKey : Str) :
    denyIf C c reason path accessKey
      = exitIf c (deny reason path (Spec.accessKeyHash C accessKey)) := by
  cases c with
  | false => rfl
  | true => exact denyFor_eq C reason path accessKey

/-! ## Safety -/

/-- A denial. -/
def VerifyResult.Denied (result : VerifyResult) : Prop := result.allowed = false

theorem denied_deny (reason : Reason) (path : Bytes) (hash : Str) :
    (deny reason path hash).Denied := rfl

theorem safe_splitOriginalUri (u : Bytes) : Safe (splitOriginalUri u) := by
  classical
  rw [splitOriginalUri_eq]
  exact ends_ite (fun _ => trivial) (fun _ => trivial)

theorem safe_canonicalQuery (raw : Bytes) : Safe (canonicalQuery raw) := by
  rw [canonicalQuery_eq]
  cases accepted raw <;> exact trivial

theorem safe_parseCredentialScope (value : Str) : Safe (parseCredentialScope value) := by
  rcases parseCredentialScope_eq value with ⟨scope, h, _⟩ | ⟨_, h⟩
  · rw [h]; exact trivial
  · rw [h]; exact trivial

theorem safe_parseAmzDate (value : Str) : Safe (parseAmzDate value) := by
  rcases parseAmzDate_eq value with ⟨_, h⟩ | ⟨_, h⟩
  · rw [h]; exact trivial
  · rw [h]; exact trivial

theorem checkRequestLine_ends (st : State) (method : Str) (rawUri : Bytes) (host : Str) :
    Ends VerifyResult.Denied (checkRequestLine st method rawUri host) := by
  have huri := safe_splitOriginalUri rawUri
  unfold checkRequestLine
  refine ends_bind (ends_exitIf (denied_deny _ _ _) _) fun _ _ => ?_
  refine ends_ite (fun _ => ?_) (fun _ => ?_)
  · refine ends_bind (ends_recover (ends_map huri)) fun _ _ => ?_
    exact ends_exit (denied_deny _ _ _)
  · refine ends_bind (ends_mapExit huri fun _ => denied_deny _ _ _) fun parts _ => ?_
    refine ends_bind (ends_mapExit (safe_canonicalQuery parts.2) fun _ => denied_deny _ _ _)
      fun _ _ => ?_
    exact ends_ok _

theorem checkParameters_ends (C : Crypto) (st : State) (path : Bytes) (query : SigV4Query) :
    Ends VerifyResult.Denied (checkParameters C st path query) := by
  unfold checkParameters
  simp only [someOrDeny_eq, denyIf_eq]
  refine ends_bind (ends_ofOption (denied_deny _ _ _) _) fun _ _ => ?_
  refine ends_bind (ends_exitIf (denied_deny _ _ _) _) fun _ _ => ?_
  refine ends_bind (ends_ofOption (denied_deny _ _ _) _) fun _ _ => ?_
  refine ends_bind (ends_mapExit (safe_parseCredentialScope _) fun _ => denied_deny _ _ _)
    fun _ _ => ?_
  refine ends_bind (ends_exitIf (denied_deny _ _ _) _) fun _ _ => ?_
  refine ends_bind (ends_ofOption (denied_deny _ _ _) _) fun _ _ => ?_
  refine ends_bind (ends_exitIf (denied_deny _ _ _) _) fun _ _ => ?_
  refine ends_bind (ends_ofOption (denied_deny _ _ _) _) fun _ _ => ?_
  refine ends_bind (ends_recover (ends_map (safe_parseAmzDate _))) fun _ _ => ?_
  refine ends_bind (ends_ofOption (denied_deny _ _ _) _) fun _ _ => ?_
  refine ends_bind (ends_ofOption (denied_deny _ _ _) _) fun _ _ => ?_
  refine ends_bind (ends_ofOption (denied_deny _ _ _) _) fun _ _ => ?_
  refine ends_bind (ends_exitIf (denied_deny _ _ _) _) fun _ _ => ?_
  refine ends_bind (ends_exitIf (denied_deny _ _ _) _) fun _ _ => ?_
  exact ends_ok _

theorem checkPolicy_ends (C : Crypto) (st : State) (line : RequestLine) (params : Parameters) :
    Ends VerifyResult.Denied (checkPolicy C st line params) := by
  unfold checkPolicy
  rw [someOrDeny_eq]
  refine ends_bind (ends_ofOption (denied_deny _ _ _) _) fun cred _ => ?_
  refine ends_bind ?_ fun _ _ => ends_ok _
  unfold checkCredential
  refine ends_bind (ends_exitIf (denied_deny _ _ _) _) fun _ _ => ?_
  refine ends_bind (ends_exitIf (denied_deny _ _ _) _) fun _ _ => ?_
  exact ends_exitIf (denied_deny _ _ _) _

theorem checkWindow_ends (st : State) (line : RequestLine) (params : Parameters)
    (cred : CompiledCredential) (now : SystemTime) :
    Ends VerifyResult.Denied (checkWindow st line params cred now) := by
  unfold checkWindow
  rw [systemTimeEpochSeconds_eq, ok_bind]
  refine ends_bind (ends_exitIf (denied_deny _ _ _) _) fun _ _ => ?_
  exact ends_exitIf (denied_deny _ _ _) _

/-- **No check panics**, and a check that leaves early denies. -/
theorem checkRequest_ends (C : Crypto) (st : State) (method : Str) (rawUri : Bytes) (host : Str)
    (now : SystemTime) :
    Ends VerifyResult.Denied (checkRequest C st method rawUri host now) := by
  unfold checkRequest
  refine ends_bind (checkRequestLine_ends st method rawUri host) fun line _ => ?_
  refine ends_bind (checkParameters_ends C st line.rawPath line.query) fun params _ => ?_
  refine ends_bind (checkPolicy_ends C st line params) fun cred _ => ?_
  exact ends_bind (checkWindow_ends st line params cred now) fun _ _ => ends_ok _

/-! ## The answer -/

/-- The signature a request must carry, by the credential it names. -/
def expectedSignature (C : Crypto) (line : RequestLine) (params : Parameters)
    (cred : CompiledCredential) : Digest :=
  C.hmacSha256
    (deriveSigningKey C cred.secretSeed params.scope.date params.scope.region
      params.scope.service).val
    (Spec.stringToSign params.amzDate.bytes params.scope.scope.bytes
      (C.sha256 (Spec.canonicalRequest line.method.bytes (canonicalPath line.rawPath)
        line.canonicalQueryString line.host.bytes)))

/-- The signature a request carries: the bytes its hex digits stand for. -/
def carriedSignature (query : SigV4Query) : Option Bytes :=
  (query.single .signature).bind fun s => Hex.decode s.bytes

/-- The answer to a request that has passed every other check. -/
def signatureAnswer (C : Crypto) (line : RequestLine) (params : Parameters)
    (cred : CompiledCredential) : VerifyResult :=
  if carriedSignature line.query = some (expectedSignature C line params cred).val then
    { allowed := true, reason := .ok, path := line.rawPath, accessKey := some cred.accessKey,
      accessKeyHash := cred.accessKeyHash }
  else deny .signatureMismatch line.rawPath cred.accessKeyHash

/-- What a request is answered on a state. (No check panics, so the last branch is not
taken.) -/
def answer (C : Crypto) (st : State) (method : Str) (rawUri : Bytes) (host : Str)
    (now : SystemTime) : VerifyResult :=
  match checkRequest C st method rawUri host now with
  | .ok (line, params, cred) => signatureAnswer C line params cred
  | .exit denied => denied
  | .panic _ => deny .invalidUri [] .empty

/-- Every cache of a verifier is sound. -/
def Verifier.Sane (C : Crypto) (v : Verifier) : Prop :=
  ∀ accessKey c, v.state.credentials.lookup accessKey = some c → CacheOk C c

/-- Two states with one configuration: they differ in their caches at most. -/
structure SameConfig (s t : State) : Prop where
  settings : s.settings = t.settings
  supportedMethods : s.supportedMethods = t.supportedMethods
  find : ∀ accessKey, (s.credentials.lookup accessKey).map CompiledCredential.erase
    = (t.credentials.lookup accessKey).map CompiledCredential.erase

theorem SameConfig.refl (s : State) : SameConfig s s := ⟨rfl, rfl, fun _ => rfl⟩

theorem SameConfig.symm {s t : State} (h : SameConfig s t) : SameConfig t s :=
  ⟨h.settings.symm, h.supportedMethods.symm, fun k => (h.find k).symm⟩

theorem SameConfig.trans {s t u : State} (h : SameConfig s t) (h' : SameConfig t u) :
    SameConfig s u :=
  ⟨h.settings.trans h'.settings, h.supportedMethods.trans h'.supportedMethods,
    fun k => (h.find k).trans (h'.find k)⟩

/-- **The signature is checked without a panic**, and the answer does not depend on the
cache. -/
theorem checkSignature_eq {C : Crypto} {line : RequestLine} (params : Parameters)
    {cred : CompiledCredential} (h : CacheOk C cred)
    (hsig : (line.query.single .signature).isSome = true) :
    ∃ cred', checkSignature (ε := ε) C line params cred
          = ok (signatureAnswer C line params cred, cred')
        ∧ cred'.erase = cred.erase ∧ CacheOk C cred' := by
  obtain ⟨s, hs⟩ := Option.isSome_iff_exists.mp hsig
  have hs' : singleKnownQueryValue line.query.signature line.query.signatureCount = some s := hs
  obtain ⟨cred', hsign, herase, hok⟩ := sign_eq (ε := ε) h params.scope.date params.scope.region
    params.scope.service params.amzDate params.scope.scope
    (C.sha256 (Spec.canonicalRequest line.method.bytes (canonicalPath line.rawPath)
      line.canonicalQueryString line.host.bytes))
  have hkey : cred'.accessKey = cred.accessKey := by
    show cred'.erase.accessKey = cred.erase.accessKey
    rw [herase]
  have hhash : cred'.accessKeyHash = cred.accessKeyHash := by
    show cred'.erase.accessKeyHash = cred.erase.accessKeyHash
    rw [herase]
  change _ = ok (expectedSignature C line params cred, cred') at hsign
  refine ⟨cred', ?_, herase, hok⟩
  unfold checkSignature
  rw [canonicalUriFromValidPath_eq, ok_bind, hashCanonicalRequest_eq]
  dsimp only
  rw [hsign, ok_bind]
  dsimp only
  rw [hs', expect_some, ok_bind]
  unfold signatureAnswer carriedSignature
  rw [hs, Option.bind_some]
  rcases decodeSignature_eq s with ⟨d, hd, hdec⟩ | ⟨hno, hdec⟩
  · rw [hdec, map_ok, recover_ok, ok_bind, hd]
    dsimp only
    by_cases he : d = expectedSignature C line params cred
    · rw [if_neg (by simpa using he), if_pos (by rw [he]), hkey, hhash]
    · rw [if_pos (by simpa using he), if_neg, hhash]
      intro hc
      exact he (Subtype.ext (Option.some.inj hc))
  · rw [hdec, map_exit, recover_exit, ok_bind]
    dsimp only
    rw [if_neg (hno _), hhash]

/-! ## What the stages read -/

/-- Six values the second stage answers nothing to, and what it reads from them. -/
structure ReadsAs (st : State) (value : Known → Option Str) (params : Parameters) : Prop where
  algorithm : value .algorithm = some SigV4.algorithm
  credential : ∃ text, value .credential = some text ∧ parseCredentialScope text = ok params.scope
  service : params.scope.service = st.settings.supportedService
  terminal : params.scope.terminal = SigV4.terminal
  signedHeaders : value .signedHeaders = some (.lit "host")
  date : value .date = some params.amzDate
  parsedDate : parseAmzDate params.amzDate = ok params.parsedDate
  day : params.parsedDate.date = params.scope.date
  expires : ∃ text, value .expires = some text ∧ parseU64 text = some params.expiresSeconds
  expires_ne : params.expiresSeconds ≠ 0
  expires_le : params.expiresSeconds ≤ maxSigv4ExpiresSecs
  signature : ∃ text, value .signature = some text

/-- The date, parsed, where it is on the day of the scope. -/
theorem parsedDate_eq_some {amzDate date : Str} {o : Option ParsedAmzDate} {parsed : ParsedAmzDate}
    (h : (some <$> parseAmzDate amzDate).recover (δ := VerifyResult) (fun _ => none) = ok o) :
    o.filter (·.date == date) = some parsed
      ↔ parseAmzDate amzDate = ok parsed ∧ parsed.date = date := by
  rw [Option.filter_eq_some_iff, beq_iff_eq]
  refine and_congr_left fun _ => ?_
  rcases parseAmzDate_eq amzDate with ⟨_, hp⟩ | ⟨_, hp⟩
  · rw [hp, map_ok, recover_ok] at h
    rw [hp, ← Outcome.ok.inj h, Option.some.injEq, Outcome.ok.injEq]
  · rw [hp, map_exit, recover_exit] at h
    rw [hp, ← Outcome.ok.inj h]
    simp

/-- **The second stage** reads the six values and nothing else of the query. -/
theorem checkParameters_eq_ok {C : Crypto} {st : State} {path : Bytes} {query : SigV4Query}
    {params : Parameters} : checkParameters C st path query = ok params
      ↔ ReadsAs st query.single params := by
  unfold checkParameters
  simp only [someOrDeny_eq, denyIf_eq]
  refine ⟨?_, ?_⟩
  · intro h
    obtain ⟨alg, halg, h⟩ := bind_eq_ok.mp h
    obtain ⟨_, halg', h⟩ := bind_eq_ok.mp h
    obtain ⟨credential, hcred, h⟩ := bind_eq_ok.mp h
    obtain ⟨scope, hscope, h⟩ := bind_eq_ok.mp h
    obtain ⟨_, hservice, h⟩ := bind_eq_ok.mp h
    obtain ⟨headers, hheaders, h⟩ := bind_eq_ok.mp h
    obtain ⟨_, hheaders', h⟩ := bind_eq_ok.mp h
    obtain ⟨amzDate, hdate, h⟩ := bind_eq_ok.mp h
    obtain ⟨o, ho, h⟩ := bind_eq_ok.mp h
    obtain ⟨parsed, hparsed, h⟩ := bind_eq_ok.mp h
    obtain ⟨expires, hexp, h⟩ := bind_eq_ok.mp h
    obtain ⟨n, hn, h⟩ := bind_eq_ok.mp h
    obtain ⟨_, hrange, h⟩ := bind_eq_ok.mp h
    obtain ⟨_, hsig, h⟩ := bind_eq_ok.mp h
    have halg' := exitIf_eq_ok.mp halg'
    have hservice := exitIf_eq_ok.mp hservice
    have hheaders' := exitIf_eq_ok.mp hheaders'
    have hrange := exitIf_eq_ok.mp hrange
    have hsig := exitIf_eq_ok.mp hsig
    simp only [Bool.or_eq_false_iff, bne_eq_false_iff_eq] at halg' hservice hheaders'
    rw [Bool.or_eq_false_iff, decide_eq_false_iff_not, UInt64.not_lt] at hrange
    have hscope : parseCredentialScope credential = ok scope := by
      rcases parseCredentialScope_eq credential with ⟨_, hp, _⟩ | ⟨_, hp⟩
      · rw [hp, mapExit_ok] at hscope
        rw [hp, Outcome.ok.inj hscope]
      · rw [hp, mapExit_exit] at hscope
        exact absurd hscope (by simp)
    obtain ⟨hparsed, hday⟩ := (parsedDate_eq_some ho).mp (ofOption_eq_ok.mp hparsed)
    rw [← Outcome.ok.inj h]
    exact {
      algorithm := by rw [← halg']; exact ofOption_eq_ok.mp halg
      credential := ⟨credential, ofOption_eq_ok.mp hcred, hscope⟩
      service := hservice.1
      terminal := hservice.2
      signedHeaders := by rw [← hheaders']; exact ofOption_eq_ok.mp hheaders
      date := ofOption_eq_ok.mp hdate
      parsedDate := hparsed
      day := hday
      expires := ⟨expires, ofOption_eq_ok.mp hexp, ofOption_eq_ok.mp hn⟩
      expires_ne := by simpa using hrange.1
      expires_le := hrange.2
      signature := Option.isSome_iff_exists.mp (Option.isNone_eq_false_iff.mp hsig) }
  · intro h
    obtain ⟨credential, hcred, hscope⟩ := h.credential
    obtain ⟨expires, hexp, hn⟩ := h.expires
    obtain ⟨signature, hsig⟩ := h.signature
    have halg := h.algorithm
    have hheaders := h.signedHeaders
    have hdate := h.date
    simp only [SigV4Query.single] at halg hcred hheaders hdate hexp hsig
    have hservice : (params.scope.service != st.settings.supportedService
        || params.scope.terminal != terminal) = false := by
      rw [h.service, h.terminal]
      simp
    have hrange : (params.expiresSeconds == 0
        || decide (params.expiresSeconds > maxSigv4ExpiresSecs)) = false := by
      rw [Bool.or_eq_false_iff, decide_eq_false_iff_not, UInt64.not_lt]
      exact ⟨by simpa using h.expires_ne, h.expires_le⟩
    have hparsed : (some <$> parseAmzDate params.amzDate).recover (δ := VerifyResult)
        (fun _ => none) = ok (some params.parsedDate) := by
      rw [h.parsedDate, map_ok, recover_ok]
    have hday := (parsedDate_eq_some hparsed).mpr ⟨h.parsedDate, h.day⟩
    rw [halg, ofOption_some, ok_bind, bne_self_eq_false, exitIf_false, ok_bind, hcred,
      ofOption_some, ok_bind, hscope, mapExit_ok, ok_bind, hservice, exitIf_false, ok_bind,
      hheaders, ofOption_some, ok_bind, bne_self_eq_false, exitIf_false, ok_bind, hdate,
      ofOption_some, ok_bind, hparsed, ok_bind, hday, ofOption_some, ok_bind, hexp, ofOption_some,
      ok_bind, hn, ofOption_some, ok_bind, hrange, exitIf_false, ok_bind, hsig]
    rfl

/-- A request that passes the checks carries a signature. -/
theorem signature_of_checkParameters {C : Crypto} {st : State} {path : Bytes}
    {query : SigV4Query} {params : Parameters} (h : checkParameters C st path query = ok params) :
    (query.single .signature).isSome = true :=
  Option.isSome_iff_exists.mpr (checkParameters_eq_ok.mp h).signature

theorem checkPolicy_eq_ok {C : Crypto} {st : State} {line : RequestLine} {params : Parameters}
    {cred : CompiledCredential} : checkPolicy C st line params = ok cred
      ↔ st.credentials.lookup params.scope.accessKey = some cred
        ∧ checkCredential line params cred = ok () := by
  unfold checkPolicy
  rw [someOrDeny_eq]
  refine ⟨?_, ?_⟩
  · intro h
    obtain ⟨c, hc, h⟩ := bind_eq_ok.mp h
    obtain ⟨_, hcheck, h⟩ := bind_eq_ok.mp h
    rw [← Outcome.ok.inj h]
    exact ⟨ofOption_eq_ok.mp hc, hcheck⟩
  · intro hcase
    obtain ⟨hl, hcheck⟩ := hcase
    rw [hl, ofOption_some, ok_bind, hcheck, ok_bind]

/-- The three stages behind a request that passes every check. -/
theorem checkRequest_eq_ok {C : Crypto} {st : State} {method : Str} {rawUri : Bytes} {host : Str}
    {now : SystemTime} {line : RequestLine} {params : Parameters} {cred : CompiledCredential} :
    checkRequest C st method rawUri host now = ok (line, params, cred)
      ↔ checkRequestLine st method rawUri host = ok line
        ∧ checkParameters C st line.rawPath line.query = ok params
        ∧ st.credentials.lookup params.scope.accessKey = some cred
        ∧ checkCredential line params cred = ok ()
        ∧ checkWindow st line params cred now = ok () := by
  unfold checkRequest
  refine ⟨?_, ?_⟩
  · intro h
    obtain ⟨line', hline, h⟩ := bind_eq_ok.mp h
    obtain ⟨params', hparams, h⟩ := bind_eq_ok.mp h
    obtain ⟨cred', hpolicy, h⟩ := bind_eq_ok.mp h
    obtain ⟨_, hwindow, h⟩ := bind_eq_ok.mp h
    have h := Outcome.ok.inj h
    simp only [Prod.mk.injEq] at h
    obtain ⟨rfl, rfl, rfl⟩ := h
    obtain ⟨hlookup, hcheck⟩ := checkPolicy_eq_ok.mp hpolicy
    exact ⟨hline, hparams, hlookup, hcheck, hwindow⟩
  · intro hcase
    obtain ⟨hline, hparams, hlookup, hcheck, hwindow⟩ := hcase
    rw [hline, ok_bind, hparams, ok_bind, checkPolicy_eq_ok.mpr ⟨hlookup, hcheck⟩, ok_bind,
      hwindow, ok_bind]

/-! ## One call -/

theorem store_sameConfig {v : Verifier} {accessKey : Str} {c c' : CompiledCredential}
    (hl : v.state.credentials.lookup accessKey = some c) (he : c'.erase = c.erase) :
    SameConfig (v.store accessKey c').state v.state := by
  refine ⟨rfl, rfl, fun k => ?_⟩
  show ((v.state.credentials.insert accessKey c').lookup k).map _ = _
  by_cases hk : k = accessKey
  · subst hk
    rw [AList.lookup_insert, hl, Option.map_some, Option.map_some, he]
  · rw [AList.lookup_insert_ne hk]

theorem store_sane {C : Crypto} {v : Verifier} {accessKey : Str} {c' : CompiledCredential}
    (h : v.Sane C) (hc : CacheOk C c') : (v.store accessKey c').Sane C := by
  intro k c hlookup
  have hlookup : (v.state.credentials.insert accessKey c').lookup k = some c := hlookup
  by_cases hk : k = accessKey
  · subst hk
    rw [AList.lookup_insert] at hlookup
    rw [← Option.some.inj hlookup]
    exact hc
  · rw [AList.lookup_insert_ne hk] at hlookup
    exact h k c hlookup

/--
**`verify` gives the answer.** On a verifier whose caches are sound it ends without a
panic, with the answer of its state; the verifier after it has the same configuration
and sound caches.
-/
theorem verify_eq {C : Crypto} {v : Verifier} (h : v.Sane C) (method : Str) (rawUri : Bytes)
    (host : Str) (now : SystemTime) :
    ∃ v', v.verify C method rawUri host now = ok (answer C v.state method rawUri host now, v')
      ∧ SameConfig v'.state v.state ∧ v'.Sane C := by
  have hends := checkRequest_ends C v.state method rawUri host now
  unfold Verifier.verify answer
  cases hr : checkRequest C v.state method rawUri host now with
  | panic p =>
      rw [hr] at hends
      exact absurd hends id
  | exit denied => exact ⟨v, rfl, SameConfig.refl _, h⟩
  | ok checked =>
      obtain ⟨line, params, cred⟩ := checked
      obtain ⟨_, hparams, hlookup, _, _⟩ := checkRequest_eq_ok.mp hr
      have hcache := h _ _ hlookup
      obtain ⟨cred', hsig, herase, hok⟩ := checkSignature_eq (ε := Empty) params hcache
        (signature_of_checkParameters hparams)
      dsimp only
      rw [hsig, ok_bind]
      exact ⟨_, rfl, store_sameConfig hlookup herase, store_sane h hok⟩

/-! ## The answer depends on the configuration only -/

theorem checkRequestLine_congr {s t : State} (h : SameConfig s t) (method : Str) (rawUri : Bytes)
    (host : Str) : checkRequestLine s method rawUri host = checkRequestLine t method rawUri host := by
  unfold checkRequestLine
  rw [h.supportedMethods]

theorem checkParameters_congr {C : Crypto} {s t : State} (h : SameConfig s t) (path : Bytes)
    (query : SigV4Query) : checkParameters C s path query = checkParameters C t path query := by
  unfold checkParameters
  rw [h.settings]

/-- **States with one configuration answer alike.** -/
theorem answer_congr {C : Crypto} {s t : State} (h : SameConfig s t) (method : Str)
    (rawUri : Bytes) (host : Str) (now : SystemTime) :
    answer C s method rawUri host now = answer C t method rawUri host now := by
  unfold answer checkRequest
  rw [checkRequestLine_congr h]
  cases checkRequestLine t method rawUri host with
  | exit e => rfl
  | panic p => rfl
  | ok line =>
      rw [ok_bind, ok_bind, checkParameters_congr h]
      cases checkParameters C t line.rawPath line.query with
      | exit e => rfl
      | panic p => rfl
      | ok params =>
          rw [ok_bind, ok_bind]
          unfold checkPolicy
          rw [someOrDeny_eq, someOrDeny_eq]
          have hfind := h.find params.scope.accessKey
          cases hs : s.credentials.lookup params.scope.accessKey with
          | none =>
              cases ht : t.credentials.lookup params.scope.accessKey with
              | none => rfl
              | some c' => rw [hs, ht] at hfind; exact absurd hfind (by simp)
          | some c =>
              cases ht : t.credentials.lookup params.scope.accessKey with
              | none => rw [hs, ht] at hfind; exact absurd hfind (by simp)
              | some c' =>
                  -- no check reads the cache
                  rw [hs, ht, Option.map_some, Option.map_some] at hfind
                  have herase := Option.some.inj hfind
                  have hcheck : checkCredential line params c = checkCredential line params c' := by
                    show checkCredential line params c.erase = checkCredential line params c'.erase
                    rw [herase]
                  have hwindow : checkWindow s line params c now
                      = checkWindow t line params c' now := by
                    show checkWindow s line params c.erase now
                      = checkWindow t line params c'.erase now
                    rw [herase]
                    unfold checkWindow
                    rw [h.settings]
                  have hsig : signatureAnswer C line params c = signatureAnswer C line params c' := by
                    show signatureAnswer C line params c.erase
                      = signatureAnswer C line params c'.erase
                    rw [herase]
                  rw [ofOption_some, ofOption_some, ok_bind, ok_bind, hcheck]
                  cases checkCredential line params c' with
                  | exit e => rfl
                  | panic p => rfl
                  | ok u =>
                      rw [ok_bind, ok_bind, ok_bind, ok_bind, hwindow]
                      cases checkWindow t line params c' now with
                      | exit e => rfl
                      | panic p => rfl
                      | ok u' => exact hsig

/-! ## Running verifiers -/

/-- The verifiers there are: fresh ones, those that have answered a request, and those
that have been reloaded. -/
inductive Running (C : Crypto) : Settings → List Credential → Verifier → Prop where
  | fresh {settings : Settings} {credentials : List Credential} {v : Verifier} :
      Verifier.new C settings credentials = ok v → Running C settings credentials v
  | verified {settings : Settings} {credentials : List Credential} {v v' : Verifier}
      {method : Str} {rawUri : Bytes} {host : Str} {now : SystemTime} {result : VerifyResult} :
      Running C settings credentials v →
      v.verify C method rawUri host now = ok (result, v') → Running C settings credentials v'
  | reloaded {settings settings' : Settings} {credentials credentials' : List Credential}
      {v v' : Verifier} : Running C settings credentials v →
      v.reload C settings' credentials' = ok v' → Running C settings' credentials' v'

/-- A fresh verifier has empty caches. -/
theorem new_sane {C : Crypto} {settings : Settings} {credentials : List Credential} {v : Verifier}
    (h : Verifier.new C settings credentials = ok v) : v.Sane C := by
  intro accessKey c hlookup
  have hst := compileState_eq_ok (new_eq_ok.mp h)
  obtain ⟨credential, _, _, hc⟩ := (hst.installed.find accessKey c).mp hlookup
  exact (compileCredential_eq_ok hc).cacheOk

/-- **Every running verifier** has sound caches, and the configuration of the fresh
verifier it came from. -/
theorem running_inv {C : Crypto} {settings : Settings} {credentials : List Credential}
    {v : Verifier} (h : Running C settings credentials v) :
    v.Sane C ∧ ∃ v₀, Verifier.new C settings credentials = ok v₀ ∧ SameConfig v.state v₀.state := by
  induction h with
  | fresh h => exact ⟨new_sane h, _, h, SameConfig.refl _⟩
  | @verified settings credentials v v' method rawUri host now result _ hverify ih =>
      obtain ⟨hsane, v₀, hnew, hsame⟩ := ih
      obtain ⟨w, hw, hsame', hsane'⟩ := verify_eq hsane method rawUri host now
      rw [hw] at hverify
      obtain ⟨_, rfl⟩ := Prod.mk.inj (Outcome.ok.inj hverify)
      exact ⟨hsane', v₀, hnew, hsame'.trans hsame⟩
  | reloaded _ hreload _ =>
      rw [reload_eq_new] at hreload
      exact ⟨new_sane hreload, _, hreload, SameConfig.refl _⟩

end SigV4
