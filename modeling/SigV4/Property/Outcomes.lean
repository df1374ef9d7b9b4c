import SigV4.Property.Spelling
import SigV4.Spec.Grammar
import SigV4.Spec.Reference

/-!
# What an answer says

An answer is logged: its reason, its path and the hash of an access key. `Consistent` is
what these say of each other and of the request, whatever the stage that answers.
`LogsAlike` is what two answers share when their requests differ in a signature: what is
logged is computed before the signature is looked at.
-/

namespace SigV4

open Outcome Ascii Spec

variable {C : Crypto} {settings : Settings} {credentials : List Credential} {st : State}
  {method : Str} {rawUri : Bytes} {host : Str}

/-! ## One answer -/

/-- The hash is that of the access key in the one credential of the request. -/
def NamedHash (C : Crypto) (rawUri : Bytes) (hash : Str) : Prop :=
  ∃ path query ps text scope, splitOriginalUri rawUri = ok (path, query)
    ∧ pairs query = some ps ∧ values .credential ps = [text.bytes]
    ∧ parseCredentialScope text = ok scope
    ∧ hashAccessKey (ε := Empty) C scope.accessKey = ok hash

/-- The path of an answer. -/
structure LoggedPath (rawUri path : Bytes) : Prop where
  whole : path = [] ∨ path = uriPath rawUri
  printable : ∀ b ∈ path, 0x20 < b ∧ b ≠ del ∧ b ≠ question

/-- What an answer says fits together. -/
structure Consistent (C : Crypto) (rawUri : Bytes) (result : VerifyResult) : Prop where
  reason : result.allowed = true ↔ result.reason = .ok
  accessKey : result.reason = .ok ↔ result.accessKey.isSome = true
  path : LoggedPath rawUri result.path
  hash : result.accessKeyHash.bytes ≠ [] → NamedHash C rawUri result.accessKeyHash

theorem loggedPath_nil (rawUri : Bytes) : LoggedPath rawUri [] :=
  ⟨Or.inl rfl, fun _ hb => absurd hb List.not_mem_nil⟩

theorem loggedPath_of_validUri (h : ValidUri rawUri) : LoggedPath rawUri (uriPath rawUri) := by
  refine ⟨Or.inr rfl, fun b hb => ?_⟩
  obtain ⟨hlow, hdel⟩ := printable_of_pathToken h.path.tokens b hb
  refine ⟨hlow, hdel, ?_⟩
  intro hq
  subst hq
  exact not_mem_field question rawUri hb

/-- A denial before the credential is parsed names no key. -/
theorem consistent_deny {path : Bytes} (hpath : LoggedPath rawUri path) {reason : Reason}
    (hreason : reason ≠ .ok) {hash : Str} (hhash : hash.bytes ≠ [] → NamedHash C rawUri hash) :
    Consistent C rawUri (deny reason path hash) where
  reason := ⟨fun h => absurd h Bool.false_ne_true, fun h => absurd h hreason⟩
  accessKey := ⟨fun h => absurd h hreason, fun h => absurd h Bool.false_ne_true⟩
  path := hpath
  hash := hhash

theorem consistent_deny_empty {path : Bytes} (hpath : LoggedPath rawUri path) {reason : Reason}
    (hreason : reason ≠ .ok) : Consistent C rawUri (deny reason path .empty) :=
  consistent_deny hpath hreason fun h => absurd rfl h

/-- The first stage. -/
theorem checkRequestLine_consistent (C : Crypto) (st : State) (method : Str) (rawUri : Bytes)
    (host : Str) : Ends (Consistent C rawUri) (checkRequestLine st method rawUri host) := by
  classical
  rw [checkRequestLine_eq]
  refine ends_ite (fun _ => ?_) (fun _ => ends_ite (fun _ => ?_) (fun _ => ?_))
  · exact consistent_deny_empty (loggedPath_nil rawUri) Reason.noConfusion
  · refine consistent_deny_empty ?_ Reason.noConfusion
    split
    · rename_i huri
      exact loggedPath_of_validUri huri
    · exact loggedPath_nil rawUri
  · refine ends_ite (fun huri => ?_) (fun _ => ?_)
    · cases accepted (uriQuery rawUri) with
      | none => exact consistent_deny_empty (loggedPath_of_validUri huri) Reason.noConfusion
      | some ps => exact trivial
    · exact consistent_deny_empty (loggedPath_nil rawUri) Reason.noConfusion

/-- Once the credential is parsed, its access key is the one that is named. -/
theorem namedHash_of_line {ps : List Pair} (hline : LineOk st method rawUri host ps) {text : Str}
    (htext : (RequestLine.of method rawUri host ps).query.single .credential = some text)
    {scope : CredentialScope} (hscope : parseCredentialScope text = ok scope) :
    NamedHash C rawUri (Spec.accessKeyHash C scope.accessKey) := by
  obtain ⟨hpairs, hacc⟩ := accepted_eq_some.mp hline.accepted
  rw [RequestLine.of_single hacc] at htext
  exact ⟨_, _, ps, text, scope, splitOriginalUri_eq_ok.mpr ⟨hline.uri, rfl, rfl⟩, hpairs,
    single_eq_some.mp htext, hscope, hashAccessKey_eq C scope.accessKey⟩

/-- **The second stage**: every denial after the credential is parsed names its access key. -/
theorem checkParameters_consistent {ps : List Pair} (hline : LineOk st method rawUri host ps) :
    Ends (Consistent C rawUri)
      (checkParameters C st (uriPath rawUri) (RequestLine.of method rawUri host ps).query) := by
  have hpath := loggedPath_of_validUri hline.uri
  have hempty : ∀ {reason : Reason}, reason ≠ .ok →
      Consistent C rawUri (deny reason (uriPath rawUri) .empty) := consistent_deny_empty hpath
  unfold checkParameters
  simp only [someOrDeny_eq, denyIf_eq]
  refine ends_bind (ends_ofOption (hempty Reason.noConfusion) _) fun _ _ => ?_
  refine ends_bind (ends_exitIf (hempty Reason.noConfusion) _) fun _ _ => ?_
  refine ends_bind (ends_ofOption (hempty Reason.noConfusion) _) fun text htext => ?_
  refine ends_bind (ends_mapExit (safe_parseCredentialScope _) fun _ => hempty Reason.noConfusion)
    fun scope hscope => ?_
  -- from here on the hash is that of the access key
  have hnamed : NamedHash C rawUri (Spec.accessKeyHash C scope.accessKey) :=
    namedHash_of_line hline (ofOption_eq_ok.mp htext) (mapExit_eq_ok.mp hscope)
  have hdeny : ∀ {reason : Reason}, reason ≠ .ok → Consistent C rawUri
      (deny reason (uriPath rawUri) (Spec.accessKeyHash C scope.accessKey)) :=
    fun hreason => consistent_deny hpath hreason fun _ => hnamed
  refine ends_bind (ends_exitIf (hdeny Reason.noConfusion) _) fun _ _ => ?_
  refine ends_bind (ends_ofOption (hdeny Reason.noConfusion) _) fun _ _ => ?_
  refine ends_bind (ends_exitIf (hdeny Reason.noConfusion) _) fun _ _ => ?_
  refine ends_bind (ends_ofOption (hdeny Reason.noConfusion) _) fun _ _ => ?_
  refine ends_bind (ends_recover (ends_map (safe_parseAmzDate _))) fun _ _ => ?_
  refine ends_bind (ends_ofOption (hdeny Reason.noConfusion) _) fun _ _ => ?_
  refine ends_bind (ends_ofOption (hdeny Reason.noConfusion) _) fun _ _ => ?_
  refine ends_bind (ends_ofOption (hdeny Reason.noConfusion) _) fun _ _ => ?_
  refine ends_bind (ends_exitIf (hdeny Reason.noConfusion) _) fun _ _ => ?_
  refine ends_bind (ends_exitIf (hdeny Reason.noConfusion) _) fun _ _ => ?_
  exact ends_ok _

/-- The third and fourth stages log the hash that is kept with the credential. -/
theorem checkPolicy_consistent {line : RequestLine} {params : Parameters}
    (hpath : LoggedPath rawUri line.rawPath)
    (hunknown : NamedHash C rawUri (Spec.accessKeyHash C params.scope.accessKey))
    (hknown : ∀ c, st.credentials.lookup params.scope.accessKey = some c →
      NamedHash C rawUri c.accessKeyHash) :
    Ends (Consistent C rawUri) (checkPolicy C st line params) := by
  unfold checkPolicy
  rw [someOrDeny_eq]
  refine ends_bind (ends_ofOption (consistent_deny hpath Reason.noConfusion fun _ => hunknown) _)
    fun cred hcred => ?_
  have hdeny : ∀ {reason : Reason}, reason ≠ .ok →
      Consistent C rawUri (deny reason line.rawPath cred.accessKeyHash) :=
    fun hreason => consistent_deny hpath hreason fun _ => hknown cred (ofOption_eq_ok.mp hcred)
  refine ends_bind ?_ fun _ _ => ends_ok _
  unfold checkCredential
  refine ends_bind (ends_exitIf (hdeny Reason.noConfusion) _) fun _ _ => ?_
  refine ends_bind (ends_exitIf (hdeny Reason.noConfusion) _) fun _ _ => ?_
  exact ends_exitIf (hdeny Reason.noConfusion) _

theorem checkWindow_consistent {line : RequestLine} {cred : CompiledCredential}
    (hpath : LoggedPath rawUri line.rawPath) (hhash : NamedHash C rawUri cred.accessKeyHash)
    (params : Parameters) (now : SystemTime) :
    Ends (Consistent C rawUri) (checkWindow st line params cred now) := by
  have hdeny : ∀ {reason : Reason}, reason ≠ .ok →
      Consistent C rawUri (deny reason line.rawPath cred.accessKeyHash) :=
    fun hreason => consistent_deny hpath hreason fun _ => hhash
  unfold checkWindow
  rw [systemTimeEpochSeconds_eq, ok_bind]
  refine ends_bind (ends_exitIf (hdeny Reason.noConfusion) _) fun _ _ => ?_
  exact ends_exitIf (hdeny Reason.noConfusion) _

theorem signatureAnswer_consistent {line : RequestLine} {cred : CompiledCredential}
    (hpath : LoggedPath rawUri line.rawPath) (hhash : NamedHash C rawUri cred.accessKeyHash)
    (params : Parameters) : Consistent C rawUri (signatureAnswer C line params cred) := by
  unfold signatureAnswer
  split
  · exact ⟨⟨fun _ => rfl, fun _ => rfl⟩, ⟨fun _ => rfl, fun _ => rfl⟩, hpath, fun _ => hhash⟩
  · exact consistent_deny hpath Reason.noConfusion fun _ => hhash

/-- The hash kept with a credential is that of the key it is found under. -/
theorem accessKeyHash_of_lookup (hst : compileState C settings credentials = ok st)
    {accessKey : Str} {c : CompiledCredential} (hl : st.credentials.lookup accessKey = some c) :
    c.accessKeyHash = Spec.accessKeyHash C accessKey := by
  obtain ⟨credential, _, rfl, hcompile⟩ := ((compileState_eq_ok hst).installed.find _ _).mp hl
  have hc := compileCredential_eq_ok hcompile
  rw [hc.accessKeyHash, hc.accessKey]

/-- What is logged after the second stage. -/
theorem logged_of_parameters {line : RequestLine} {params : Parameters}
    (hline : checkRequestLine st method rawUri host = ok line)
    (hparams : checkParameters C st line.rawPath line.query = ok params) :
    LoggedPath rawUri line.rawPath
      ∧ NamedHash C rawUri (Spec.accessKeyHash C params.scope.accessKey) := by
  obtain ⟨ps, hok, rfl⟩ := checkRequestLine_eq_ok.mp hline
  obtain ⟨text, htext, hscope⟩ := (checkParameters_eq_ok.mp hparams).credential
  exact ⟨loggedPath_of_validUri hok.uri, namedHash_of_line hok htext hscope⟩

/-- **Every answer is consistent**, whichever stage gives it. -/
theorem answer_consistent (hst : compileState C settings credentials = ok st) (method : Str)
    (rawUri : Bytes) (host : Str) (now : SystemTime) :
    Consistent C rawUri (answer C st method rawUri host now) := by
  have hends : Ends (Consistent C rawUri) (checkRequest C st method rawUri host now) := by
    unfold checkRequest
    refine ends_bind (checkRequestLine_consistent C st method rawUri host) fun line hline => ?_
    have hparameters : Ends (Consistent C rawUri) (checkParameters C st line.rawPath line.query) := by
      obtain ⟨ps, hok, rfl⟩ := checkRequestLine_eq_ok.mp hline
      exact checkParameters_consistent hok
    refine ends_bind hparameters fun params hparams => ?_
    obtain ⟨hpath, hnamed⟩ := logged_of_parameters hline hparams
    refine ends_bind (checkPolicy_consistent hpath hnamed fun c hc => ?_) fun cred hcred => ?_
    · rw [accessKeyHash_of_lookup hst hc]
      exact hnamed
    · have hhash := accessKeyHash_of_lookup hst (checkPolicy_eq_ok.mp hcred).1
      exact ends_bind (checkWindow_consistent hpath (hhash ▸ hnamed) params now)
        fun _ _ => ends_ok _
  unfold answer
  cases hr : checkRequest C st method rawUri host now with
  | exit denied =>
      rw [hr] at hends
      exact hends
  | panic p =>
      rw [hr] at hends
      exact absurd hends id
  | ok checked =>
      obtain ⟨line, params, cred⟩ := checked
      obtain ⟨hline, hparams, hlookup, _⟩ := checkRequest_eq_ok.mp hr
      obtain ⟨hpath, hnamed⟩ := logged_of_parameters hline hparams
      exact signatureAnswer_consistent hpath (accessKeyHash_of_lookup hst hlookup ▸ hnamed) params

/-! ## Two answers -/

/-- What is logged is the same, but for the verdict on a signature. -/
structure LogsAlike (r r' : VerifyResult) : Prop where
  path : r.path = r'.path
  accessKeyHash : r.accessKeyHash = r'.accessKeyHash
  reason : r.reason = r'.reason
    ∨ (r.reason = .ok ∨ r.reason = .signatureMismatch)
      ∧ (r'.reason = .ok ∨ r'.reason = .signatureMismatch)

theorem LogsAlike.refl (r : VerifyResult) : LogsAlike r r := ⟨rfl, rfl, Or.inl rfl⟩

/-- The queries differ in the value of one `X-Amz-Signature` and in nothing else. -/
def DifferInSignature (q q' : Bytes) : Prop :=
  ∃ before after piece piece', pieces q = before ++ piece :: after
    ∧ pieces q' = before ++ piece' :: after ∧ pieceName piece = pieceName piece'
    ∧ Percent.decode (pieceName piece) = some Known.signature.name

/-- A piece of that name, and the pieces around it, as pairs. -/
theorem pairs_of_pieces {q piece : Bytes} {before after : List Bytes} {ps : List Pair}
    (hpieces : pieces q = before ++ piece :: after)
    (hname : Percent.decode (pieceName piece) = some Known.signature.name)
    (hps : pairs q = some ps) :
    ∃ l value r, ps = l ++ (Known.signature.name, value) :: r
      ∧ l.map some = before.map decodePiece ∧ r.map some = after.map decodePiece := by
  have hmap := pairs_eq_some_iff.mp hps
  rw [hpieces, List.map_append, List.map_cons] at hmap
  obtain ⟨l, rest, rfl, hl, hrest⟩ := List.map_eq_append_iff.mp hmap.symm
  obtain ⟨p, r, rfl, hp, hr⟩ := List.map_eq_cons_iff.mp hrest
  obtain ⟨hfst, _⟩ := decodePiece_eq_some.mp hp.symm
  rw [hname] at hfst
  exact ⟨l, p.2, r, by rw [Option.some.inj hfst], hl, hr⟩

/-- **Such queries stand for pairs** that differ in one value. -/
theorem pairs_of_differ {q q' : Bytes} {ps ps' : List Pair} (h : DifferInSignature q q')
    (hps : pairs q = some ps) (hps' : pairs q' = some ps') :
    ∃ l value value' r, ps = l ++ (Known.signature.name, value) :: r
      ∧ ps' = l ++ (Known.signature.name, value') :: r := by
  obtain ⟨before, after, piece, piece', hpieces, hpieces', hsame, hname⟩ := h
  obtain ⟨l, value, r, rfl, hl, hr⟩ := pairs_of_pieces hpieces hname hps
  obtain ⟨l', value', r', rfl, hl', hr'⟩ := pairs_of_pieces hpieces' (hsame ▸ hname) hps'
  have hinj := List.map_injective_iff.mpr (Option.some_injective Pair)
  obtain rfl : l' = l := hinj (hl'.trans hl.symm)
  obtain rfl : r' = r := hinj (hr'.trans hr.symm)
  exact ⟨l', value, value', r', rfl, rfl⟩

section Signature

variable (l r : List Pair) (value value' : Bytes)

theorem signed_signature :
    signed (l ++ (Known.signature.name, value) :: r) = signed l ++ signed r := by
  unfold signed
  rw [List.filter_append, List.filter_cons_of_neg (by simp)]

theorem canonicalString_signature :
    canonicalString (l ++ (Known.signature.name, value) :: r)
      = canonicalString (l ++ (Known.signature.name, value') :: r) := by
  unfold canonicalString sortedPairs
  rw [signed_signature, signed_signature]

theorem values_signature {k : Known} (hk : k ≠ .signature) :
    values k (l ++ (Known.signature.name, value) :: r)
      = values k (l ++ (Known.signature.name, value') :: r) := by
  rw [← values_signed hk, ← values_signed hk (l ++ (Known.signature.name, value') :: r),
    signed_signature, signed_signature]

theorem length_values_signature :
    (values .signature (l ++ (Known.signature.name, value) :: r)).length
      = (values .signature (l ++ (Known.signature.name, value') :: r)).length := by
  unfold values
  simp [List.filter_append]

end Signature

/-- A name is read when it is given once, whatever its value. -/
theorem single_isSome_iff {k : Known} {ps : List Pair} (h : Acceptable ps) :
    (single k ps).isSome = true ↔ (values k ps).length = 1 := by
  refine ⟨?_, ?_⟩
  · intro hsome
    obtain ⟨s, hs⟩ := Option.isSome_iff_exists.mp hsome
    rw [single_eq_some.mp hs]
    rfl
  · intro hlength
    obtain ⟨v, hv⟩ := List.length_eq_one_iff.mp hlength
    obtain ⟨s, _, hs⟩ := accepted_text h hv
    rw [hs]
    rfl

theorem signatureAnswer_logsAlike {line line' : RequestLine} (hpath : line.rawPath = line'.rawPath)
    (params : Parameters) (cred : CompiledCredential) :
    LogsAlike (signatureAnswer C line params cred) (signatureAnswer C line' params cred) := by
  have hlogged : ∀ line : RequestLine, (signatureAnswer C line params cred).path = line.rawPath
      ∧ (signatureAnswer C line params cred).accessKeyHash = cred.accessKeyHash
      ∧ ((signatureAnswer C line params cred).reason = .ok
        ∨ (signatureAnswer C line params cred).reason = .signatureMismatch) := by
    intro line
    unfold signatureAnswer
    split
    · exact ⟨rfl, rfl, Or.inl rfl⟩
    · exact ⟨rfl, rfl, Or.inr rfl⟩
  obtain ⟨h1, h2, h3⟩ := hlogged line
  obtain ⟨h1', h2', h3'⟩ := hlogged line'
  exact ⟨by rw [h1, h1', hpath], by rw [h2, h2'], Or.inr ⟨h3, h3'⟩⟩

/-- **Every stage before the last** answers alike; the last differs in its verdict only. -/
theorem answerLine_logsAlike {line : RequestLine} {query : SigV4Query}
    (h : ∀ k, k ≠ .signature → query.single k = line.query.single k)
    (hsig : (query.single .signature).isNone = (line.query.single .signature).isNone)
    (now : SystemTime) :
    LogsAlike (answerLine C st { line with query := query } now) (answerLine C st line now) := by
  have hparams : checkParameters C st line.rawPath query
      = checkParameters C st line.rawPath line.query := checkParameters_congr_values h hsig
  unfold answerLine
  dsimp only
  rw [hparams]
  cases checkParameters C st line.rawPath line.query with
  | exit denied => exact LogsAlike.refl _
  | panic p => exact LogsAlike.refl _
  | ok params =>
      -- neither the policy nor the window is asked of the query
      rw [ok_bind, ok_bind, show checkPolicy C st { line with query := query } params
        = checkPolicy C st line params from rfl]
      cases checkPolicy C st line params with
      | exit denied => exact LogsAlike.refl _
      | panic p => exact LogsAlike.refl _
      | ok cred =>
          rw [ok_bind, ok_bind, show checkWindow st { line with query := query } params cred now
            = checkWindow st line params cred now from rfl]
          cases checkWindow st line params cred now with
          | exit denied => exact LogsAlike.refl _
          | panic p => exact LogsAlike.refl _
          | ok _ =>
              exact @signatureAnswer_logsAlike C { line with query := query } line rfl params cred

/-- **Nothing of a signature is logged**, on a state. -/
theorem answer_logsAlike {u u' path q q' : Bytes} {ps ps' : List Pair}
    (hu : splitOriginalUri u = ok (path, q)) (hu' : splitOriginalUri u' = ok (path, q'))
    (hq : accepted q = some ps) (hq' : accepted q' = some ps') (hdiffer : DifferInSignature q q')
    (now : SystemTime) :
    LogsAlike (answer C st method u host now) (answer C st method u' host now) := by
  obtain ⟨huri, hpath, rfl⟩ := splitOriginalUri_eq_ok.mp hu
  obtain ⟨huri', hpath', rfl⟩ := splitOriginalUri_eq_ok.mp hu'
  have hline := @checkRequestLine_of_accepted st method u host ps huri hq
  have hline' := @checkRequestLine_of_accepted st method u' host ps' huri' hq'
  obtain ⟨hps, hacc⟩ := accepted_eq_some.mp hq
  obtain ⟨hps', hacc'⟩ := accepted_eq_some.mp hq'
  obtain ⟨l, value, value', r, rfl, rfl⟩ := pairs_of_differ hdiffer hps hps'
  rw [hpath] at hline
  rw [hpath'] at hline'
  by_cases hempty : ((normalMethod method).isEmpty || (normalHost host).isEmpty) = true
  · rw [if_pos hempty] at hline hline'
    unfold answer checkRequest
    rw [hline, hline']
    exact LogsAlike.refl _
  · rw [if_neg hempty] at hline hline'
    by_cases hs : normalMethod method ∉ st.supportedMethods
    · rw [if_pos hs] at hline hline'
      unfold answer checkRequest
      rw [hline, hline']
      exact LogsAlike.refl _
    · rw [if_neg hs] at hline hline'
      have hlines : RequestLine.of method u host (l ++ (Known.signature.name, value) :: r)
          = { RequestLine.of method u' host (l ++ (Known.signature.name, value') :: r) with
              query := .ofPairs (l ++ (Known.signature.name, value) :: r) } := by
        unfold RequestLine.of
        rw [hpath, hpath', canonicalString_signature l r value value']
      rw [answer_of_line hline, answer_of_line hline', hlines]
      refine answerLine_logsAlike (fun k hk => ?_) ?_ now
      · show (SigV4Query.ofPairs _).single k = (SigV4Query.ofPairs _).single k
        rw [ofPairs_single hacc, ofPairs_single hacc']
        unfold single
        rw [values_signature l r value value' hk]
      · show ((SigV4Query.ofPairs _).single .signature).isNone
          = ((SigV4Query.ofPairs _).single .signature).isNone
        rw [ofPairs_single hacc, ofPairs_single hacc', ← Option.not_isSome, ← Option.not_isSome]
        refine congrArg _ (Bool.eq_iff_iff.mpr ?_)
        rw [single_isSome_iff hacc, single_isSome_iff hacc',
          length_values_signature l r value value']

/--
**Outcomes are consistent and safe to log.** Whatever a verifier is asked, `allowed`,
`reason` and `access_key` agree, the path is empty or the printable one of the request, and a
hash is that of the access key the request names. Two requests that differ in the value of
one `X-Amz-Signature` log the same path and hash, and the same reason unless both have come
to the comparison of signatures.
-/
theorem outcome_consistent {v w : Verifier} (hv : Running C settings credentials v)
    (hw : Running C settings credentials w) (method host : Str) (now : SystemTime) :
    (∀ rawUri, ∃ result v', v.verify C method rawUri host now = ok (result, v')
        ∧ Consistent C rawUri result)
      ∧ ∀ u u' path q q' x x', splitOriginalUri u = ok (path, q) →
        splitOriginalUri u' = ok (path, q') → canonicalQuery q = ok x → canonicalQuery q' = ok x' →
        DifferInSignature q q' →
        ∃ result result' v' w', v.verify C method u host now = ok (result, v')
          ∧ w.verify C method u' host now = ok (result', w') ∧ LogsAlike result result' := by
  refine ⟨?_, ?_⟩
  · intro rawUri
    obtain ⟨result, v', hverify, _⟩ := verify_total hv method rawUri host now
    obtain ⟨st, hst, rfl⟩ := running_answer hv hverify
    exact ⟨_, v', hverify, answer_consistent hst method rawUri host now⟩
  · intro u u' path q q' x x' hu hu' hx hx' hdiffer
    obtain ⟨ps, hps⟩ := accepted_of_canonicalQuery_ok hx
    obtain ⟨ps', hps'⟩ := accepted_of_canonicalQuery_ok hx'
    obtain ⟨result, v', hverify, _⟩ := verify_total hv method u host now
    obtain ⟨result', w', hverify', _⟩ := verify_total hw method u' host now
    obtain ⟨st, hst, rfl⟩ := running_answer hv hverify
    obtain ⟨st', hst', rfl⟩ := running_answer hw hverify'
    obtain rfl := Outcome.ok.inj (hst.symm.trans hst')
    exact ⟨_, _, v', w', hverify, hverify', answer_logsAlike hu hu' hps hps' hdiffer now⟩

/-- The sample's URI with another signature. -/
def forgedUri : Bytes := bytes "/bucket/file.jpg?" ++ sampleQuery ++ bytes "&X-Amz-Signature=00"

theorem outcome_consistent_sample :
    ∃ result result' v' w',
      sampleVerifier.verify sampleCrypto sampleRequest.method sampleRequest.rawUri
          sampleRequest.host sampleRequest.now = ok (result, v')
        ∧ sampleVerifier.verify sampleCrypto sampleRequest.method forgedUri
          sampleRequest.host sampleRequest.now = ok (result', w')
        ∧ LogsAlike result result' := by
  have hu' : splitOriginalUri forgedUri = ok (bytes "/bucket/file.jpg", uriQuery forgedUri) := by
    set_option maxRecDepth 4096 in rfl
  have hps' : accepted (uriQuery forgedUri)
      = some (samplePairs.dropLast ++ [(Known.signature.name, bytes "00")]) := by rfl
  have hq := canonicalQuery_eq (uriQuery sampleRequest.rawUri)
  have hq' := canonicalQuery_eq (uriQuery forgedUri)
  rw [sample_accepted] at hq
  rw [hps'] at hq'
  have hdiffer : DifferInSignature (uriQuery sampleRequest.rawUri) (uriQuery forgedUri) := by
    refine ⟨pieces sampleQuery, [], bytes "X-Amz-Signature=" ++ Hex.encode sampleSignature.val,
      bytes "X-Amz-Signature=00", ?_, ?_, rfl, rfl⟩
    · set_option maxRecDepth 4096 in rfl
    · set_option maxRecDepth 4096 in rfl
  exact (outcome_consistent sample_running sample_running sampleRequest.method sampleRequest.host
    sampleRequest.now).2 _ _ _ _ _ _ _ sample_uri hu' hq hq' hdiffer

end SigV4
