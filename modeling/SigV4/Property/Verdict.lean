import SigV4.Proof.Verdict
import SigV4.Property.Soundness

/-!
# Verdicts, and what they depend on

`verify` gives the verdict of its specification, denials included. A verdict is read off the
checks, and all checks but those of the credential read nothing of the configuration but its
settings; so what a verdict depends on is a matter of the one credential the request names.
`Covers` compares what two configurations say of that credential, and carries over from one to
the other whatever the first lets pass (`passes_of_covers`).
-/

namespace SigV4

open Outcome Spec

variable {C : Crypto} {settings settings' : Settings} {credentials credentials' : List Credential}
  {v w : Verifier} {r : Request}

/--
**`verify` is its specification.** A running verifier answers with the verdict of its
configuration, whichever check it is that fails, and with nothing else.
-/
theorem verify_refines (hrun : Running C settings credentials v) (r : Request)
    (result : VerifyResult) :
    (∃ v', v.verify C r.method r.rawUri r.host r.now = ok (result, v'))
      ↔ Verdict C settings credentials r result := by
  obtain ⟨result', v', hverify, hverdict⟩ := exists_verdict hrun r
  refine ⟨?_, ?_⟩
  · rintro ⟨v'', h⟩
    obtain ⟨rfl, _⟩ := Prod.mk.inj (Outcome.ok.inj (h.symm.trans hverify))
    exact hverdict
  · intro h
    rw [h.unique hverdict]
    exact ⟨v', hverify⟩

theorem verify_refines_sample :
    ∃ result, Verdict sampleCrypto sampleSettings [sampleCredential] sampleRequest result
      ∧ result.allowed = true := by
  obtain ⟨result, v', hverify, hallowed⟩ := sample_allowed
  exact ⟨result, (verify_refines sample_running sampleRequest result).mp ⟨v', hverify⟩, hallowed⟩

/-! ## What carries over between configurations -/

/-- One credential admits whatever the other does, under the settings of each. -/
structure Wider (settings settings' : Settings) (c c' : Credential) : Prop where
  accessKey : c'.accessKey.trim = c.accessKey.trim
  enabled : c.enabled = true → c'.enabled = true
  policy : ∀ method host path, Allows c method host path → Allows c' method host path
  maxExpires : ∀ d, (maxExpires settings c).lt d = false → (maxExpires settings' c').lt d = false

/-- One configuration covers the other on a request: it serves no fewer methods, allows no less
skew, and for each credential that is named has one that admits no less. -/
structure Covers (r : Request) (settings settings' : Settings)
    (credentials credentials' : List Credential) : Prop where
  supported : ∀ method, Supported settings method → Supported settings' method
  skew : skewSeconds settings ≤ skewSeconds settings'
  named : ∀ c ∈ credentials, r.Names c → ∃ c' ∈ credentials', Wider settings settings' c c'

theorem Wider.refl (settings : Settings) (c : Credential) : Wider settings settings c c :=
  ⟨rfl, id, fun _ _ _ h => h, fun _ h => h⟩

theorem Wider.names {c c' : Credential} (h : Wider settings settings' c c') (hn : r.Names c) :
    r.Names c' := by
  obtain ⟨f, hf, hkey⟩ := hn
  exact ⟨f, hf, by rw [h.accessKey, hkey]⟩

theorem Covers.exists_named (h : Covers r settings settings' credentials credentials')
    {Q Q' : Credential → Prop} (hq : ∀ c c', Wider settings settings' c c' → Q c → Q' c')
    (hc : ∃ c ∈ credentials, r.Names c ∧ Q c) : ∃ c ∈ credentials', r.Names c ∧ Q' c := by
  obtain ⟨c, hmem, hnames, hQ⟩ := hc
  obtain ⟨c', hmem', hwider⟩ := h.named c hmem hnames
  exact ⟨c', hmem', hwider.names hnames, hq c c' hwider hQ⟩

/-- **What one configuration lets pass, one that covers it does**, as far as the signature. -/
theorem passes_of_covers (h : Covers r settings settings' credentials credentials') {c : Check}
    (hc : c ≠ .signature) (hp : c.Passes C settings credentials r) :
    c.Passes C settings' credentials' r := by
  cases c with
  | methodServed => exact h.supported _ hp
  | accessKey =>
      obtain ⟨c, hmem, hnames⟩ := hp
      obtain ⟨c', hmem', hwider⟩ := h.named c hmem hnames
      exact ⟨c', hmem', hwider.names hnames⟩
  | enabled => exact h.exists_named (fun _ _ hwider => hwider.enabled) hp
  | policy => exact h.exists_named (fun _ _ hwider => hwider.policy _ _ _) hp
  | maxExpires =>
      refine h.exists_named (fun c c' hwider hq => ?_) hp
      obtain ⟨n, hn, hlt⟩ := hq
      exact ⟨n, hn, hwider.maxExpires _ hlt⟩
  | notFuture =>
      obtain ⟨i, hi, hle⟩ := hp
      exact ⟨i, hi, Int.le_trans hle (Int.add_le_add_left h.skew _)⟩
  | signature => exact absurd rfl hc
  -- the other checks read the request alone
  | metadata | uri | query | algorithmGiven | algorithm | credentialGiven | scope | service
  | signedHeadersGiven | signedHeaders | dateGiven | day | expiresGiven | expiresNumber
  | expiresRange | signatureGiven | notExpired => exact hp

/-- **A verdict depends on its checks alone.** -/
theorem verdict_congr {result : VerifyResult}
    (h : ∀ c : Check, c.Passes C settings credentials r ↔ c.Passes C settings' credentials' r)
    (hv : Verdict C settings credentials r result) :
    Verdict C settings' credentials' r result := by
  cases hv with
  | granted hall hg => exact .granted (fun c hc => (h c).mp (hall c hc)) hg
  | denied hc hd => exact .denied ((firstFailure_congr fun a _ => h a).mp hc) hd

/-! ## Other credentials -/

/-- The configurations hold the same of the credentials that the request names. -/
def AgreeOn (r : Request) (credentials credentials' : List Credential) : Prop :=
  ∀ c, r.Names c → (c ∈ credentials ↔ c ∈ credentials')

theorem AgreeOn.symm (h : AgreeOn r credentials credentials') :
    AgreeOn r credentials' credentials := fun c hc => (h c hc).symm

theorem AgreeOn.covers (h : AgreeOn r credentials credentials') (settings : Settings) :
    Covers r settings settings credentials credentials' where
  supported _ hm := hm
  skew := Int.le_refl _
  named c hmem hnames := ⟨c, (h c hnames).mp hmem, .refl settings c⟩

theorem AgreeOn.passes (h : AgreeOn r credentials credentials') (c : Check)
    (hp : c.Passes C settings credentials r) : c.Passes C settings credentials' r := by
  by_cases hc : c = .signature
  · subst hc
    obtain ⟨c, hmem, hnames, hsigned⟩ := hp
    exact ⟨c, (h c hnames).mp hmem, hnames, hsigned⟩
  · exact passes_of_covers (h.covers settings) hc hp

/--
**Tenants are isolated.** The answer to a request depends on no credential but the one it names:
two verifiers with one set of settings that hold the same of that credential answer alike,
whatever their other credentials and in whichever order they were given.
-/
theorem verify_isolated (hv : Running C settings credentials v)
    (hw : Running C settings credentials' w) (h : AgreeOn r credentials credentials') :
    ∃ result v' w', v.verify C r.method r.rawUri r.host r.now = ok (result, v')
      ∧ w.verify C r.method r.rawUri r.host r.now = ok (result, w') := by
  obtain ⟨result, v', hverify, hverdict⟩ := exists_verdict hv r
  obtain ⟨result', w', hverify', hverdict'⟩ := exists_verdict hw r
  have hcarried := verdict_congr (fun c => ⟨h.passes c, h.symm.passes c⟩) hverdict
  rw [← hcarried.unique hverdict'] at hverify'
  exact ⟨result, v', w', hverify, hverify'⟩

/-- The sample request names the sample credential. -/
theorem sample_names : sampleRequest.Names sampleCredential := by
  obtain ⟨result, v', hverify, hverdict⟩ := exists_verdict sample_running sampleRequest
  obtain ⟨result', v'', hverify', hallowed⟩ := sample_allowed
  obtain ⟨rfl, _⟩ := Prod.mk.inj (Outcome.ok.inj (hverify'.symm.trans hverify))
  cases hverdict with
  | granted hall _ =>
      obtain ⟨c, hc, hnames⟩ := hall .accessKey (Check.mem_all _)
      rwa [← List.mem_singleton.mp hc]
  | denied _ hd => exact Bool.noConfusion (hallowed.symm.trans hd.denied)

/-- A second tenant. -/
def otherCredential : Credential :=
  { sampleCredential with accessKey := .lit "AKIAOTHER", secretKey := .lit "other" }

theorem verify_isolated_sample :
    ∃ w, Verifier.new sampleCrypto sampleSettings [otherCredential, sampleCredential] = ok w
      ∧ ∃ result v' w',
        sampleVerifier.verify sampleCrypto sampleRequest.method sampleRequest.rawUri
            sampleRequest.host sampleRequest.now = ok (result, v')
          ∧ w.verify sampleCrypto sampleRequest.method sampleRequest.rawUri sampleRequest.host
            sampleRequest.now = ok (result, w') := by
  have hok : (Verifier.new sampleCrypto sampleSettings [otherCredential, sampleCredential]).isOk
      = true := by rfl
  obtain ⟨w, hw⟩ := isOk_iff.mp hok
  refine ⟨w, hw, verify_isolated sample_running (.fresh hw) fun c hc => ?_⟩
  have hother : c ≠ otherCredential := by
    rintro rfl
    obtain ⟨f, hf, hkey⟩ := hc
    obtain ⟨g, hg, hkey'⟩ := sample_names
    rw [hf.unique hg, ← hkey'] at hkey
    exact absurd hkey (by decide)
  rw [List.mem_cons (b := otherCredential), or_iff_right hother]

/-! ## Secrets -/

/-- Two credentials that differ in their secrets at most. -/
def SameButSecret (c c' : Credential) : Prop := c' = { c with secretKey := c'.secretKey }

theorem SameButSecret.symm {c c' : Credential} (h : SameButSecret c c') : SameButSecret c' c := by
  unfold SameButSecret at h ⊢
  rw [h]

theorem SameButSecret.wider {c c' : Credential} (h : SameButSecret c c') (settings : Settings) :
    Wider settings settings c c' := by
  rw [h]
  exact ⟨rfl, id, fun _ _ _ ha => ⟨ha.method, ha.host, ha.path⟩, fun _ hd => hd⟩

theorem covers_of_sameButSecret (h : List.Forall₂ SameButSecret credentials credentials')
    (r : Request) (settings : Settings) :
    Covers r settings settings credentials credentials' where
  supported _ hm := hm
  skew := Int.le_refl _
  named := by
    intro c hc _
    induction h with
    | nil => exact absurd hc List.not_mem_nil
    | cons hsame _ ih =>
        rcases List.mem_cons.mp hc with rfl | hc
        · exact ⟨_, List.mem_cons_self, hsame.wider settings⟩
        · obtain ⟨c', hc', hwider⟩ := ih hc
          exact ⟨c', List.mem_cons_of_mem _ hc', hwider⟩

/-- One answer is that the signature matches, the other that it does not. -/
structure OnlyMatches (result result' : VerifyResult) : Prop where
  allowed : result.allowed = true
  reason : result.reason = .ok
  accessKey : result.accessKey.isSome = true
  allowed' : result'.allowed = false
  reason' : result'.reason = .signatureMismatch
  accessKey' : result'.accessKey = none

/-- Two answers that differ in what the signature decides at most. -/
structure AlikeButSignature (result result' : VerifyResult) : Prop where
  path : result.path = result'.path
  accessKeyHash : result.accessKeyHash = result'.accessKeyHash
  /-- Where they differ, one signature matches and the other does not. -/
  outcome : result = result' ∨ OnlyMatches result result' ∨ OnlyMatches result' result

theorem AlikeButSignature.refl (result : VerifyResult) : AlikeButSignature result result :=
  ⟨rfl, rfl, Or.inl rfl⟩

theorem AlikeButSignature.symm {result result' : VerifyResult}
    (h : AlikeButSignature result result') : AlikeButSignature result' result where
  path := h.path.symm
  accessKeyHash := h.accessKeyHash.symm
  outcome := by
    rcases h.outcome with rfl | hout | hout
    · exact Or.inl rfl
    · exact Or.inr (Or.inr hout)
    · exact Or.inr (Or.inl hout)

theorem signature_not_mem : Check.signature ∉ Check.beforeSignature := by decide

/-- Where all that comes before the signature passes, the answer is about the signature. -/
theorem grants_or_denies {result : VerifyResult}
    (hall : ∀ c ∈ Check.beforeSignature, c.Passes C settings credentials r)
    (h : Verdict C settings credentials r result) :
    Grants C r result ∨ Denies C r .signature result := by
  cases h with
  | granted _ hg => exact Or.inl hg
  | @denied c hc hd =>
      obtain rfl : c = .signature := by
        by_contra hne
        obtain ⟨pre, post, hl, _, hfail⟩ := hc
        refine hfail (hall c ?_)
        have hmem := Check.mem_all c
        unfold Check.all at hmem
        exact (List.mem_append.mp hmem).resolve_right fun hs => hne (List.mem_singleton.mp hs)
      exact Or.inr hd

/-- **A request that is granted** and one that its signature denies are told of alike. -/
theorem alike_of_grants {result result' : VerifyResult} (huri : ValidUri r.rawUri)
    (hg : Grants C r result) (hd : Denies C r .signature result') :
    AlikeButSignature result result' := by
  obtain ⟨f, key, hf, hkey, hsome, hhash⟩ := hg.accessKey
  refine ⟨?_, ?_, Or.inr (Or.inl ?_)⟩
  · rw [hg.path, hd.path]
    exact toldPath_of_valid Check.noConfusion huri
  · have hnamed : HashOfNamed C r result.accessKeyHash := ⟨f, key, hf, hkey, hhash⟩
    exact hnamed.unique hd.hash
  · exact ⟨hg.allowed, hg.reason, by rw [hsome]; rfl, hd.denied, hd.reason, hd.accessKey⟩

/-- **Two answers** to what no check before the signature tells apart: what grants the one or
denies it does so of the other. -/
theorem alike_of_passes {r r' : Request}
    (hpasses : ∀ c ∈ Check.beforeSignature,
      (c.Passes C settings credentials r ↔ c.Passes C settings credentials' r'))
    (hgrants : ∀ result, Grants C r result → Grants C r' result)
    (hdenies : ∀ c result, Denies C r c result → Denies C r' c result)
    {result result' : VerifyResult} (h : Verdict C settings credentials r result)
    (h' : Verdict C settings credentials' r' result') : AlikeButSignature result result' := by
  rcases all_or_firstFailure (Check.Passes C settings credentials r) Check.beforeSignature
    with hall | ⟨c, hc⟩
  · have hall' : ∀ c ∈ Check.beforeSignature, c.Passes C settings credentials' r' :=
      fun c hc => (hpasses c hc).mp (hall c hc)
    have huri : ValidUri r'.rawUri := hall' .uri (by decide)
    -- what is said of the first request can be said of the second
    have h₁ := (grants_or_denies hall h).imp (hgrants result) (hdenies .signature result)
    rcases h₁ with hg | hd <;> rcases grants_or_denies hall' h' with hg' | hd'
    · rw [hg.unique hg']
      exact .refl result'
    · exact alike_of_grants huri hg hd'
    · exact (alike_of_grants huri hg' hd).symm
    · rw [hd.unique hd']
      exact .refl result'
  · -- a check before the signature fails, and it is the same one
    have hc' := ((firstFailure_congr hpasses).mp hc).append_right [Check.signature]
    have hc := hc.append_right [Check.signature]
    have hsame : result = result' := by
      cases h with
      | granted hall _ => exact absurd hall hc.not_all
      | denied hd hdenied =>
          cases h' with
          | granted hall _ => exact absurd hall hc'.not_all
          | denied hd' hdenied' =>
              obtain rfl := hd.unique hc
              obtain rfl := hd'.unique hc'
              exact (hdenies _ _ hdenied).unique hdenied'
    rw [hsame]
    exact .refl result'

/--
**Secrets decide signatures and nothing else.** Two verifiers whose configurations differ in the
secrets of their credentials give one answer to every request, unless its signature matches with
the one and does not with the other: then the one allows the request and the other denies it for
its signature, and they tell of the same path and the same access key.
-/
theorem verify_secret_blind (hv : Running C settings credentials v)
    (hw : Running C settings credentials' w)
    (h : List.Forall₂ SameButSecret credentials credentials') (r : Request) :
    ∃ result result' v' w', v.verify C r.method r.rawUri r.host r.now = ok (result, v')
      ∧ w.verify C r.method r.rawUri r.host r.now = ok (result', w')
      ∧ AlikeButSignature result result' := by
  have h' : List.Forall₂ SameButSecret credentials' credentials :=
    (h.imp fun _ _ => SameButSecret.symm).flip
  have hpasses : ∀ c ∈ Check.beforeSignature, (c.Passes C settings credentials r
      ↔ c.Passes C settings credentials' r) := by
    intro c hc
    have hne : c ≠ .signature := fun he => signature_not_mem (he ▸ hc)
    exact ⟨passes_of_covers (covers_of_sameButSecret h r settings) hne,
      passes_of_covers (covers_of_sameButSecret h' r settings) hne⟩
  obtain ⟨result, v', hverify, hverdict⟩ := exists_verdict hv r
  obtain ⟨result', w', hverify', hverdict'⟩ := exists_verdict hw r
  exact ⟨result, result', v', w', hverify, hverify',
    alike_of_passes hpasses (fun _ => id) (fun _ _ => id) hverdict hverdict'⟩

theorem verify_secret_blind_sample :
    ∃ w result result' v' w',
      Verifier.new sampleCrypto sampleSettings
          [{ sampleCredential with secretKey := .lit "rotated-secret" }] = ok w
        ∧ sampleVerifier.verify sampleCrypto sampleRequest.method sampleRequest.rawUri
          sampleRequest.host sampleRequest.now = ok (result, v')
        ∧ w.verify sampleCrypto sampleRequest.method sampleRequest.rawUri sampleRequest.host
          sampleRequest.now = ok (result', w')
        ∧ AlikeButSignature result result' := by
  have hok : (Verifier.new sampleCrypto sampleSettings
      [{ sampleCredential with secretKey := .lit "rotated-secret" }]).isOk = true := by rfl
  obtain ⟨w, hw⟩ := isOk_iff.mp hok
  obtain ⟨result, result', v', w', h, h', halike⟩ :=
    verify_secret_blind sample_running (.fresh hw) (.cons rfl .nil) sampleRequest
  exact ⟨w, result, result', v', w', hw, h, h', halike⟩

/-! ## Wider policies -/

/-- A credential that names some of each, with more of them added, admits no less. -/
theorem allows_of_subset {c c' : Credential} (hmethods : c.allowedMethods ≠ [])
    (hhosts : ∃ h ∈ c.allowedHosts, (normalHost h).bytes ≠ [])
    (hprefixes : ∃ p ∈ c.allowedPrefixes, p ≠ [])
    (hm : c.allowedMethods ⊆ c'.allowedMethods) (hh : c.allowedHosts ⊆ c'.allowedHosts)
    (hp : c.allowedPrefixes ⊆ c'.allowedPrefixes) {method host : Str} {path : Bytes}
    (h : Allows c method host path) : Allows c' method host path where
  method := by
    obtain ⟨m, hmem, hmethod⟩ := h.method.resolve_left hmethods
    exact Or.inr ⟨m, hm hmem, hmethod⟩
  host := by
    obtain ⟨a, ha, hne⟩ := hhosts
    obtain ⟨b, hmem, hhost⟩ := h.host.resolve_left fun hall => hne (hall a ha)
    exact Or.inr ⟨b, hh hmem, hhost⟩
  path := by
    obtain ⟨a, ha, hne⟩ := hprefixes
    obtain ⟨b, hmem, hpath⟩ := h.path.resolve_left fun hall => hne (hall a ha)
    exact Or.inr ⟨b, hp hmem, hpath⟩

/--
**A wider policy allows no less.** If one configuration covers another on a request, and gives
the credential that is named the same secret, then it allows the request wherever the other
does, with the same answer: no credential that is added, no method, host or prefix that is
admitted and no skew or expiry that is granted takes leave away.
-/
theorem verify_monotone (hv : Running C settings credentials v)
    (hw : Running C settings' credentials' w)
    (h : Covers r settings settings' credentials credentials')
    (hsecret : ∀ c ∈ credentials, ∀ c' ∈ credentials', r.Names c → r.Names c' →
      c'.secretKey = c.secretKey)
    {result : VerifyResult} {v' : Verifier}
    (hverify : v.verify C r.method r.rawUri r.host r.now = ok (result, v'))
    (hallowed : result.allowed = true) :
    ∃ w', w.verify C r.method r.rawUri r.host r.now = ok (result, w') := by
  obtain ⟨result₁, v₁, hverify₁, hverdict⟩ := exists_verdict hv r
  obtain ⟨rfl, _⟩ := Prod.mk.inj (Outcome.ok.inj (hverify.symm.trans hverify₁))
  obtain ⟨result', w', hverify', hverdict'⟩ := exists_verdict hw r
  cases hverdict with
  | denied _ hd => exact Bool.noConfusion (hallowed.symm.trans hd.denied)
  | granted hall hg =>
      have hall' : ∀ c ∈ Check.all, c.Passes C settings' credentials' r := by
        intro c hc
        by_cases hne : c = .signature
        · subst hne
          obtain ⟨c, hmem, hnames, hsigned⟩ := hall _ hc
          obtain ⟨c', hmem', hwider⟩ := h.named c hmem hnames
          have hnames' := hwider.names hnames
          refine ⟨c', hmem', hnames', ?_⟩
          obtain ⟨ps, f, i, value, hps, hf, hi, hvalue, hdecode⟩ := hsigned
          rw [← hsecret c hmem c' hmem' hnames hnames'] at hdecode
          exact ⟨ps, f, i, value, hps, hf, hi, hvalue, hdecode⟩
        · exact passes_of_covers h hne (hall c hc)
      exact ⟨w', Verdict.unique (.granted hall' hg) hverdict' ▸ hverify'⟩

/-- The sample credential, with a host and a prefix added. -/
def widerCredential : Credential :=
  { sampleCredential with
    allowedHosts := sampleCredential.allowedHosts ++ [.lit "cdn.example.com"]
    allowedPrefixes := sampleCredential.allowedPrefixes ++ [bytes "/public/"] }

theorem widerCredential_covers (r : Request) :
    Covers r sampleSettings sampleSettings [sampleCredential] [widerCredential] where
  supported _ hm := hm
  skew := Int.le_refl _
  named := by
    intro c hc _
    rw [List.mem_singleton.mp hc]
    have hhost : ∃ h ∈ sampleCredential.allowedHosts, (normalHost h).bytes ≠ [] :=
      ⟨.lit "minio.example.com", List.mem_singleton.mpr rfl, by decide⟩
    have hprefix : ∃ p ∈ sampleCredential.allowedPrefixes, p ≠ [] :=
      ⟨bytes "/bucket/", List.mem_singleton.mpr rfl, by decide⟩
    have hmethods : sampleCredential.allowedMethods ⊆ widerCredential.allowedMethods :=
      List.Subset.refl _
    have hhosts : sampleCredential.allowedHosts ⊆ widerCredential.allowedHosts :=
      List.subset_append_left _ _
    have hprefixes : sampleCredential.allowedPrefixes ⊆ widerCredential.allowedPrefixes :=
      List.subset_append_left _ _
    exact ⟨widerCredential, List.mem_singleton.mpr rfl, rfl, id,
      fun _ _ _ => allows_of_subset (List.cons_ne_nil _ _) hhost hprefix hmethods hhosts hprefixes,
      fun _ hd => hd⟩

theorem verify_monotone_sample :
    ∃ w result w', Verifier.new sampleCrypto sampleSettings [widerCredential] = ok w
      ∧ w.verify sampleCrypto sampleRequest.method sampleRequest.rawUri sampleRequest.host
        sampleRequest.now = ok (result, w')
      ∧ result.allowed = true := by
  have hok : (Verifier.new sampleCrypto sampleSettings [widerCredential]).isOk = true := by rfl
  obtain ⟨w, hw⟩ := isOk_iff.mp hok
  obtain ⟨result, v', hverify, hallowed⟩ := sample_allowed
  obtain ⟨w', hverify'⟩ := verify_monotone sample_running (.fresh hw)
    (widerCredential_covers sampleRequest) (fun c hc c' hc' _ _ => by
      rw [List.mem_singleton.mp hc, List.mem_singleton.mp hc']
      rfl) hverify hallowed
  exact ⟨w, result, w', hw, hverify', hallowed⟩

end SigV4
