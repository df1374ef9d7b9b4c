import SigV4.Lib.Machine
import SigV4.Lib.Recency
import SigV4.Proof.Verdict
import SigV4.Property.Threads

/-!
# What puts a key in the cache

After any run of requests, the cache of a credential has the scopes of those requests that named
the credential and passed every check before the signature, first in first out. A request that
an earlier check denies leaves every cache as it is, and one with a wrong signature does not.
-/

namespace SigV4

open Outcome Spec Recency

variable {C : Crypto} {settings : Settings} {credentials : List Credential} {r : Request}

/-! ## The scopes that requests use -/

/-- The request comes as far as its signature, with this scope under this access key. -/
structure Spec.Request.Uses (C : Crypto) (settings : Settings) (credentials : List Credential)
    (r : Request) (accessKey : Str) (scope : Str × Str × Str) : Prop where
  passes : ∀ c ∈ Check.beforeSignature, c.Passes C settings credentials r
  names : ∃ f, r.Scoped f ∧ f.accessKey = accessKey.bytes ∧ f.date = scope.1.bytes
    ∧ f.region = scope.2.1.bytes ∧ f.service = scope.2.2.bytes

theorem Spec.Request.Uses.unique {accessKey accessKey' : Str} {scope scope' : Str × Str × Str}
    (h : r.Uses C settings credentials accessKey scope)
    (h' : r.Uses C settings credentials accessKey' scope') :
    accessKey = accessKey' ∧ scope = scope' := by
  obtain ⟨f, hf, hkey, hdate, hregion, hservice⟩ := h.names
  obtain ⟨g, hg, hkey', hdate', hregion', hservice'⟩ := h'.names
  obtain rfl := hf.unique hg
  refine ⟨Str.ext (hkey.symm.trans hkey'), Prod.ext ?_ (Prod.ext ?_ ?_)⟩
  · exact Str.ext (hdate.symm.trans hdate')
  · exact Str.ext (hregion.symm.trans hregion')
  · exact Str.ext (hservice.symm.trans hservice')

open Classical in
/-- The scope under an access key that a request uses, if it does. -/
noncomputable def usedScope (C : Crypto) (settings : Settings) (credentials : List Credential)
    (accessKey : Str) (r : Request) : Option (Str × Str × Str) :=
  if h : ∃ scope, r.Uses C settings credentials accessKey scope then some h.choose else none

theorem usedScope_eq_some {accessKey : Str} {scope : Str × Str × Str}
    (h : r.Uses C settings credentials accessKey scope) :
    usedScope C settings credentials accessKey r = some scope := by
  have hex : ∃ scope, r.Uses C settings credentials accessKey scope := ⟨scope, h⟩
  unfold usedScope
  rw [dif_pos hex, (hex.choose_spec.unique h).2]

theorem usedScope_eq_none {accessKey : Str}
    (h : ∀ scope, ¬r.Uses C settings credentials accessKey scope) :
    usedScope C settings credentials accessKey r = none := by
  unfold usedScope
  exact dif_neg fun hex => h _ hex.choose_spec

/-! ## One request -/

/-- What the checks find does not depend on the caches. -/
theorem checkRequest_congr {s t : State} (h : SameConfig s t) (method : Str) (rawUri : Bytes)
    (host : Str) (now : SystemTime) :
    (fun r => (r.1, r.2.1, r.2.2.erase)) <$> checkRequest C s method rawUri host now
      = (fun r => (r.1, r.2.1, r.2.2.erase)) <$> checkRequest C t method rawUri host now := by
  unfold checkRequest
  rw [checkRequestLine_congr h]
  cases checkRequestLine t method rawUri host with
  | exit e => rfl
  | panic p => rfl
  | ok line =>
      rw [ok_bind, ok_bind, checkParameters_congr h]
      cases checkParameters C t line.rawPath line.query with
      | exit e => rfl
      | panic p => rfl
      | ok params =>
          rw [ok_bind, ok_bind]
          unfold checkPolicy
          rw [someOrDeny_eq, someOrDeny_eq]
          have hfind := h.find params.scope.accessKey
          cases hs : s.credentials.lookup params.scope.accessKey with
          | none =>
              rw [hs, Option.map_none] at hfind
              rw [Option.map_eq_none_iff.mp hfind.symm]
              rfl
          | some c =>
              rw [hs, Option.map_some] at hfind
              obtain ⟨c', ht, herase⟩ := Option.map_eq_some_iff.mp hfind.symm
              have hcheck : checkCredential line params c = checkCredential line params c' := by
                show checkCredential line params c.erase = checkCredential line params c'.erase
                rw [herase]
              have hwindow : checkWindow s line params c now
                  = checkWindow t line params c' now := by
                show checkWindow s line params c.erase now
                  = checkWindow t line params c'.erase now
                rw [herase]
                unfold checkWindow
                rw [h.settings]
              rw [ht, ofOption_some, ofOption_some, ok_bind, ok_bind, hcheck]
              cases checkCredential line params c' with
              | exit e => rfl
              | panic p => rfl
              | ok u =>
                  rw [ok_bind, ok_bind, ok_bind, ok_bind, hwindow]
                  cases checkWindow t line params c' now with
                  | exit e => rfl
                  | panic p => rfl
                  | ok u' =>
                      rw [ok_bind, ok_bind, map_ok, map_ok, herase]

theorem checkRequest_follows_running {v v₀ : Verifier}
    (hnew : Verifier.new C settings credentials = ok v₀) (hsame : SameConfig v.state v₀.state)
    (r : Request) :
    Follows (Check.Passes C settings credentials r) (Denies C r) Check.beforeSignature
      (checkRequest C v.state r.method r.rawUri r.host r.now) := by
  have hfollows := checkRequest_follows (compileState_eq_ok (new_eq_ok.mp hnew)) r
  rw [← follows_map_iff (fun c => (c.1, c.2.1, c.2.2.erase)), ← checkRequest_congr hsame] at hfollows
  exact (follows_map_iff _).mp hfollows

/-- What a request that passes the checks uses: the scope of its parameters. -/
theorem uses_of_checked {v v₀ : Verifier} (hnew : Verifier.new C settings credentials = ok v₀)
    (hsame : SameConfig v.state v₀.state) {line : RequestLine} {params : Parameters}
    {cred : CompiledCredential}
    (h : checkRequest C v.state r.method r.rawUri r.host r.now = ok (line, params, cred)) :
    r.Uses C settings credentials params.scope.accessKey
      (params.scope.date, params.scope.region, params.scope.service) := by
  have hfollows := checkRequest_follows_running hnew hsame r
  rw [h] at hfollows
  obtain ⟨hline, hparams, _, _, _⟩ := checkRequest_eq_ok.mp h
  obtain ⟨ps, hok, rfl⟩ := checkRequestLine_eq_ok.mp hline
  obtain ⟨_, hunderstood⟩ := understood_of_checkParameters (accepted_eq_some.mp hok.accepted) hparams
  exact ⟨hfollows, _, hunderstood.scope, rfl, rfl, rfl, rfl⟩

/-! ## What a request does to the caches -/

/-- **The signature** puts the scope of its parameters into the cache. -/
theorem checkSignature_scopes {line : RequestLine} {params : Parameters}
    {cred cred' : CompiledCredential} {result : VerifyResult} (h : CacheOk C cred)
    (hsig : checkSignature (ε := Empty) C line params cred = ok (result, cred')) :
    cred'.scopes = insertFront signingCacheCapacity cred.scopes
      (params.scope.date, params.scope.region, params.scope.service) := by
  rw [checkSignature_cut ⟨line, params, line.hash C⟩ rfl] at hsig
  obtain ⟨cred₁, hkey, _, _, hscopes⟩ := signingKey_eq (ε := Empty) h params.scope.date
    params.scope.region params.scope.service
  rw [hkey, ok_bind] at hsig
  obtain ⟨_, _, hresult⟩ := bind_eq_ok.mp hsig
  rw [← (Prod.mk.inj (Outcome.ok.inj hresult)).2, hscopes]
  unfold insertFront
  by_cases hm : (params.scope.date, params.scope.region, params.scope.service) ∈ cred.scopes
  · rw [if_pos hm, if_pos hm]
  · rw [if_neg hm, if_neg hm]

/-- What holds of a verifier after the requests `rs`. -/
structure After (C : Crypto) (settings : Settings) (credentials : List Credential) (v₀ : Verifier)
    (rs : List Request) (v : Verifier) : Prop where
  sane : v.Sane C
  same : SameConfig v.state v₀.state
  scopes : ∀ accessKey cred, v.state.credentials.lookup accessKey = some cred →
    cred.scopes = fifo 32 (rs.filterMap (usedScope C settings credentials accessKey))

theorem after_new {v₀ : Verifier} (hnew : Verifier.new C settings credentials = ok v₀) :
    After C settings credentials v₀ [] v₀ := by
  refine ⟨new_sane hnew, SameConfig.refl _, fun accessKey cred hlookup => ?_⟩
  have hst := compileState_eq_ok (new_eq_ok.mp hnew)
  obtain ⟨credential, _, _, hcompile⟩ := (hst.installed.find accessKey cred).mp hlookup
  exact (compileCredential_eq_ok hcompile).scopes

theorem filterMap_snoc {α β : Type} (f : α → Option β) (l : List α) (a : α) :
    (l ++ [a]).filterMap f = l.filterMap f ++ (f a).toList := by
  rw [List.filterMap_append]
  cases h : f a with
  | none => rw [List.filterMap_cons_none h]; rfl
  | some b => rw [List.filterMap_cons_some h]; rfl

/-- **One request** changes the cache of the credential it uses a scope of, and no other. -/
theorem verify_after {v v₀ : Verifier} {rs : List Request}
    (hnew : Verifier.new C settings credentials = ok v₀) (r : Request)
    (h : After C settings credentials v₀ rs v) :
    ∃ result v', v.verify C r.method r.rawUri r.host r.now = ok (result, v')
      ∧ After C settings credentials v₀ (rs ++ [r]) v' := by
  obtain ⟨v', hverify, hsame', hsane'⟩ := verify_eq h.sane r.method r.rawUri r.host r.now
  refine ⟨_, v', hverify, hsane', hsame'.trans h.same, fun accessKey cred' hlookup => ?_⟩
  rw [filterMap_snoc]
  unfold Verifier.verify at hverify
  cases hr : checkRequest C v.state r.method r.rawUri r.host r.now with
  | panic p =>
      rw [hr] at hverify
      cases hverify
  | exit denied =>
      -- a check before the signature has failed
      rw [hr] at hverify
      obtain ⟨_, rfl⟩ := Prod.mk.inj (Outcome.ok.inj hverify)
      have hfollows := checkRequest_follows_running hnew h.same r
      rw [hr] at hfollows
      obtain ⟨c, hc, _⟩ := hfollows
      rw [usedScope_eq_none fun scope huses => hc.not_all huses.passes, Option.toList_none,
        List.append_nil]
      exact h.scopes accessKey cred' hlookup
  | ok checked =>
      obtain ⟨line, params, cred⟩ := checked
      rw [hr] at hverify
      obtain ⟨⟨result, cred₁⟩, hsig, hv⟩ := bind_eq_ok.mp hverify
      obtain ⟨_, rfl⟩ := Prod.mk.inj (Outcome.ok.inj hv)
      have hcred := (checkRequest_eq_ok.mp hr).2.2.1
      have huses := uses_of_checked hnew h.same hr
      have hlookup : (v.state.credentials.insert params.scope.accessKey cred₁).lookup accessKey
          = some cred' := hlookup
      by_cases hk : accessKey = params.scope.accessKey
      · subst hk
        rw [AList.lookup_insert] at hlookup
        rw [← Option.some.inj hlookup, checkSignature_scopes (h.sane _ _ hcred) hsig,
          h.scopes _ _ hcred, usedScope_eq_some huses, Option.toList_some, fifo_snoc]
        rfl
      · rw [AList.lookup_insert_ne hk] at hlookup
        have hnone : usedScope C settings credentials accessKey r = none :=
          usedScope_eq_none fun scope h' => hk (h'.unique huses).1
        rw [hnone, Option.toList_none, List.append_nil]
        exact h.scopes accessKey cred' hlookup

/-! ## Every run -/

/-- `verify`, with its arguments in one. -/
def Verifier.handle (C : Crypto) (self : Verifier) (r : Request) :
    Outcome Empty (VerifyResult × Verifier) :=
  self.verify C r.method r.rawUri r.host r.now

/--
**What puts a key in the cache.** After any run of requests on a fresh verifier, the cache of each
credential has the scopes of the requests that named it and passed every check before the
signature, first in first out and 32 at most. A request that an earlier check denies, or that
names another credential, leaves it as it is.
-/
theorem cache_history {v₀ : Verifier} (hnew : Verifier.new C settings credentials = ok v₀)
    (rs : List Request) :
    ∃ results v, runs (Verifier.handle C) v₀ rs = ok (results, v)
      ∧ ∀ accessKey cred, v.state.credentials.lookup accessKey = some cred →
        (cred.signingCache.value.map fun e => (e.date, e.region, e.service))
          = fifo 32 (rs.filterMap (usedScope C settings credentials accessKey)) := by
  obtain ⟨results, v, hruns, hafter⟩ := runs_inv (P := fun _ => True)
    (I := After C settings credentials v₀) (fun pre v r _ h => verify_after hnew r h) rs [] v₀
    (fun _ _ => trivial) (after_new hnew)
  exact ⟨results, v, hruns, hafter.scopes⟩

/-- The sample request, twice. -/
theorem cache_history_sample :
    ∃ results v, runs (Verifier.handle sampleCrypto) sampleVerifier [sampleRequest, sampleRequest]
        = ok (results, v)
      ∧ ∀ accessKey cred, v.state.credentials.lookup accessKey = some cred →
        (cred.signingCache.value.map fun e => (e.date, e.region, e.service))
          = fifo 32 ([sampleRequest, sampleRequest].filterMap
            (usedScope sampleCrypto sampleSettings [sampleCredential] accessKey)) :=
  cache_history sample_new [sampleRequest, sampleRequest]

end SigV4
