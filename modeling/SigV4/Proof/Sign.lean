import SigV4.Proof.Escape
import SigV4.Spec.Presign
import SigV4.Verifier.Sign

/-!
# Signing meets its specification, and the cache is invisible

The signing-key cache is sound when each entry holds the key that deriving again would
give. Every path through `signing_key` (a hit under the read lock, a hit under the
write lock, an insertion with eviction) returns that key and leaves a sound cache, so
what `sign` returns depends on the credential with its cache erased.
-/

namespace SigV4

open Outcome Ascii

variable {ε : Type}

/-! ## Messages -/

theorem hashCanonicalRequest_eq (C : Crypto) (method : Str) (path query : Bytes) (host : Str) :
    hashCanonicalRequest C method path query host
      = C.sha256 (Spec.canonicalRequest method.bytes path query host.bytes) := by
  have htail : bytes "\n\nhost\nUNSIGNED-PAYLOAD" = bytes "\n\nhost\n" ++ payloadHash.bytes := rfl
  have hhost : bytes "\nhost:" = lf :: bytes "host:" := rfl
  rw [Spec.canonicalRequest_eq, htail]
  unfold hashCanonicalRequest
  rw [hhost]
  refine congrArg C.sha256 ?_
  simp

theorem stringToSign_eq (amzDate scope : Str) (hash : Digest) :
    stringToSign (ε := ε) amzDate scope hash
      = ok (Spec.stringToSign amzDate.bytes scope.bytes hash) := by
  have halg : algorithm.bytes = bytes "AWS4-HMAC-SHA256" := rfl
  unfold stringToSign
  rw [appendHexLower_eq, Spec.stringToSign_eq_append, halg]
  refine congrArg ok ?_
  simp

/-- The seed of a secret derives the secret's signing key. -/
theorem deriveSigningKey_eq (C : Crypto) (secret : Bytes) (date region service : Str) :
    deriveSigningKey C (bytes "AWS4" ++ secret) date region service
      = Spec.signingKey C secret date.bytes region.bytes service.bytes := rfl

theorem push_ascii {s : Str} {b : UInt8} (h : b < 0x80) :
    (s.push (Char.ofNat b.toNat)).bytes = s.bytes ++ [b] := by
  have hall : ∀ b : UInt8, b < 0x80 → Utf8.encode [Char.ofNat b.toNat] = [b] := by decide +kernel
  unfold Str.push
  dsimp only
  rw [hall b h]

/-- **The access key hash** is total. -/
theorem hashAccessKey_eq (C : Crypto) (accessKey : Str) :
    hashAccessKey (ε := ε) C accessKey = ok (Spec.accessKeyHash C accessKey) := by
  unfold hashAccessKey Spec.accessKeyHash
  by_cases he : accessKey.bytes = []
  · rw [if_pos (Str.isEmpty_iff.mpr he), if_pos he]
  · rw [if_neg (fun h => he (Str.isEmpty_iff.mp h)), if_neg he]
    dsimp only
    have hlen := (C.sha256 accessKey.bytes).property
    rw [slice_of_le (Nat.zero_le _) (by rw [hlen]; omega), ok_bind, List.drop_zero]
    -- each pass appends the two digits of a byte
    have hfold : ∀ (v : Bytes) (out : Str), ∃ h : Str, h.bytes = out.bytes ++ Hex.encode v
        ∧ v.foldlM (fun (out : Str) (b : UInt8) => do
            let h ← hexLower (ε := ε) (b >>> 4)
            let l ← hexLower (b &&& 0x0F)
            ok ((out.push (Char.ofNat h.toNat)).push (Char.ofNat l.toNat))) out = ok h := by
      intro v
      induction v with
      | nil => exact fun out => ⟨out, by simp, rfl⟩
      | cons b v ih =>
          intro out
          have hh := Hex.digit_lt _ (Percent.shift_lt b)
          have hl := Hex.digit_lt _ (Percent.mask_lt b)
          obtain ⟨h, hb, hf⟩ := ih ((out.push (Char.ofNat (Hex.digit (b >>> 4)).toNat)).push
            (Char.ofNat (Hex.digit (b &&& 0x0F)).toNat))
          refine ⟨h, ?_, ?_⟩
          · rw [hb, push_ascii hl, push_ascii hh, Hex.encode_cons, List.append_assoc,
              List.append_assoc, ← List.append_assoc [_]]
            rfl
          · rw [List.foldlM_cons, hexLower_eq (Percent.shift_lt b), ok_bind,
              hexLower_eq (Percent.mask_lt b), ok_bind, ok_bind]
            exact hf
    obtain ⟨h, hb, hf⟩ := hfold ((C.sha256 accessKey.bytes).val.take (8 - 0)) (.lit "sha256:")
    exact hf.trans (congrArg ok (Str.ext hb))

/-! ## The cache -/

/-- Each entry holds the key of its own scope, and no writer has panicked. -/
structure CacheOk (C : Crypto) (cred : CompiledCredential) : Prop where
  /-- The lock is usable. -/
  sane : cred.signingCache.poisoned = false
  /-- Entries are what deriving again would give. -/
  keys : ∀ e ∈ cred.signingCache.value,
    e.key = deriveSigningKey C cred.secretSeed e.date e.region e.service
  /-- Eviction has run. -/
  bounded : cred.signingCache.value.length ≤ signingCacheCapacity

/-- The credential as it was compiled. -/
def CompiledCredential.erase (self : CompiledCredential) : CompiledCredential :=
  { self with signingCache := ⟨[], false⟩ }

theorem cacheOk_erase (C : Crypto) (cred : CompiledCredential) : CacheOk C cred.erase :=
  ⟨rfl, fun _ he => absurd he List.not_mem_nil, Nat.zero_le _⟩

/-- What an entry is the key for. -/
def SigningKeyCacheEntry.scope (entry : SigningKeyCacheEntry) : Str × Str × Str :=
  (entry.date, entry.region, entry.service)

/-- What the cache has keys for, from the front. -/
def CompiledCredential.scopes (self : CompiledCredential) : List (Str × Str × Str) :=
  self.signingCache.value.map SigningKeyCacheEntry.scope

theorem isFor_iff {e : SigningKeyCacheEntry} {date region service : Str} :
    e.isFor date region service = true ↔ e.scope = (date, region, service) := by
  unfold SigningKeyCacheEntry.isFor SigningKeyCacheEntry.scope
  simp [and_assoc]

/-- A hit is the key that deriving would give. -/
theorem key_of_isFor {C : Crypto} {cred : CompiledCredential} {e : SigningKeyCacheEntry}
    {date region service : Str} (h : CacheOk C cred) (he : e ∈ cred.signingCache.value)
    (hfor : e.isFor date region service = true) :
    e.key = deriveSigningKey C cred.secretSeed date region service := by
  obtain ⟨rfl, rfl, rfl⟩ := Prod.mk.inj (isFor_iff.mp hfor) |>.imp_right Prod.mk.inj
  exact h.keys e he

/-- The eviction loop keeps the front of the cache. -/
theorem evict_eq (cache : List SigningKeyCacheEntry) :
    evict (ε := ε) cache = ok (cache.take signingCacheCapacity) := by
  unfold evict
  refine loop_eq (f := fun cache => ok (cache.take signingCacheCapacity)) (μ := List.length)
    (I := fun _ => True) ?_ (cache.length + 1) cache trivial (Nat.lt_succ_self _)
  intro s _
  unfold evictBody
  by_cases h : s.length > signingCacheCapacity
  · rw [if_pos h]
    refine Or.inl ⟨s.dropLast, rfl, trivial, ?_, ?_⟩
    · rw [List.length_dropLast]
      omega
    · rw [List.dropLast_eq_take, List.take_take, Nat.min_eq_left (by omega)]
  · rw [if_neg h]
    refine Or.inr (Or.inl ⟨s, rfl, ?_⟩)
    rw [List.take_of_length_le (by omega)]

section

variable {C : Crypto} {cred : CompiledCredential} {date region service : Str}

theorem isFor_of_mem_scopes (h : (date, region, service) ∈ cred.scopes) :
    ∃ e ∈ cred.signingCache.value, e.isFor date region service = true := by
  obtain ⟨e, he, hscope⟩ := List.mem_map.mp h
  exact ⟨e, he, isFor_iff.mpr hscope⟩

theorem not_isFor_of_not_mem_scopes (h : (date, region, service) ∉ cred.scopes) :
    ∀ e ∈ cred.signingCache.value, ¬e.isFor date region service = true := by
  intro e he hfor
  exact h (List.mem_map.mpr ⟨e, he, isFor_iff.mp hfor⟩)

/-- **The lookup** finds the derived key of a scope that the cache has. -/
theorem cachedSigningKey_eq (h : CacheOk C cred) (date region service : Str) :
    cred.cachedSigningKey date region service
      = if (date, region, service) ∈ cred.scopes then
          some (deriveSigningKey C cred.secretSeed date region service)
        else none := by
  unfold CompiledCredential.cachedSigningKey
  rw [h.sane, if_neg Bool.false_ne_true]
  by_cases hm : (date, region, service) ∈ cred.scopes
  · obtain ⟨e, he, hfor⟩ := isFor_of_mem_scopes hm
    rw [if_pos hm]
    cases hfind : cred.signingCache.value.find? (·.isFor date region service) with
    | none => exact absurd hfor (List.find?_eq_none.mp hfind e he)
    | some e' =>
        have hfor' : e'.isFor date region service = true := by
          simpa using List.find?_some hfind
        rw [Option.map_some, key_of_isFor h (List.mem_of_find?_eq_some hfind) hfor']
  · rw [if_neg hm, List.find?_eq_none.mpr (not_isFor_of_not_mem_scopes hm), Option.map_none]

/-- **The section under the write lock** returns the derived key and leaves a sound cache: one
whose entries have been rearranged, or one with a new entry at its front. -/
theorem fillSigningKey_eq (h : CacheOk C cred) (date region service : Str) :
    ∃ cred', cred.fillSigningKey (ε := ε) C date region service
          = ok (deriveSigningKey C cred.secretSeed date region service, cred')
        ∧ cred'.erase = cred.erase ∧ CacheOk C cred'
        ∧ (((date, region, service) ∈ cred.scopes ∧ cred'.scopes.Perm cred.scopes)
          ∨ ((date, region, service) ∉ cred.scopes
            ∧ cred'.scopes = ((date, region, service) :: cred.scopes).take
                signingCacheCapacity)) := by
  unfold CompiledCredential.fillSigningKey
  rw [h.sane, if_neg Bool.false_ne_true]
  dsimp only
  cases hidx : cred.signingCache.value.findIdx? (·.isFor date region service) with
  | some position =>
      -- the entry appeared between the two locks: move it to the front
      obtain ⟨hlt, hfor, _⟩ := List.findIdx?_eq_some_iff_getElem.mp hidx
      have hget := List.getElem?_eq_getElem hlt
      have hmem := List.getElem_mem hlt
      have hperm : (cred.signingCache.value[position]
          :: cred.signingCache.value.eraseIdx position).Perm cred.signingCache.value :=
        List.getElem_cons_eraseIdx_perm hlt
      dsimp only
      rw [hget, expect_some, ok_bind, key_of_isFor h hmem hfor]
      refine ⟨_, rfl, rfl, ⟨rfl, ?_, ?_⟩, Or.inl ⟨?_, hperm.map _⟩⟩
      · intro e he
        exact h.keys e (hperm.mem_iff.mp he)
      · exact hperm.length_eq.trans_le h.bounded
      · exact List.mem_map.mpr ⟨_, hmem, isFor_iff.mp hfor⟩
  | none =>
      -- derive the key, and evict from the back
      have hno := List.findIdx?_eq_none_iff.mp hidx
      dsimp only
      rw [evict_eq, ok_bind]
      refine ⟨_, rfl, rfl, ⟨rfl, ?_, List.length_take_le _ _⟩, Or.inr ⟨?_, ?_⟩⟩
      · intro e he
        rcases List.mem_cons.mp (List.mem_of_mem_take he) with rfl | he
        · rfl
        · exact h.keys e he
      · intro hm
        obtain ⟨e, he, hfor⟩ := isFor_of_mem_scopes hm
        rw [hno e he] at hfor
        exact Bool.false_ne_true hfor
      · unfold CompiledCredential.scopes
        rw [List.map_take]
        rfl

/--
**The signing key does not depend on the cache.** Whatever the cache holds, the key is
the derived one, the cache stays sound, and nothing else of the credential changes. A scope
that the cache has leaves it as it is, and one that it has not goes to its front.
-/
theorem signingKey_eq (h : CacheOk C cred) (date region service : Str) :
    ∃ cred', cred.signingKey (ε := ε) C date region service
          = ok (deriveSigningKey C cred.secretSeed date region service, cred')
        ∧ cred'.erase = cred.erase ∧ CacheOk C cred'
        ∧ cred'.scopes = if (date, region, service) ∈ cred.scopes then cred.scopes
          else ((date, region, service) :: cred.scopes).take signingCacheCapacity := by
  unfold CompiledCredential.signingKey
  rw [cachedSigningKey_eq h]
  by_cases hm : (date, region, service) ∈ cred.scopes
  · rw [if_pos hm, if_pos hm]
    exact ⟨cred, rfl, rfl, h, rfl⟩
  · rw [if_neg hm, if_neg hm]
    obtain ⟨cred', hfill, herase, hok, hscopes⟩ := fillSigningKey_eq (ε := ε) h date region service
    exact ⟨cred', hfill, herase, hok, (hscopes.resolve_left fun hc => hm hc.1).2⟩

end

/-- **`sign` meets its specification**, and leaves a sound cache. -/
theorem sign_eq {C : Crypto} {cred : CompiledCredential} (h : CacheOk C cred)
    (date region service amzDate scope : Str) (hash : Digest) :
    ∃ cred', sign (ε := ε) C cred date region service amzDate scope hash
          = ok (C.hmacSha256 (deriveSigningKey C cred.secretSeed date region service).val
              (Spec.stringToSign amzDate.bytes scope.bytes hash), cred')
        ∧ cred'.erase = cred.erase ∧ CacheOk C cred' := by
  obtain ⟨cred', hk, he, hok, _⟩ := signingKey_eq (ε := ε) h date region service
  refine ⟨cred', ?_, he, hok⟩
  unfold sign
  rw [hk, ok_bind]
  dsimp only
  rw [stringToSign_eq, ok_bind]

end SigV4
