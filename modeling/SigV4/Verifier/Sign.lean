import SigV4.Verifier.Scope

/-!
# Signing

The canonical request, the string to sign, and the signing key with its cache.

`signing_key` is two critical sections: a lookup under the read lock, and on a miss
a section under the write lock that looks again, moves a hit to the front, or
derives the key and evicts from the back.
-/

namespace SigV4

open Outcome Ascii

variable {ε : Type}

/-! ## The canonical request -/

def hashCanonicalRequest (C : Crypto) (method : Str) (canonicalPath canonicalQueryString : Bytes)
    (canonicalHost : Str) : Digest :=
  C.sha256 (method.bytes ++ [lf] ++ canonicalPath ++ [lf] ++ canonicalQueryString
    ++ bytes "\nhost:" ++ canonicalHost.bytes ++ bytes "\n\nhost\n" ++ payloadHash.bytes)

/-- `hash_access_key`. -/
def hashAccessKey (C : Crypto) (accessKey : Str) : Outcome ε Str :=
  if accessKey.isEmpty then ok .empty
  else do
    let sum := C.sha256 accessKey.bytes
    let head ← slice sum.val 0 8
    head.foldlM (fun (out : Str) (b : UInt8) => do
      let h ← hexLower (b >>> 4)
      let l ← hexLower (b &&& 0x0F)
      ok ((out.push (Char.ofNat h.toNat)).push (Char.ofNat l.toNat))) (.lit "sha256:")

/-! ## The signing key -/

/-- `entry.date == date && entry.region == region && entry.service == service`. -/
def SigningKeyCacheEntry.isFor (entry : SigningKeyCacheEntry) (date region service : Str) : Bool :=
  entry.date == date && entry.region == region && entry.service == service

/-- The lookup under the read lock. A poisoned lock is a miss. -/
def CompiledCredential.cachedSigningKey (self : CompiledCredential) (date region service : Str) :
    Option Digest :=
  if self.signingCache.poisoned then none
  else (self.signingCache.value.find? (·.isFor date region service)).map (·.key)

/-- `HMAC(HMAC(HMAC(HMAC(seed, date), region), service), "aws4_request")`. -/
def deriveSigningKey (C : Crypto) (secretSeed : Bytes) (date region service : Str) : Digest :=
  let kDate := C.hmacSha256 secretSeed date.bytes
  let kRegion := C.hmacSha256 kDate.val region.bytes
  let kService := C.hmacSha256 kRegion.val service.bytes
  C.hmacSha256 kService.val terminal.bytes

/-- `while cache.len() > SIGNING_CACHE_CAPACITY { cache.pop_back(); }`. -/
def evictBody : List SigningKeyCacheEntry →
    Outcome ε (Pass (List SigningKeyCacheEntry) (List SigningKeyCacheEntry))
  | cache =>
    if cache.length > signingCacheCapacity then ok (.again cache.dropLast) else ok (.leave cache)

def evict (cache : List SigningKeyCacheEntry) : Outcome ε (List SigningKeyCacheEntry) :=
  loop evictBody (cache.length + 1) cache

/-- The section under the write lock: the key, and the credential with its cache. -/
def CompiledCredential.fillSigningKey (C : Crypto) (self : CompiledCredential)
    (date region service : Str) : Outcome ε (Digest × CompiledCredential) :=
  if self.signingCache.poisoned then panic .expect
  else
    let cache := self.signingCache.value
    match cache.findIdx? (·.isFor date region service) with
    | some position => do
        let cached ← expect cache[position]?
        let cache := cached :: cache.eraseIdx position
        ok (cached.key, { self with signingCache := ⟨cache, false⟩ })
    | none => do
        let key := deriveSigningKey C self.secretSeed date region service
        let cache ← evict ({ date, region, service, key } :: cache)
        ok (key, { self with signingCache := ⟨cache, false⟩ })

def CompiledCredential.signingKey (C : Crypto) (self : CompiledCredential)
    (date region service : Str) : Outcome ε (Digest × CompiledCredential) :=
  match self.cachedSigningKey date region service with
  | some key => ok (key, self)
  | none => self.fillSigningKey C date region service

/-- The bytes signed with the signing key. -/
def stringToSign (amzDate credentialScope : Str) (canonicalHash : Digest) :
    Outcome ε Bytes :=
  appendHexLower (algorithm.bytes ++ [lf] ++ amzDate.bytes ++ [lf] ++ credentialScope.bytes ++ [lf])
    canonicalHash.val

def sign (C : Crypto) (cred : CompiledCredential) (date region service amzDate credentialScope : Str)
    (canonicalHash : Digest) : Outcome ε (Digest × CompiledCredential) := do
  let (signingKey, cred) ← cred.signingKey C date region service
  let message ← stringToSign amzDate credentialScope canonicalHash
  ok (C.hmacSha256 signingKey.val message, cred)

end SigV4
