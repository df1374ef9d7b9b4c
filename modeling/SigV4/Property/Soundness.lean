import SigV4.Proof.Answer

/-!
# `verify` is sound and total

What is claimed of `verify` on one request: it always answers, and what it allows is
authorised. Both hold of every verifier there is, for any two functions in the place of
SHA-256 and HMAC-SHA256.
-/

namespace SigV4

open Outcome Ascii Spec

variable {C : Crypto} {settings : Settings} {credentials : List Credential} {v v' : Verifier}

/-! ## A signed request

The digests are those of SHA-256 and HMAC-SHA256 on the messages the request needs.
-/

/-- The bytes of hexadecimal text, as a digest. -/
def digestOfHex (s : String) : Digest :=
  match Hex.decode (bytes s) with
  | some d => if h : d.length = 32 then ⟨d, h⟩ else Digest.zero
  | none => Digest.zero

/-- Two functions given by their tables. -/
def Crypto.ofTables (sha256 : List (Bytes × Digest)) (hmacSha256 : List ((Bytes × Bytes) × Digest)) :
    Crypto where
  sha256 message := (sha256.lookup message).getD Digest.zero
  hmacSha256 key message := (hmacSha256.lookup (key, message)).getD Digest.zero

def sampleHash : Digest :=
  digestOfHex "317804dc61ea5d3b8a391936a6f38abde4634380f327401054e55029d562f885"

def sampleDateKey : Digest :=
  digestOfHex "b7523eb02bc1ca50cb416c0e1aebfe517b2d76ff95c334be2d8457eddbde8cad"

def sampleRegionKey : Digest :=
  digestOfHex "e84cbfdd61bef8dd8d43cab10721e430883a5ac577bb76a91fcb01cd9cac3bb6"

def sampleServiceKey : Digest :=
  digestOfHex "e630a65565d785aa8af5fcad0289966b3c342bf3052555cff8b5746f51485455"

def sampleSigningKey : Digest :=
  digestOfHex "49ba23913f1f02f78129a1ba0ead33bb9f2cad885f9b846263311cf50aa87fc3"

def sampleSignature : Digest :=
  digestOfHex "295fa2464242a48a604bbd2c57b98273fa50ae434e85ac3cd58daad22b700533"

/-- The parameters that are signed, encoded and in order. -/
def sampleQuery : Bytes :=
  bytes "X-Amz-Algorithm=AWS4-HMAC-SHA256"
    ++ bytes "&X-Amz-Credential=AKIATEST%2F20260102%2Fus-east-1%2Fs3%2Faws4_request"
    ++ bytes "&X-Amz-Date=20260102T030405Z&X-Amz-Expires=300&X-Amz-SignedHeaders=host"

def sampleCrypto : Crypto := .ofTables
  [(bytes "AKIATEST",
      digestOfHex "93a1c8281ff3c6ec561a66bf159ffb16020c057d92f00bd67ea829d592d2cf3c"),
    (canonicalRequest (bytes "GET") (bytes "/bucket/file.jpg") sampleQuery
      (bytes "minio.example.com"), sampleHash)]
  [((bytes "AWS4test-secret", bytes "20260102"), sampleDateKey),
    ((sampleDateKey.val, bytes "us-east-1"), sampleRegionKey),
    ((sampleRegionKey.val, bytes "s3"), sampleServiceKey),
    ((sampleServiceKey.val, bytes "aws4_request"), sampleSigningKey),
    ((sampleSigningKey.val, Spec.stringToSign (bytes "20260102T030405Z")
      (bytes "20260102/us-east-1/s3/aws4_request") sampleHash), sampleSignature)]

def sampleSettings : Settings where
  allowedClockSkew := .fromSecs 60
  defaultMaxExpires := .fromSecs 3600
  supportedMethods := [.lit "GET", .lit "HEAD"]
  supportedService := .lit "s3"

def sampleCredential : Credential where
  accessKey := .lit "AKIATEST"
  secretKey := .lit "test-secret"
  enabled := true
  maxExpires := .fromSecs 3600
  allowedHosts := [.lit "minio.example.com"]
  allowedMethods := [.lit "GET", .lit "HEAD"]
  allowedPrefixes := [bytes "/bucket/"]

def sampleRequest : Request where
  method := .lit "GET"
  rawUri := bytes "/bucket/file.jpg?" ++ sampleQuery ++ bytes "&X-Amz-Signature="
    ++ Hex.encode sampleSignature.val
  host := .lit "minio.example.com"
  now := ⟨1767323045, 0, by decide, (Duration.fromSecs 0).nanos_lt⟩

/-- The same request, spelled otherwise and a second later. -/
def respelledRequest : Request where
  method := .lit " get"
  rawUri := bytes "/bucket/file.jpg?X-Amz-Signature=" ++ Hex.encode sampleSignature.val
    ++ bytes "&X-Amz-SignedHeaders=host&%58-Amz-Expires=%33%300&X-Amz-Date=20260102T030405Z"
    ++ bytes "&X-Amz-Credential=AKIATEST/20260102/us-east-1/s3/aws4_request"
    ++ bytes "&X-Amz-Algorithm=AWS4-HMAC-SHA256"
  host := .lit "MinIO.example.com"
  now := ⟨1767323046, 5, by decide, by decide⟩

/-- What the sample query stands for. -/
def samplePairs : List Pair :=
  [(Known.algorithm.name, bytes "AWS4-HMAC-SHA256"),
    (Known.credential.name, bytes "AKIATEST/20260102/us-east-1/s3/aws4_request"),
    (Known.date.name, bytes "20260102T030405Z"), (Known.expires.name, bytes "300"),
    (Known.signedHeaders.name, bytes "host"),
    (Known.signature.name, Hex.encode sampleSignature.val)]

/-- A verifier of these settings and the sample credential, where they compile. -/
def sampleVerifierOf (settings : Settings) : Verifier :=
  match Verifier.new sampleCrypto settings [sampleCredential] with
  | .ok v => v
  | _ => ⟨⟨settings, ∅, ∅⟩⟩

theorem sampleVerifierOf_new {settings : Settings}
    (hok : (Verifier.new sampleCrypto settings [sampleCredential]).isOk = true) :
    Verifier.new sampleCrypto settings [sampleCredential] = ok (sampleVerifierOf settings) := by
  obtain ⟨v, hv⟩ := isOk_iff.mp hok
  unfold sampleVerifierOf
  rw [hv]

def sampleVerifier : Verifier := sampleVerifierOf sampleSettings

theorem sample_new :
    Verifier.new sampleCrypto sampleSettings [sampleCredential] = ok sampleVerifier :=
  sampleVerifierOf_new (by rfl)

theorem sample_running : Running sampleCrypto sampleSettings [sampleCredential] sampleVerifier :=
  .fresh sample_new

/-- What the two spellings of the request are cut into, and what their queries stand for. -/
theorem sample_uri : splitOriginalUri sampleRequest.rawUri
    = ok (bytes "/bucket/file.jpg", uriQuery sampleRequest.rawUri) := by
  decide +kernel

theorem respelled_uri : splitOriginalUri respelledRequest.rawUri
    = ok (bytes "/bucket/file.jpg", uriQuery respelledRequest.rawUri) := by
  decide +kernel

theorem sample_accepted : accepted (uriQuery sampleRequest.rawUri) = some samplePairs := by rfl

theorem respelled_accepted :
    accepted (uriQuery respelledRequest.rawUri) = some samplePairs.reverse := by
  decide +kernel

theorem sample_answer :
    (answer sampleCrypto sampleVerifier.state sampleRequest.method sampleRequest.rawUri
      sampleRequest.host sampleRequest.now).allowed = true := by
  decide +kernel

theorem sample_allowed :
    ∃ result v', sampleVerifier.verify sampleCrypto sampleRequest.method sampleRequest.rawUri
        sampleRequest.host sampleRequest.now = ok (result, v') ∧ result.allowed = true := by
  obtain ⟨v', hverify, _, _⟩ := verify_eq (new_sane sample_new) sampleRequest.method
    sampleRequest.rawUri sampleRequest.host sampleRequest.now
  exact ⟨_, v', hverify, sample_answer⟩

/--
**`verify` always answers.** No index, slice, `expect` or machine operation in it fails
and each of its loops ends; the verifier it leaves behind runs on.
-/
theorem verify_total (hv : Running C settings credentials v) (method : Str) (rawUri : Bytes)
    (host : Str) (now : SystemTime) :
    ∃ result v', v.verify C method rawUri host now = ok (result, v')
      ∧ Running C settings credentials v' := by
  obtain ⟨hsane, _⟩ := running_inv hv
  obtain ⟨v', hverify, _, _⟩ := verify_eq hsane method rawUri host now
  exact ⟨_, v', hverify, .verified hv hverify⟩

/-- The request ends in a half escape, and its date holds a character of three bytes. -/
theorem verify_total_malformed :
    ∃ result v', sampleVerifier.verify sampleCrypto (.lit "GET")
        (bytes "/bucket/?X-Amz-Date=2026010€T030405Z&X-Amz-Credential=A/€/%E2%8")
        (.lit "minio.example.com") ⟨-9223372036854775808, 1, by decide, by decide⟩
          = ok (result, v')
      ∧ Running sampleCrypto sampleSettings [sampleCredential] v' :=
  verify_total sample_running _ _ _ _

/-- The answer of a running verifier is that of the state its configuration compiles to. -/
theorem running_answer (hv : Running C settings credentials v) {method : Str} {rawUri : Bytes}
    {host : Str} {now : SystemTime} {result : VerifyResult}
    (h : v.verify C method rawUri host now = ok (result, v')) :
    ∃ st, compileState C settings credentials = ok st
      ∧ result = answer C st method rawUri host now := by
  obtain ⟨hsane, v₀, hnew, hsame⟩ := running_inv hv
  obtain ⟨w, hw, _, _⟩ := verify_eq hsane method rawUri host now
  rw [hw] at h
  obtain ⟨hr, _⟩ := Prod.mk.inj (Outcome.ok.inj h)
  exact ⟨v₀.state, new_eq_ok.mp hnew, by rw [← hr, answer_congr hsame]⟩

/--
**`verify` is sound.** What it allows is authorised by a configured credential, and the
answer names the path and that credential.
-/
theorem verify_sound (hv : Running C settings credentials v) {method : Str} {rawUri : Bytes}
    {host : Str} {now : SystemTime} {result : VerifyResult}
    (h : v.verify C method rawUri host now = ok (result, v')) (hallowed : result.allowed = true) :
    validateRawPath (uriPath rawUri) = ok ()
      ∧ ∃ ps credential f i n,
          AuthorisedBy C settings credentials ⟨method, rawUri, host, now⟩ ps credential f i n
            ∧ result = { allowed := true, reason := .ok, path := uriPath rawUri,
                         accessKey := some credential.accessKey.trim,
                         accessKeyHash := Spec.accessKeyHash C credential.accessKey.trim } := by
  obtain ⟨st, hst, rfl⟩ := running_answer hv h
  obtain ⟨ps, credential, f, i, n, hauth⟩ :=
    authorised_of_allowed (r := ⟨method, rawUri, host, now⟩) hst hallowed
  have hanswer := answer_of_authorisedBy hst hauth
  exact ⟨validateRawPath_eq_ok.mpr hauth.uri.path, ps, credential, f, i, n, hauth, hanswer⟩

/-- The sample request is allowed, so it is authorised. -/
theorem verify_sound_sample :
    Authorised sampleCrypto sampleSettings [sampleCredential] sampleRequest := by
  obtain ⟨result, v', hverify, hallowed⟩ := sample_allowed
  obtain ⟨_, ps, credential, f, i, n, hauth, _⟩ := verify_sound sample_running hverify hallowed
  exact ⟨ps, credential, f, i, n, hauth⟩

end SigV4
