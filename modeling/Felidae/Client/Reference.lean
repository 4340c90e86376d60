import Felidae.Client.Observe
import Felidae.Reference

/-!
# A reference oracle

An oracle that is also the only admin, with a key pair, a web page to enroll and a node, and a host
that knows its two transactions: the config that founds the chain, and one observation. Digests and
signatures are the real ones.
-/

namespace Felidae.Client

open Reference (Sample sample bytesOf nameOf timeAt)

/-! ## Keys -/

/-- The point on the curve, uncompressed. -/
def publicKey : Bytes := 4 ::
  (bytesOf 32 0xc322c06fa0832cfd6029ed50dbc9725027c4bd29af3e7330ee56fd25d4175e33 ++
    bytesOf 32 0x7badf51acb5ff44133bbb274e6000a70c88da84ef242b8f0d8898ab6b4e0e1e3)

/-- The private key, in PKCS#8. -/
def pkcs8 : Bytes :=
  bytesOf 36 0x308187020100301306072a8648ce3d020106082a8648ce3d030107046d306b0201010420 ++
    bytesOf 32 0x66df503fcd85b6ea892110c20bf9040990079941d003085cbf2ee13a929a918a ++
    bytesOf 5 0xa144034200 ++ publicKey

/-! ## Transactions -/

/-- One admin and one oracle, each of whom decides alone. -/
def config : Config where
  version := 1
  admins := ⟨⟨1, 1, .ofSecs 1000, 0⟩, [⟨publicKey⟩]⟩
  oracles := ⟨true, ⟨1, 1, .ofSecs 1000, 0⟩, 5, .ofSecs 1000,
    [⟨publicKey, "127.0.0.1".toList⟩]⟩
  onion := ⟨false⟩

/-- Proposed at second 10, with a grace period of 5 minutes and a timeout of 10. -/
def found : Sample :=
  sample [⟨some (.reconfigure
    ⟨some (.unsigned publicKey), some config.toProto, some ⟨-290, 0⟩, some ⟨610, 0⟩⟩)⟩]
  0x4fda0e899f88d83ad7a2aee9e5d6f58332a7860cc63806b2bc9d6e406b84a865
  0x67d73b3d4be6ff287effe2f9e8b629dfff90a97f0632915edff86610d8d4dff0
  0xa42a8fc849b050fece708ca929067067948f6d02a2d5fc4919bc9bfcb2c0103

def enrollmentHash : Hash32 := ⟨bytesOf 32
  0x117af6c634a1f1d304b374fef1a6c91f818a8a82709e7abec51c436231318631, rfl⟩

/-- Made at the header of the second block. -/
def observed : Sample :=
  sample [⟨some (.observe ⟨some (.unsigned publicKey), some {
    domain := "www.example.com.".toList
    zone := "example.com.".toList
    hashObserved := some ⟨enrollmentHash.bytes⟩
    blockstamp := some ⟨bytesOf 32 6, 1⟩ }⟩)⟩]
  0xe49fc794122729fabc489044cc74b9994980b2fd710b296333b0cdc7da8f96ea
  0xa2996a20c56d1ce61177452f03bd3ef6d95a4489eadcb4c89d95afe721acf45b
  0xfed01a6ec077e5861fb16711b21ab3401b128410e0e0507403a8b51d7bad4f1e

def samples : List Sample := [found, observed]

/-- What is observed. -/
def observation : Observation where
  domain := ⟨nameOf "www.example.com."⟩
  zone := ⟨nameOf "example.com."⟩
  blockstamp := ⟨Reference.firstHeight, bytesOf 32 6⟩
  hashObserved := .hash enrollmentHash

def proposal : Reconfigure := ⟨config, timeAt (-290), timeAt 610, ⟨publicKey⟩⟩

def observing : Transaction := ⟨⟨"felidae".toList⟩, [.observe ⟨observation, ⟨publicKey⟩⟩]⟩

/-! ## Proof of work -/

/-- The secret that challenges are made with. -/
def powSecret : Str := "secret".toList

/-- The challenge for `www.example.com` of second 1000. -/
def challenge : Str := hexEncode (bytesOf 32
  0xe185d275d010501b42a0a4d09b2708aa12e454610ca8eecf6f5ba991b8220e5f)

def nonce : ℕ := 494

/-! ## The host -/

/-- What is hashed: the transactions without their signatures, the genesis, the validator's key, the
challenge, and the solution of it. -/
def digests : List (Bytes × Bytes) :=
  samples.map (fun x ↦ (Proto.Transaction.layout.encode x.unsigned, bytesOf 32 x.digest)) ++
    Reference.digests.drop Reference.samples.length ++
    [(toUtf8 (challengeData "www.example.com".toList 1000 powSecret),
        bytesOf 32 0xe185d275d010501b42a0a4d09b2708aa12e454610ca8eecf6f5ba991b8220e5f),
      (toUtf8 (challenge ++ Nat.toDigits 10 nonce),
        bytesOf 32 0x004e7d819e2e7ebbef70623d7e0e89aff7453a721288e75fecaec72c30eac8fb)]

scoped instance : Host :=
  { Reference.instHost with
    decodeTransaction := fun b ↦ (samples.find? fun x ↦ x.bytes = b).map Sample.tx
    sha256 := tabulate digests fun b ↦ List.replicate 33 0 ++ b
    ecdsaVerify := fun p digest signature ↦ samples.any fun x ↦
      bytesOf 32 x.digest = digest && x.signature = signature && p = publicKey }

scoped instance : LawfulHost where
  fqdnFromAsciiStr_display := Reference.fqdnOfText_display
  fqdnFromStr_display := Reference.fqdnFromStr_display
  parseRfc3339_rfc3339 t := Reference.parseRfc3339_rfc3339 t.toTime
  slash_notMem_rfc3339 t := Reference.slash_notMem_rfc3339 t.toTime

/-- The one key there is. -/
scoped instance : P256 where
  SigningKey := Unit
  fromPkcs8Der b := if b = pkcs8 then some () else none
  toPkcs8Der _ := some pkcs8
  verifyingKey _ := publicKey
  sign _ digest :=
    ((samples.find? fun x ↦ bytesOf 32 x.digest = digest).map Sample.signature).getD []

scoped instance : LawfulP256 where
  fromPkcs8Der_toPkcs8Der _ _ h := if_pos (Option.some.inj h).symm

def keyPair : KeyPair := ⟨()⟩

/-! ## The enrollment -/

/-- An Ed25519 public key. -/
def signer : Bytes := bytesOf 32
  0xd75a980182b10ab7d54bfed3c964073a0ee172f3daa62325af021a68f707511a

def signerText : Str := "11qYAYKxCrfVS_7TyWQHOg7hcvPapiMlrwIaaPcHURo".toList

def policyText : Str := "cG9saWN5".toList

/-- The canonical form of the enrollment, which is also the page that is served. -/
def enrollmentText : Str :=
  "\x7b\"cas_url\":\"https://cas.example.com\",\"logs\":\x7b\x7d,\"max_age\":86400,".toList ++
    "\"policy\":\"cG9saWN5\",\"signers\":[\"".toList ++ signerText ++ "\"],".toList ++
    "\"threshold\":1,\"type\":\"sigsum\"\x7d".toList

/-- A JSON value by its canonical form. -/
def enrollment : Enrollment Str :=
  .sigsum [signerText] 1 policyText 86400 "https://cas.example.com".toList []

scoped instance : EnrollmentHost where
  Json := Str
  isObject value := value.head? = some '{'
  parseEnrollment text :=
    if text = enrollmentText then .ok enrollment else .error "expected value at line 1 column 1"
  toValue e := if e = enrollment then .ok enrollmentText else .error "not an enrollment"
  writeCanonical value := .ok (toUtf8 value)
  decodeBase64Url text := if text = signerText then some signer
    else if text = policyText then some (toUtf8 "policy".toList) else none
  isVerifyingKey b := b = signer
  sha256 b := if b = toUtf8 enrollmentText then enrollmentHash else ⟨List.replicate 32 0, rfl⟩

/-! ## The surroundings -/

def secondHeight : Height := (Height.ofNat? 2).getD .zero

/-- The key file, a web with one page, and a node at the second block, which accepts the
observation. -/
def surroundings : Surroundings where
  keypath := "oracle_key.pkcs8.hex"
  keyFile := some (hexEncode pkcs8)
  get url :=
    if url = "https://www.example.com/.well-known/webcat/enrollment.json".toList then
      .ok ⟨200, .ok enrollmentText⟩
    else .ok ⟨404, .ok []⟩
  latestBlock := .ok ⟨secondHeight, bytesOf 32 6, "felidae".toList⟩
  broadcastTxSync tx := if tx = observed.bytes then .ok ⟨0, ""⟩ else .ok ⟨1, "unknown"⟩
  canonicalReason status := if status = 404 then some "Not Found" else none

end Felidae.Client
