import Felidae.Client.Keys
import Felidae.Oracle.ProofOfWork

/-!
# Witnessing an observation

The oracle client's `witness`: an enrollment is parsed and checked, and its canonical form hashed;
the observation is built and signed with the oracle's key, and the result is put to the chain's
own authentication before it is handed out. No enrollment at all is observed as `NotFound`.
-/

namespace Felidae

/-- Enrollment policy structure, over the JSON values of a trusted root. A map is the list of its
entries, in the order of its keys. -/
inductive Enrollment (Json : Type) where
  | sigstore (trustedRoot : Json) (claims : List (Str × Str)) (maxAge : UInt64)
  | sigsum (signers : List Str) (threshold : UInt32) (policy : Str) (maxAge : UInt64)
      (casUrl : Str) (logs : List (Str × Str))
  deriving DecidableEq

/-- The crates that read, check and write an enrollment. -/
class EnrollmentHost where
  /-- `serde_json::Value` -/
  Json : Type
  isObject : Json → Bool
  /-- `serde_json::from_str::<Enrollment>` -/
  parseEnrollment : Str → Except String (Enrollment Json)
  /-- `serde_json::to_value` -/
  toValue : Enrollment Json → Except String Json
  /-- A value written by the `CanonicalFormatter`. -/
  writeCanonical : Json → Except String Bytes
  /-- `base64_url::decode` -/
  decodeBase64Url : Str → Option Bytes
  /-- Whether `VerifyingKey::from_bytes` accepts 32 bytes. -/
  isVerifyingKey : Bytes → Bool
  /-- SHA-256, as an array. -/
  sha256 : Bytes → Hash32

/-- Errors that may occur when creating a witness transaction. -/
inductive WitnessError where
  | sign (e : SignError)
  | auth (e : ParseError)
  | fqdn (message : String)
  | hex
  | blockHeightOutOfRange (blockHeight : UInt64)
  | invalidSigningKey
  | enrollment (message : String)
  | canonicalization (message : String)
  | invalidEnrollment (message : String)
  deriving DecidableEq

/-- `Option::ok_or` -/
def okOrElse {ε α : Type} (o : Option α) (e : ε) : Except ε α := o.elim (.error e) .ok

theorem okOrElse_eq_ok {ε α : Type} {o : Option α} {e : ε} {a : α} :
    okOrElse o e = .ok a ↔ o = some a := by
  cases o with
  | none => exact iff_of_false (fun h ↦ by cases h) (fun h ↦ by cases h)
  | some b => rw [okOrElse, Option.elim_some, Except.ok.injEq, Option.some_inj]

namespace Enrollment

/-- `if bad { return Err(Error::InvalidEnrollment(message)) }` -/
def bail (bad : Prop) [Decidable bad] (message : String) : Except WitnessError Unit :=
  if bad then .error (.invalidEnrollment message) else .ok ()

/-- `for x in xs { check(x)? }` -/
def forEach {α : Type} (check : α → Except WitnessError Unit) : List α → Except WitnessError Unit
  | [] => .ok ()
  | x :: xs => do
    check x
    forEach check xs

variable [EnrollmentHost]

/-- Each OID and value of the claims. -/
def checkClaim (claim : Str × Str) : Except WitnessError Unit := do
  bail (trim claim.1 = []) "claim OID must not be empty"
  bail (trim claim.2 = [])
    s!"claim value for OID {String.ofList claim.1} must not be empty"

def checkBase64Url (name : String) (text : Str) : Except WitnessError Bytes :=
  okOrElse (EnrollmentHost.decodeBase64Url text)
    (.invalidEnrollment s!"{name} must be a valid base64url string")

/-- Each signer is a base64url-encoded Ed25519 public key. -/
def checkSigner (key : Str) : Except WitnessError Unit := do
  let keyBytes ← checkBase64Url "key" key
  bail (keyBytes.length ≠ 32) "Ed25519 public key must be exactly 32 bytes"
  bail (¬EnrollmentHost.isVerifyingKey keyBytes) "invalid Ed25519 public key"

/-- Validate enrollment constraints from the spec. -/
def validate : Enrollment EnrollmentHost.Json → Except WitnessError Unit
  | sigstore trustedRoot claims _ => do
    bail (¬EnrollmentHost.isObject trustedRoot) "trusted_root must be a valid JSON object"
    bail (claims = []) "claims must not be empty"
    forEach checkClaim claims
  | sigsum signers threshold policy _ _ logs => do
    bail (threshold = 0) "threshold must be at least 1"
    bail (signers.length < threshold.toNat)
      (s!"threshold ({threshold}) must be less than or equal to the number of signers "
        ++ s!"({signers.length})")
    let _policy ← checkBase64Url "policy" policy
    forEach checkSigner signers
    forEach (fun log ↦ (checkBase64Url "log key" log.1).map fun _ ↦ ()) logs

/-- The hash of the canonical form. -/
def canonicalHash (e : Enrollment EnrollmentHost.Json) : Except WitnessError Hash32 := do
  let value ← (EnrollmentHost.toValue e).mapError .enrollment
  let canonicalized ← (EnrollmentHost.writeCanonical value).mapError .canonicalization
  return EnrollmentHost.sha256 canonicalized

/-- What is observed of the text that was fetched. -/
def observed (enrollment : Str) : Except WitnessError HashObserved :=
  if enrollment ≠ [] then do
    let enrollment ← (EnrollmentHost.parseEnrollment enrollment).mapError .enrollment
    validate enrollment
    let canonicalHash ← canonicalHash enrollment
    return .hash canonicalHash
  else return .notFound

end Enrollment

variable [Host] [P256] [EnrollmentHost]

/-- Create a hex-encoded, signed transaction witnessing the given observation on the given chain,
using the given oracle signing key. -/
def witness (signingKey chainId appHash : Str) (blockHeight : UInt64)
    (domain zone enrollment : Str) : Except WitnessError Str := do
  let keypair ← okOrElse ((hexDecode signingKey).bind KeyPair.decode) .invalidSigningKey
  let identity := keypair.publicKey
  let hashObserved ← Enrollment.observed enrollment
  let domain ← (Host.fqdnFromStr domain).mapError .fqdn
  let zone ← (Host.fqdnFromStr zone).mapError .fqdn
  let appHash ← okOrElse (hexDecode appHash) .hex
  let blockHeight ← okOrElse (Height.ofNat? blockHeight.toNat) (.blockHeightOutOfRange blockHeight)
  let tx := ((Builder.new ⟨chainId⟩).observe identity {
    domain := ⟨domain⟩
    zone := ⟨zone⟩
    hashObserved := hashObserved
    blockstamp := ⟨blockHeight, appHash⟩ }).build
  let tx ← (tx.signToProto keypair.signWith).mapError .sign
  let _authTx ← (AuthenticatedTx.fromProto tx).mapError .auth
  return hexEncode tx

end Felidae
