import Felidae.Foundation.Bytes
import Felidae.Store

/-!
# Light blocks

The light client fetches signed headers and validator sets from a node, and verifies that the
validators have signed. The node may answer anything; what it answers, and when the time is up, is a
list that the client works through.
-/

namespace Felidae.Publish

/-! ## Headers and validators -/

/-- The hash of a block, and the header of its parts. -/
structure BlockId where
  hash : Bytes
  partSetHeader : Bytes
  deriving DecidableEq

inductive CommitSig where
  | absent
  | commit (timestamp : Time) (signature : Option Bytes)
  | nil
  deriving DecidableEq

structure Commit where
  height : Height
  round : ℕ
  blockId : BlockId
  signatures : List CommitSig
  deriving DecidableEq

/-- A block header. The fields that only its hash depends on are kept together. -/
structure Header where
  height : Height
  appHash : AppHash
  proposerAddress : Bytes
  fields : Bytes
  deriving DecidableEq

structure SignedHeader where
  header : Header
  commit : Commit
  deriving DecidableEq

/-- `validator::Info` -/
structure Validator where
  address : Bytes
  pubKey : PublicKey
  power : Power
  deriving DecidableEq

/-- `validator::Set` -/
structure ValidatorSet where
  validators : List Validator
  proposer : Option Validator
  totalVotingPower : Power
  deriving DecidableEq

structure LightBlock where
  signedHeader : SignedHeader
  validatorSet : ValidatorSet
  deriving DecidableEq

/-- The parts of a node's status that are read. -/
structure Status where
  network : ChainId
  latestBlockHeight : Height
  deriving DecidableEq

/-- A precommit for a block, with the fields that vary. -/
structure Precommit where
  height : Height
  round : ℕ
  blockId : BlockId
  timestamp : Time
  validatorAddress : Bytes
  validatorIndex : ℕ
  signature : Bytes

/-- The `tendermint` crate. -/
class Tendermint where
  /-- `Header::hash` -/
  headerHash : Header → Bytes
  /-- `Set::new`, which panics if the total voting power is out of range. -/
  newSet : List Validator → Option Validator → Option ValidatorSet
  /-- `chain::Id::try_from` -/
  parseChainId : Str → Except String ChainId
  /-- `Vote::to_signable_bytes` -/
  toSignableBytes : Precommit → ChainId → Except String Bytes
  /-- `Verifier::verify`: the key, the message and the signature. -/
  verify : PublicKey → Bytes → Bytes → Except String Unit

/-- `Set::MAX_TOTAL_VOTING_POWER`, an eighth of the largest `i64`. -/
def maxTotalVotingPower : ℕ := 1152921504606846975

/-- What the light client relies on: a set holds the validators it is made of, and their total
voting power is within the limit. -/
class LawfulTendermint [Tendermint] : Prop where
  perm_of_newSet : ∀ {validators : List Validator} {proposer : Option Validator}
    {set : ValidatorSet}, Tendermint.newSet validators proposer = some set →
      set.validators.Perm validators
  total_of_newSet : ∀ {validators : List Validator} {proposer : Option Validator}
    {set : ValidatorSet}, Tendermint.newSet validators proposer = some set →
      set.totalVotingPower.value = (validators.map fun v ↦ v.power.value).sum
  total_le_of_newSet : ∀ {validators : List Validator} {proposer : Option Validator}
    {set : ValidatorSet}, Tendermint.newSet validators proposer = some set →
      set.totalVotingPower.value ≤ maxTotalVotingPower

/-! ## Verification -/

/-- The `i64` a number is cut to: nothing checks for overflows in a release build. -/
def wrapI64 (n : ℤ) : ℤ := n.bmod (2 ^ 64)

theorem wrapI64_of_le {n : ℤ} (hpos : 0 ≤ n) (hle : n ≤ 9223372036854775807) : wrapI64 n = n :=
  Int.bmod_eq_of_le_mul_two (by omega) (by omega)

variable [Tendermint]

/-- The signature of a validator over the precommit for the block is verified. -/
def verifySignature (commit : Commit) (chainId : Str) (idx : ℕ) (validator : Validator)
    (timestamp : Time) (signatureBytes : Bytes) : Except Fault Unit := do
  if 2147483648 ≤ idx then throw (.panic "validator index out of bounds")
  else do
    let vote : Precommit :=
      ⟨commit.height, commit.round, commit.blockId, timestamp, validator.address, idx,
        signatureBytes⟩
    let chainId ← (Tendermint.parseChainId chainId).mapError fun e ↦
      .reject s!"invalid chain ID: {e}"
    let signBytes ← (Tendermint.toSignableBytes vote chainId).mapError fun e ↦
      .reject s!"failed to create signable bytes: {e}"
    (Tendermint.verify validator.pubKey signBytes signatureBytes).mapError fun e ↦
      .reject s!"signature verification failed for validator {idx}: {e}"

/-- One pass of the loop over the signatures. Only signatures for the block count. -/
def tallySignature (validators : List Validator) (commit : Commit) (chainId : Str) (tallied : ℤ)
    (slot : CommitSig × ℕ) : Except Fault ℤ := do
  let validator ← okOr validators[slot.2]?
    (.reject s!"validator index {slot.2} out of bounds")
  match slot.1 with
  | .absent => return tallied
  | .nil => return tallied
  | .commit timestamp signature => do
    let signatureBytes ← okOr signature (.reject s!"signature missing for validator {slot.2}")
    verifySignature commit chainId slot.2 validator timestamp signatureBytes
    return wrapI64 (tallied + wrapI64 validator.power.value)

/-- Verify a `LightBlock` by checking commit structure, voting power, and signatures. -/
def verifyLightBlock (signedHeader : SignedHeader) (validatorSet : ValidatorSet)
    (chainId : Str) : Except Fault Unit := do
  let commit := signedHeader.commit
  let header := signedHeader.header
  bailIf (validatorSet.validators.length ≠ commit.signatures.length)
    (s!"validator set size ({validatorSet.validators.length}) doesn't match commit signatures "
      ++ s!"count ({commit.signatures.length})")
  bailIf (header.height ≠ commit.height)
    (s!"header height ({header.height.value}) doesn't match commit height "
      ++ s!"({commit.height.value})")
  bailIf (Tendermint.headerHash header ≠ commit.blockId.hash)
    "header hash doesn't match commit block ID hash"
  let totalVotingPower := wrapI64 validatorSet.totalVotingPower.value
  let votingPowerNeeded := (wrapI64 (totalVotingPower * 2)).tdiv 3
  let talliedVotingPower ←
    commit.signatures.zipIdx.foldlM (tallySignature validatorSet.validators commit chainId) 0
  bailIf (talliedVotingPower ≤ votingPowerNeeded)
    (s!"insufficient voting power: got {talliedVotingPower} "
      ++ s!"(needed >{votingPowerNeeded})")

/-! ## Fetching -/

/-- What the client gets to know: the answers of the node, and that the timeout has passed. -/
inductive Answer where
  | status (result : Except String Status)
  | commit (result : Except String SignedHeader)
  | validators (result : Except String (List Validator))
  | timeout

/-- There is no answer to the request. -/
def noAnswer : Fault := .reject "no answer"

/-- `client.status()` -/
def askStatus : Exec (List Answer) Fault Status
  | .status result :: answers => (result.mapError .reject, answers)
  | answers => (.error noAnswer, answers)

/-- Fetch the commit for the specified height, again and again until there is one or the timeout has
passed. -/
def awaitCommit (height : Height) : Exec (List Answer) Fault SignedHeader
  | .timeout :: answers =>
    (.error (.reject s!"timeout waiting for block {height.value} to be committed"), answers)
  | .commit (.ok signedHeader) :: answers => (.ok signedHeader, answers)
  | .commit (.error _) :: answers => awaitCommit height answers
  | answers => (.error noAnswer, answers)

/-- `client.validators(height, Paging::All)` -/
def askValidators : Exec (List Answer) Fault (List Validator)
  | .validators result :: answers => (result.mapError .reject, answers)
  | answers => (.error noAnswer, answers)

/-- Fetch a light block at a specific height. -/
def fetchLightBlockAtHeight (height : ℕ) : Exec (List Answer) Fault (LightBlock × Status) := do
  let height ← Exec.read fun _ ↦ okOr (Height.ofNat? height) (.reject "invalid height")
  let status ← askStatus
  let signedHeader ← awaitCommit height
  let allValidators ← askValidators
  let proposer := allValidators.find? fun v ↦ v.address = signedHeader.header.proposerAddress
  let validatorSet ← Exec.read fun _ ↦ okOr (Tendermint.newSet allValidators proposer)
    (.panic "called `Result::unwrap()` on an `Err` value")
  return (⟨signedHeader, validatorSet⟩, status)

/-! ## The app hash of a block -/

/-- The app hash in a light block has to be the one in the proof. -/
def compareAppHash (blockHeight : ℕ) (proofAppHash : Str) (next : LightBlock) :
    Except Fault Unit := do
  let appHashBytes := next.signedHeader.header.appHash
  let proofAppHashBytes ← okOr (hexDecode proofAppHash)
    (.reject "failed to decode app_hash from proof")
  bailIf (appHashBytes ≠ proofAppHashBytes)
    (s!"app hash mismatch: light block (height {blockHeight + 1}) "
      ++ s!"{String.ofList (hexEncode appHashBytes)} != proof (block {blockHeight}) "
      ++ String.ofList proofAppHash)

/-- Poll for the next block, as many times as there are attempts left, and compare the app hash once
it is there. -/
def pollNext (blockHeight : ℕ) (proofAppHash : Str) :
    ℕ → Exec (List Answer) Fault LightBlock
  | 0 => Exec.throw (.reject
      s!"timeout waiting for block {blockHeight + 1} to be committed (waited 60 attempts)")
  | attempts + 1 => fun answers ↦
    match fetchLightBlockAtHeight (blockHeight + 1) answers with
    | (.ok (next, _), answers) =>
      ((compareAppHash blockHeight proofAppHash next).map fun _ ↦ next, answers)
    | (.error (.panic message), answers) => (.error (.panic message), answers)
    | (.error _, answers) => pollNext blockHeight proofAppHash attempts answers

/-- Fetch the block after the response's, which may not be there yet, and compare the app hash. -/
def fetchNext (latestHeight blockHeight : ℕ) (proofAppHash : Str) :
    Exec (List Answer) Fault LightBlock :=
  if latestHeight ≤ blockHeight then pollNext blockHeight proofAppHash 60
  else do
    let fetched ← fetchLightBlockAtHeight (blockHeight + 1)
    Exec.read fun _ ↦ (compareAppHash blockHeight proofAppHash fetched.1).map fun _ ↦ fetched.1

/-- What `reconstruct` has done when it has compared the app hash. -/
structure Comparison where
  /-- The light blocks that were verified, with the heights they were fetched for and the chain
  id. -/
  verified : List (ℕ × LightBlock × Str)
  /-- The light block whose app hash was compared. -/
  compared : LightBlock

/-- `reconstruct` up to the comparison: verify the light block of the response's height, and compare
the app hash with the one of the next height. -/
def checkAppHash (blockHeight : ℕ) (proofAppHash : Str) :
    Exec (List Answer) Fault Comparison := do
  let (lightBlock, status) ← fetchLightBlockAtHeight blockHeight
  let chainId := status.network.id
  Exec.read fun _ ↦ verifyLightBlock lightBlock.signedHeader lightBlock.validatorSet chainId
  let next ← fetchNext status.latestBlockHeight.value blockHeight proofAppHash
  return ⟨[(blockHeight, lightBlock, chainId)], next⟩

end Felidae.Publish
