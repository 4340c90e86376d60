import Felidae.Store

/-!
# Configuration, heights, times and validators

The parts of the state that are single values or tables by height: what is read by every block and
every action. `config`, `blockHeight` and `blockTime` fail only in a store that was never
initialized or is corrupt; the histories of block times and app hashes are asked about heights
that come from transactions, and what they lack is a reason to reject.
-/

namespace Felidae.State

/-! ## The configuration -/

/-- The config in force. -/
def config (s : Store) : Except Fault Config := do
  let config ← Store.get Config .internal "parameters/config".toList s
  okOr config (.corrupt "config not found in state; is the state initialized?")

def setConfig (config : Config) : Command Unit :=
  Exec.modify (Store.put .internal "parameters/config".toList config)

/-- `check_voting_config` -/
def checkVotingConfig (expectedTotal : ℕ) (votingConfig : VotingConfig) : Except Fault Unit := do
  bailIf (votingConfig.total.toNat ≠ expectedTotal)
    (s!"voting config total {votingConfig.total} does not match expected total {expectedTotal}")
  bailIf (votingConfig.quorum = 0) "voting config quorum must be non-zero"
  bailIf (votingConfig.total < votingConfig.quorum)
    (s!"voting config quorum {votingConfig.quorum} cannot be greater than "
      ++ s!"total {votingConfig.total}")

/-- Check if a byte slice is all zeros (used to detect placeholder keys). -/
def isAllZeros (bytes : Bytes) : Bool := bytes.all (· = 0)

/-- The loop over the identities of one role. -/
def checkIdentities (role : String) (identities : List Bytes) : Except Fault Unit :=
  match identities.findIdx? isAllZeros with
  | none => .ok ()
  | some i => .error (.reject
      (s!"{role} at index {i} has an all-zero identity (placeholder not replaced)"))

/-- Check a config for internal consistency and validity, as well as validity against the current
config. -/
def checkConfig (config : Config) (s : Store) : Except Fault Unit := do
  let currentConfig ← State.config s
  bailIf (config.version ≤ currentConfig.version)
    (s!"new config version {config.version} must be greater than current version "
      ++ s!"{currentConfig.version}")
  checkVotingConfig config.admins.authorized.length config.admins.voting
  checkVotingConfig config.oracles.authorized.length config.oracles.voting
  bailIf (config.oracles.maxEnrolledSubdomains = 0) "max_enrolled_subdomains must be non-zero"
  bailIf (config.oracles.maxEnrolledSubdomains < currentConfig.oracles.maxEnrolledSubdomains)
    "max_enrolled_subdomains cannot decrease"
  checkIdentities "admin" (config.admins.authorized.map Admin.identity)
  checkIdentities "oracle" (config.oracles.authorized.map Oracle.identity)

/-! ## The chain id -/

def chainId (s : Store) : Except Fault ChainId := do
  let chainId ← Store.get ChainId .internal "parameters/chain_id".toList s
  okOr chainId (.corrupt "chain ID not found in state; is the state initialized?")

/-- `set_chain_id`: a chain id that does not decode counts as none. -/
def setChainId (chainId : ChainId) : Command Unit := fun s ↦
  match State.chainId s with
  | .ok _ => (.error (.reject "chain ID is already set; cannot set it again"), s)
  | .error _ => (.ok (), Store.put .internal "parameters/chain_id".toList chainId s)

/-! ## Heights and times -/

/-- `pad_height`: 20 digits. -/
def padHeight (height : Height) : Str := decimal 20 height.value

def blockHeight (s : Store) : Except Fault Height := do
  let height ← Store.get Height .internal "current/block_height".toList s
  okOr height (.corrupt "block height not found in state; is the state initialized?")

def setBlockHeight (height : Height) : Command Unit :=
  Exec.modify (Store.put .internal "current/block_height".toList height)

def blockTime (s : Store) : Except Fault Time := do
  let time ← Store.get Time .internal "current/block_time".toList s
  okOr time (.corrupt "block time not found in state; is the state initialized?")

def recordBlockTime (time : Time) : Command Unit := do
  let height ← Exec.read blockHeight
  Exec.modify (Store.put .internal ("blocktime/".toList ++ padHeight height) time)

def setBlockTime (time : Time) : Command Unit := do
  Exec.modify (Store.put .internal "current/block_time".toList time)
  recordBlockTime time

def timeOfBlock (height : Height) (s : Store) : Except Fault Time := do
  let time ← Store.get Time .internal ("blocktime/".toList ++ padHeight height) s
  okOr time (.reject "block time not found in state")

/-! ## App hashes -/

/-- Record the app hash of the previous block. A `u64` subtraction that underflows panics. -/
def recordAppHash (appHash : AppHash) : Command Unit := do
  let height ← Exec.read blockHeight
  if height.value = 0 then
    Exec.throw (.panic "attempt to subtract with overflow")
  else
    let previous ← Exec.read fun _ ↦
      okOr (Height.ofNat? (height.value - 1)) (.corrupt "integer overflow")
    Exec.modify (Store.put (V := Bytes) .internal ("apphash/".toList ++ padHeight previous) appHash)

def previousAppHash (height : Height) (s : Store) : Except Fault AppHash := do
  let appHash ← Store.get Bytes .internal ("apphash/".toList ++ padHeight height) s
  okOr appHash (.reject "app hash not found in state")

/-! ## Validators -/

def validatorKey (pubKey : Bytes) : Str := "current/validators/".toList ++ hexEncode pubKey

/-- Declare a new validator. -/
def declareValidator (validator : Update) : Command Unit := do
  let existing ← Exec.read
    (Store.get Power .internal (validatorKey validator.pubKey.toBytes))
  match existing with
  | some existing =>
    let pubKey := String.ofList (hexEncode validator.pubKey.toBytes)
    Exec.throw (.reject s!"validator {pubKey} already exists with power {existing.value}")
  | none =>
    Exec.modify (Store.put .internal (validatorKey validator.pubKey.toBytes) validator.power)

variable [Host]

/-- One pass of the loop of `active_validators`: nothing for a validator without power. -/
def activeValidator (entry : Str × Power) : Except Fault (Option Update) := do
  let text := trimStartMatches "current/validators/".toList entry.1.length entry.1
  let pubKey ← okOr (hexDecode text) (.corrupt "invalid hex in validator key")
  if 0 < entry.2.value then
    let pubKey ← okOr (Host.fromRawEd25519 pubKey) (.corrupt "invalid ed25519 public key")
    return some ⟨pubKey, entry.2⟩
  else
    return none

/-- Get all active validators. A power that does not decode silently ends the list. -/
def activeValidators (s : Store) : Except Fault (List Update) := do
  let entries := (Store.scan Power .internal "current/validators/".toList s).untilError
  let updates ← collect activeValidator entries
  return updates.reduceOption

/-- `mark_validators_voted` reads the active validators, and logs those among `addresses`. -/
def markValidatorsVoted (_addresses : List Bytes) : Command Unit := do
  let _ ← Exec.read activeValidators
  return ()

/-- The address of a validator: the first 20 bytes of the SHA-256 hash of its public key. -/
def validatorAddress (pubKey : PublicKey) : Bytes := (Host.sha256 pubKey.toBytes).take 20

/-- Tombstone a validator by its address. -/
def tombstoneValidator (badAddress : Bytes) : Command Unit := do
  let active ← Exec.read activeValidators
  match active.find? fun u ↦ validatorAddress u.pubKey = badAddress with
  -- the key that was found is logged, and that is all
  | some _ => return ()
  | none => return ()

end Felidae.State
