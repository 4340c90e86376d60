import Felidae.State.Action
import Felidae.Transaction.Sign

/-!
# Consensus requests

`init_chain`, `deliver_tx`, `finalize_block` and the handler around it. A transaction that fails
becomes a result code, and what it wrote before it failed stays; a failure anywhere else aborts
the block. A panic is not caught by the transaction loop.
-/

namespace Felidae

def Fault.text : Fault → String
  | .reject m => m
  | .corrupt m => m
  | .panic m => m

/-- The fields of `ExecTxResult` that are not always empty. -/
structure ExecTxResult where
  code : ℕ
  log : String
  deriving DecidableEq

/-- `response::FinalizeBlock` -/
structure FinalizeBlockResponse where
  txResults : List ExecTxResult
  validatorUpdates : List Update
  appHash : AppHash
  deriving DecidableEq

/-- `response::InitChain` -/
structure InitChainResponse where
  consensusParams : Bytes
  validators : List Update
  appHash : AppHash
  deriving DecidableEq

namespace State

variable [Host]

/-! ## Genesis -/

/-- The config when no genesis config is provided. -/
def defaultConfig : Config where
  version := 0
  admins := { voting := ⟨0, 0, .ofSecs 0, .ofSecs 0⟩, authorized := [] }
  oracles := {
    enabled := false
    voting := ⟨0, 0, .ofSecs 0, .ofSecs 9223372036854775807⟩
    maxEnrolledSubdomains := 0
    observationTimeout := .ofSecs 9223372036854775807
    authorized := [] }
  onion := ⟨false⟩

/-- The initial config, from the genesis file if it has one. -/
def initialConfig (appStateBytes : Bytes) : Except Fault Config :=
  if appStateBytes = [] then .ok defaultConfig
  else do
    let appState ← (Host.parseAppState appStateBytes).mapError fun e ↦
      .reject s!"failed to parse app_state as JSON: {e}"
    let configValue ← okOr appState (.reject "app_state must contain a 'config' key")
    (Host.parseConfig configValue).mapError fun e ↦
      .reject s!"failed to deserialize config from app_state.config: {e}"

/-- Initialize the chain state. -/
def initChain (request : InitChain) : Command InitChainResponse := do
  let appHash := Host.sha256 (Host.encodeInitChain request)
  if request.initialHeight.value ≠ 1 then
    Exec.throw (.reject "initial height must be 1")
  else
    setChainId ⟨request.chainId⟩
    let config ← Exec.read fun _ ↦ initialConfig request.appStateBytes
    setConfig config
    Exec.forEach declareValidator request.validators
    return ⟨request.consensusParams, request.validators, appHash⟩

/-! ## Transactions -/

/-- Apply each action in order. -/
def applyActions (orders : ℕ → IterOrder) : List Action → Command Unit
  | [] => pure ()
  | action :: actions => do
    applyAction (orders 0) action
    applyActions (fun n ↦ orders (n + 1)) actions

/-- What has to hold of an authenticated transaction before its actions are applied. -/
def checkTransaction (tx : AuthenticatedTx) (s : Store) : Except Fault Unit := do
  let currentChainId ← chainId s
  bailIf (tx.tx.chainId ≠ currentChainId)
    (s!"transaction chain ID {String.ofList tx.tx.chainId.id} does not match "
      ++ s!"current chain ID {String.ofList currentChainId.id}")
  bailIf (tx.tx.actions = []) "transaction must contain at least one action"

/-- Execute a transaction against the current state. -/
def deliverAuthenticatedTx (orders : ℕ → IterOrder) (tx : AuthenticatedTx) : Command Unit := do
  Exec.read (checkTransaction tx)
  applyActions orders tx.tx.actions

/-- Deliver transaction bytes to the state. -/
def deliverTx (orders : ℕ → IterOrder) (txBytes : Bytes) : Command Unit := do
  let tx ← Exec.read fun _ ↦ (AuthenticatedTx.fromProto txBytes).mapError ParseError.reject
  deliverAuthenticatedTx orders tx

/-- One pass of the transaction loop. -/
def execTx (orders : ℕ → IterOrder) (txBytes : Bytes) : Command ExecTxResult := fun s ↦
  match deliverTx orders txBytes s with
  | (.ok (), t) => (.ok ⟨0, ""⟩, t)
  | (.error (.panic message), t) => (.error (.panic message), t)
  | (.error e, t) => (.ok ⟨1, e.text⟩, t)

def execTxs (orders : ℕ → ℕ → IterOrder) : List Bytes → Command (List ExecTxResult)
  | [] => pure []
  | txBytes :: txs => do
    let result ← execTx (orders 0) txBytes
    let results ← execTxs (fun n ↦ orders (n + 1)) txs
    return result :: results

/-! ## Blocks -/

/-- The addresses of the validators whose signature in the last commit counts. -/
def votingValidators (votes : List VoteInfo) : List Bytes :=
  (votes.filter fun v ↦ v.sigInfo ≠ .absent).map VoteInfo.address

/-- `finalize_block` up to the transactions. -/
def beginBlock (request : FinalizeBlock) : Command Unit := do
  markValidatorsVoted (votingValidators request.votes)
  Exec.forEach tombstoneValidator request.misbehavior
  setBlockHeight request.height
  setBlockTime request.time
  let queue ← Exec.read adminVoting
  queue.timeoutExpiredVotes
  let queue ← Exec.read oracleVoting
  queue.timeoutExpiredVotes

/-- Put a promoted config in force, unless the one in force is as new. -/
def applyConfig (newConfig : Config) : Command Unit := do
  let currentConfig ← Exec.read config
  if newConfig.version ≤ currentConfig.version then
    return ()
  else
    setConfig newConfig

/-- `finalize_block` after the transactions. -/
def endBlock : Command (List Update) := do
  let queue ← Exec.read adminVoting
  let configs ← queue.promotePendingChanges
  Exec.forEach (fun e ↦ applyConfig e.2) configs
  let queue ← Exec.read oracleVoting
  let observations ← queue.promotePendingChanges
  Exec.forEach (fun e ↦ updateCanonical e.1.toDomain e.2.hashObserved) observations
  Exec.read activeValidators

/-- Finalize a block by processing all transactions. -/
def finalizeBlock (orders : ℕ → ℕ → IterOrder) (request : FinalizeBlock) :
    Command FinalizeBlockResponse := do
  beginBlock request
  let txResults ← execTxs orders request.txs
  let validatorUpdates ← endBlock
  return ⟨txResults, validatorUpdates, []⟩

/-- Before a block: record the app hash of the state the previous block left, unless there is
none. -/
def recordPrevious : Command Unit := fun s ↦
  match blockHeight s with
  | .error _ => (.ok (), s)
  | .ok height => if height.value = 0 then (.ok (), s)
    else recordAppHash (Host.rootHash s.verifiable) s

/-- The handler of a `FinalizeBlock` request. -/
def handleFinalizeBlock (orders : ℕ → ℕ → IterOrder) (request : FinalizeBlock) :
    Command FinalizeBlockResponse := do
  recordPrevious
  let response ← finalizeBlock orders request
  let appHash ← Exec.read fun s ↦ .ok (Host.rootHash s.verifiable)
  return { response with appHash := appHash }

end State

end Felidae
