import Felidae.Service.Backend
import Felidae.State.Abci

/-!
# The ABCI service

Each request of the consensus engine becomes calls into the backend. `InitChain` and
`FinalizeBlock` write to the working state, `FinalizeBlock` stages what was written, and `Commit`
carries it over into the storage. `CheckTx` delivers its transaction to a fork that is discarded.
-/

namespace Felidae

/-- `abci::Request`, with the fields that are read. -/
inductive Request where
  | echo (message : Str)
  | flush
  | info
  | initChain (request : InitChain)
  | finalizeBlock (request : FinalizeBlock)
  | checkTx (tx : Bytes)
  | commit
  | query
  | listSnapshots
  | offerSnapshot
  | loadSnapshotChunk
  | applySnapshotChunk
  | prepareProposal (maxTxBytes : ℤ) (txs : List Bytes)
  | processProposal
  | extendVote
  | verifyVoteExtension (voteExtension : Bytes)

/-- `abci::Response`, with the fields that are not constant. -/
inductive Response where
  | echo (message : Str)
  | flush
  | info (lastBlockHeight : Height) (lastBlockAppHash : AppHash)
  | initChain (response : InitChainResponse)
  | finalizeBlock (response : FinalizeBlockResponse)
  | checkTx (code : ℕ) (log : String)
  | commit (data : AppHash)
  | query (code : ℕ) (log : String)
  | prepareProposal (txs : List Bytes)
  | processProposal (accept : Bool)
  | extendVote (voteExtension : Bytes)
  | verifyVoteExtension (accept : Bool)
  deriving DecidableEq

namespace Service

variable [Host]

/-- The root hash of a store, `app_hash` in `root_hashes`. -/
def appHash (s : Store) : AppHash := Host.rootHash s.verifiable

/-- The height of the last block, or 0. -/
def lastHeight (s : Store) : Height :=
  (State.blockHeight s).toOption.getD .zero

/-- The transactions of a proposal, as many as fit. -/
def takeWhileFit (maxBytes : ℤ) : ℤ → List Bytes → List Bytes
  | _, [] => []
  | totalBytes, tx :: txs =>
    if maxBytes < totalBytes + tx.length then []
    else tx :: takeWhileFit maxBytes (totalBytes + tx.length) txs

/-- Record the app hash of the previous block, unless there is none. -/
def recordPrevious : Exec NodeStore Fault Unit := do
  let height ← Exec.read fun b ↦ .ok (lastHeight b.state.view)
  if height.value ≠ 0 then
    let previous ← Exec.read fun b ↦ .ok (appHash b.storage)
    Backend.onState (State.recordAppHash previous)
  else
    return ()

/-- `FinalizeBlock`: the app hash of the block is filled in, but it is not committed yet. -/
def finalizeBlock (orders : ℕ → ℕ → IterOrder) (request : FinalizeBlock) :
    Exec NodeStore Fault FinalizeBlockResponse := do
  recordPrevious
  let response ← Backend.onState (State.finalizeBlock orders request)
  let appHash ← Backend.prepareCommit appHash
  return { response with appHash := appHash }

/-- `CheckTx`: nothing but the outcome is kept of the delivery to the fork. -/
def checkTx (orders : ℕ → IterOrder) (tx : Bytes) : Exec NodeStore Fault Response :=
  Exec.read fun b ↦
    match (Backend.onState (State.deliverTx orders tx) b.fork).1 with
    | .ok () => .ok (.checkTx 0 "")
    | .error (.panic message) => .error (.panic message)
    | .error e => .ok (.checkTx 1 e.text)

/-- `call` -/
def call (orders : ℕ → ℕ → IterOrder) : Request → Exec NodeStore Fault Response
  | .echo message => return .echo message
  | .flush => return .flush
  | .info => Exec.read fun b ↦ .ok (.info (lastHeight b.state.view) (appHash b.storage))
  | .initChain request => do
    let response ← Backend.onState (State.initChain request)
    return .initChain response
  | .finalizeBlock request => do
    let response ← finalizeBlock orders request
    return .finalizeBlock response
  | .checkTx tx => checkTx (orders 0) tx
  | .commit => do
    Backend.commit
    let appHash ← Exec.read fun b ↦ .ok (appHash b.storage)
    return .commit appHash
  | .query => return .query 1 "query is not implemented"
  | .listSnapshots | .offerSnapshot | .loadSnapshotChunk | .applySnapshotChunk =>
    Exec.throw (.reject "snapshots are not implemented")
  | .prepareProposal maxTxBytes txs => return .prepareProposal (takeWhileFit maxTxBytes 0 txs)
  | .processProposal => return .processProposal true
  | .extendVote => return .extendVote []
  | .verifyVoteExtension voteExtension =>
    return .verifyVoteExtension (decide (voteExtension = []))

end Service

end Felidae
