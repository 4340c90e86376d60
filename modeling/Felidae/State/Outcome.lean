import Felidae.State.Voting

/-!
# How a cast ends

`cast` returns nothing, but it has four ways to succeed. Here it is written once more with a label
that says which one it took; without the label it is `cast`.
-/

namespace Felidae

/-- How a cast ends: no value has a quorum; the winner is pending already; the winner is one too
many, and is dropped; the winner becomes pending. -/
inductive Outcome (V : Type) where
  | waiting
  | unchanged (winner : V)
  | dropped (winner : V)
  | enqueued (winner : V)
  deriving DecidableEq

/-- The value that has won. -/
def Outcome.winner? {V : Type} : Outcome V → Option V
  | waiting => none
  | unchanged w | dropped w | enqueued w => some w

namespace VoteQueue

variable [Host] {K V : Type} [QueueKey K] [DomainType V] [DecidableEq V] (q : VoteQueue K V)

/-- `enqueue`, with the way it ends. -/
def enqueueOutcome (key : Str) (time : Time) (winningValue : V) : Command (Outcome V) := do
  let pendingChanges ← Exec.read (q.pendingUnder key)
  if pendingChanges.any fun e ↦ e.2 = winningValue then
    return .unchanged winningValue
  else
    Exec.forEach (fun e ↦ Exec.modify (q.deletePending key e.1)) pendingChanges
    let within ← Exec.read (q.withinSubdomainLimit key winningValue)
    if within then
      Exec.modify (Store.put .internal (q.pendingByKeyTimestamp key time) winningValue)
      Exec.modify (Store.indexPut .internal (q.indexPendingByTimestampKey time key) winningValue)
      return .enqueued winningValue
    else return .dropped winningValue

/-- `cast`, with the way it ends. -/
def castOutcome (order : IterOrder) (vote : Vote K V) : Command (Outcome V) := do
  let key := QueueKey.toText vote.key
  q.replaceVote key vote.party vote.time vote.value
  let votes ← Exec.read (q.votesUnder key)
  match winner order q.config.quorum (tally (votes.map fun (_, _, value) ↦ value)) with
  | none => return .waiting
  | some winningValue =>
    Exec.forEach (fun (party, time, _) ↦ Exec.modify (q.deleteVote key party time)) votes
    q.enqueueOutcome key vote.time winningValue

omit [QueueKey K] in
theorem enqueue_eq (key : Str) (time : Time) (w : V) :
    q.enqueue key time w = Exec.forget (q.enqueueOutcome key time w) := by
  rw [enqueue, enqueueOutcome, Exec.forget_bind]
  refine bind_congr fun pendingChanges ↦ ?_
  by_cases hany : (pendingChanges.any fun e ↦ e.2 = w) = true
  · rw [if_pos hany, if_pos hany]
    rfl
  · rw [if_neg hany, if_neg hany, Exec.forget_bind]
    refine bind_congr fun _ ↦ ?_
    rw [Exec.forget_bind]
    refine bind_congr fun within ↦ ?_
    cases within <;> rfl

omit [Host] [QueueKey K] [DomainType V] [DecidableEq V] in
/-- The values of a list of votes. -/
theorem map_value (votes : List (Str × Time × V)) :
    votes.map (fun (_, _, value) ↦ value) = votes.map fun e ↦ e.2.2 := rfl

/-- `cast` is `castOutcome` without the label. -/
theorem cast_eq (order : IterOrder) (vote : Vote K V) :
    q.cast order vote = Exec.forget (q.castOutcome order vote) := by
  rw [cast, castOutcome, Exec.forget_bind]
  refine bind_congr fun _ ↦ ?_
  rw [Exec.forget_bind]
  refine bind_congr fun votes ↦ ?_
  rw [map_value, map_value]
  generalize winner order q.config.quorum (tally (votes.map fun e ↦ e.2.2)) = o
  rcases o with _ | w
  · rfl
  · exact (bind_congr fun _ ↦ q.enqueue_eq _ _ w).trans Exec.forget_bind.symm

end VoteQueue

end Felidae
