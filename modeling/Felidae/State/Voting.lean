import Felidae.State.Canonical
import Felidae.VoteQueue.Tally

/-!
# Casting votes

The two vote queues of the chain, the subdomain limit, and `VoteQueue::cast`. A cast replaces the
party's earlier vote for the key and then tallies what is stored under the key: the first value
found with a quorum clears the votes and becomes the pending change, unless it already is, or, in
the oracle queue, would enroll a subdomain too many.
-/

namespace Felidae

variable [Host]

namespace State

/-- Get the vote queue for oracle observations. -/
def oracleVoting (s : Store) : Except Fault (VoteQueue PrefixOrderDomain OracleVoteValue) := do
  let config ← State.config s
  return ⟨"oracle_voting/".toList, config.oracles.voting⟩

/-- Get the vote queue for admin updates. -/
def adminVoting (s : Store) : Except Fault (VoteQueue Empty Config) := do
  let config ← State.config s
  return ⟨"admin_voting/".toList, config.admins.voting⟩

/-! ## The subdomain limit -/

/-- The registered domain of an observation: the zone plus one additional label of the subdomain.
The `usize` subtraction panics if the zone is as deep as the subdomain. -/
def registeredDomain (subdomain zone : FQDN) : Except Fault PrefixOrderDomain :=
  if subdomain.depth < zone.depth + 1 then
    .error (.panic "attempt to subtract with overflow")
  else
    (okOr subdomain.hierarchy[subdomain.depth - zone.depth - 1]?
      (.corrupt "zone depths invalid (should not happen)")).map PrefixOrderDomain.mk

/-- Check if adding a subdomain to the pending queue would exceed the subdomain limit. -/
def checkSubdomainLimitBeforePendingExact (subdomain registeredDomain : PrefixOrderDomain)
    (s : Store) : Except Fault Unit := do
  let currentConfig ← State.config s
  let maxEnrolledSubdomains := currentConfig.oracles.maxEnrolledSubdomains
  let registeredDomainPending ← (← oracleVoting s).pendingForKey registeredDomain s
  let subdomainPending ← (← oracleVoting s).pendingForKeyPrefix registeredDomain (some '.') s
  let canonicalSubdomains ← State.canonicalSubdomains registeredDomain.toDomain s
  let registeredDomainPending := registeredDomainPending.toList.map fun _ ↦ registeredDomain
  let subdomainPending := subdomainPending.map fun (_, k, _) ↦ k
  let canonicalSubdomains := canonicalSubdomains.map PrefixOrderDomain.ofDomain
  let counted : List PrefixOrderDomain :=
    registeredDomainPending ++ subdomainPending ++ canonicalSubdomains
  bailIf (subdomain ∉ counted ∧ maxEnrolledSubdomains.toNat < counted.dedup.length + 1)
    (s!"cannot add subdomain {String.ofList subdomain.display} to pending queue: would exceed "
      ++ s!"max enrolled subdomains of {maxEnrolledSubdomains} for registered domain "
      ++ String.ofList registeredDomain.display)

/-- The registered domain as `cast` computes it once more: for the subdomain that a key is parsed
as, under the zone of the winning value, which is encoded and decoded as an oracle's. There is none
if it does not decode. -/
def recomputedDomain {V : Type} [DomainType V] (subdomain : PrefixOrderDomain) (winningValue : V) :
    Except Fault (Option PrefixOrderDomain) :=
  match (DomainType.ofStored (DomainType.toStored winningValue) : Except Fault OracleVoteValue) with
  | .error _ => .ok none
  | .ok oracleValue => (registeredDomain subdomain.name oracleValue.zone.name).map some

/-- Whether a check passes; an error is an answer, a panic is not. -/
def passes : Except Fault Unit → Except Fault Bool
  | .ok _ => .ok true
  | .error (.panic message) => .error (.panic message)
  | .error _ => .ok false

end State

namespace VoteQueue

variable {K V : Type} [QueueKey K] [DomainType V] [DecidableEq V] (q : VoteQueue K V)

/-! ## Casting -/

/-- The keys of the votes by a party for a key. -/
def votesByParty (key party : Str) (s : Store) : Except Fault (List Str) :=
  ((s.scan V .internal (q.votesByKeyPartyPrefix key party true)).andThen fun e ↦ .ok e.1).collect

/-- Steps 0 to 2 of `cast`: remove any pre-existing vote by this party for this key, and add the
new one, to the votes and to the index. The index entry of the removed vote stays. -/
def replaceVote (key party : Str) (time : Time) (value : V) : Command Unit := do
  let votesByParty ← Exec.read (q.votesByParty key party)
  Exec.forEach (fun key ↦ Exec.modify (Store.delete .internal key)) votesByParty
  Exec.modify (Store.put .internal (q.votesByKeyPartyTimestamp key party time) value)
  Exec.modify (Store.indexPut .internal (q.indexVotesByTimestampKeyParty time key party) value)

/-- The check of the subdomain limit before a winning value becomes pending. It applies to oracle
votes, told by their prefix; `false` drops the value. -/
def withinSubdomainLimit (key : Str) (winningValue : V) (s : Store) : Except Fault Bool :=
  if q.internalStatePrefix = "oracle_voting/".toList then
    match PrefixOrderDomain.fromStr key with
    | none => .ok true
    | some subdomain => do
      match ← State.recomputedDomain subdomain winningValue with
      | none => return false
      | some registeredDomain =>
        State.passes (State.checkSubdomainLimitBeforePendingExact subdomain registeredDomain s)
  else .ok true

/-- The last part of `cast`: make a winning value the pending change of its key. An equal pending
change is left as it is, so that its timer is not reset; a different one is deleted first. -/
def enqueue (key : Str) (time : Time) (winningValue : V) : Command Unit := do
  let pendingChanges ← Exec.read (q.pendingUnder key)
  if pendingChanges.any fun e ↦ e.2 = winningValue then
    return ()
  else
    Exec.forEach (fun e ↦ Exec.modify (q.deletePending key e.1)) pendingChanges
    let within ← Exec.read (q.withinSubdomainLimit key winningValue)
    if within then
      Exec.modify (Store.put .internal (q.pendingByKeyTimestamp key time) winningValue)
      Exec.modify (Store.indexPut .internal (q.indexPendingByTimestampKey time key) winningValue)

/-- Cast a vote to change the given key to the given value. -/
def cast (order : IterOrder) (vote : Vote K V) : Command Unit := do
  let key := QueueKey.toText vote.key
  q.replaceVote key vote.party vote.time vote.value
  let votes ← Exec.read (q.votesUnder key)
  match winner order q.config.quorum (tally (votes.map fun (_, _, value) ↦ value)) with
  | none => return ()
  | some winningValue =>
    Exec.forEach (fun (party, time, _) ↦ Exec.modify (q.deleteVote key party time)) votes
    q.enqueue key vote.time winningValue

end VoteQueue

end Felidae
