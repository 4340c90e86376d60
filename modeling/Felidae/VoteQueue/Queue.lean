import Felidae.State.Registers
import Felidae.VoteQueue.Keys

/-!
# Operations of a vote queue

Expiry of votes, promotion of pending changes, and the reads. Expiry and promotion both scan an
index from its oldest entry and stop at the first entry that is young enough. Casting a vote is
in `Felidae.State.Voting`: for oracle votes it depends on the state outside the queue.
-/

namespace Felidae

/-- A type of queue keys, written as one segment of a store key: `DomainType<Proto = String>`. -/
class QueueKey (K : Type) where
  toText : K → Str
  ofText : Str → Except ParseError K

instance [Host] : QueueKey PrefixOrderDomain where
  toText := PrefixOrderDomain.display
  ofText := PrefixOrderDomain.ofText

instance : QueueKey Empty where
  toText := Empty.display
  ofText := Empty.ofText

/-- A vote. -/
structure Vote (K V : Type) where
  party : Str
  time : Time
  key : K
  value : V
  deriving DecidableEq

namespace VoteQueue

variable [Host] {K V : Type} [QueueKey K] [DomainType V] (q : VoteQueue K V)

/-! ## Every block -/

/-- The index entries of votes whose timeout has passed. -/
def oldVotes (now : Time) (s : Store) : Except Fault (List (Time × Str × Str)) :=
  (((s.indexScan Unit .internal q.votesByTimestampAllPrefix).andThen fun e ↦
    q.parseIndexVotesByTimestampKeyParty e.1).takeWhile fun e ↦
      decide (q.config.timeout ≤ now.ageOf e.1)).collect

/-- Delete a vote and its index entry. -/
def deleteVote (key party : Str) (time : Time) (s : Store) : Store :=
  (s.delete .internal (q.votesByKeyPartyTimestamp key party time)).indexDelete .internal
    (q.indexVotesByTimestampKeyParty time key party)

/-- Run this every block to remove expired votes. -/
def timeoutExpiredVotes : Command Unit := do
  let now ← Exec.read State.blockTime
  let oldVotes ← Exec.read (q.oldVotes now)
  Exec.forEach (fun (time, key, party) ↦ Exec.modify (q.deleteVote key party time)) oldVotes

/-- The index entries of pending changes whose delay has passed. -/
def ripePending (now : Time) (s : Store) : Except Fault (List (Time × Str × V)) :=
  (((s.indexScan V .internal q.indexPendingByTimestampAllPrefix).andThen fun e ↦
    (q.parseIndexPendingByTimestampKey e.1).map fun (time, key) ↦ (time, key, e.2)).takeWhile
      fun e ↦ decide (q.config.delay ≤ now.ageOf e.1)).collect

/-- Delete a pending change and its index entry. -/
def deletePending (key : Str) (time : Time) (s : Store) : Store :=
  (s.delete .internal (q.pendingByKeyTimestamp key time)).indexDelete .internal
    (q.indexPendingByTimestampKey time key)

/-- Run this every block to promote pending changes whose delay has expired, returning them to be
applied. -/
def promotePendingChanges : Command (List (K × V)) := do
  let now ← Exec.read State.blockTime
  let pending ← Exec.read (q.ripePending now)
  Exec.mapEach (fun (time, key, value) ↦ do
    Exec.modify (q.deletePending key time)
    let key ← Exec.read fun _ ↦ (QueueKey.ofText key).mapError ParseError.corrupt
    return (key, value)) pending

/-! ## Reads -/

/-- The votes under a key, with the party as text. -/
def votesUnder (key : Str) (s : Store) : Except Fault (List (Str × Time × V)) :=
  ((s.scan V .internal (q.votesByKeyPrefix key true)).andThen fun e ↦
    (q.parseVotesByKeyPartyTimestamp e.1).map fun (_, party, time) ↦ (party, time, e.2)).collect

/-- The pending changes under a key. -/
def pendingUnder (key : Str) (s : Store) : Except Fault (List (Time × V)) :=
  ((s.scan V .internal (q.pendingByKeyPrefix key true)).andThen fun e ↦
    (q.parsePendingByKeyTimestamp e.1).map fun (_, time) ↦ (time, e.2)).collect

/-- Get the pending change for the given key, if it exists. -/
def pendingForKey (key : K) (s : Store) : Except Fault (Option V) := do
  let key := QueueKey.toText key
  let pending ← ((s.scan V .internal (q.pendingByKeyPrefix key true)).andThen fun e ↦
    .ok e.2).collect
  if 1 < pending.length then
    throw (.corrupt s!"multiple pending changes for key {String.ofList key} in vote queue")
  return pending.head?

/-- Get the pending change for the given key or any keys with the given prefix, delimited by the
given character. -/
def pendingForKeyPrefix (key : K) (delimiter : Option Char) (s : Store) :
    Except Fault (List (Time × K × V)) :=
  let key := QueueKey.toText key ++ delimiter.toList
  ((s.scan V .internal (q.pendingByKeyPrefix key false)).andThen fun e ↦ do
    let (key, time) ← q.parsePendingByKeyTimestamp e.1
    let key ← (QueueKey.ofText key).mapError ParseError.corrupt
    return (time, key, e.2)).collect

/-- Get all currently active votes for the given key. -/
def votesForKey (key : K) (s : Store) : Except Fault (List (Vote K V)) :=
  ((s.scan V .internal (q.votesByKeyPrefix (QueueKey.toText key) true)).andThen fun e ↦ do
    let (key, party, time) ← q.parseVotesByKeyPartyTimestamp e.1
    let key ← (QueueKey.ofText key).mapError ParseError.corrupt
    return ⟨party, time, key, e.2⟩).collect

/-- Get all currently active votes for keys with the given prefix, delimited by the given
character. -/
def votesForKeyPrefix (key : K) (delimiter : Option Char) (s : Store) :
    Except Fault (List (Vote K V)) :=
  let key := QueueKey.toText key ++ delimiter.toList
  ((s.scan V .internal (q.votesByKeyPrefix key false)).andThen fun e ↦ do
    let (key, party, time) ← q.parseVotesByKeyPartyTimestamp e.1
    let key ← (QueueKey.ofText key).mapError ParseError.corrupt
    return ⟨party, time, key, e.2⟩).collect

end VoteQueue

end Felidae
