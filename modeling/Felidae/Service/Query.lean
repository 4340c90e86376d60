import Felidae.Oracle.Zone
import Felidae.State.Canonical
import Felidae.State.Registers

/-!
# The query server

A node answers queries from its latest committed state: the votes of the oracles and the pending
observations for a domain, and the canonical state at or below it. The domain is part of the path,
with or without the dots around it; an empty one is the root.
-/

namespace Felidae

/-- `response::OracleVote` -/
structure OracleVote where
  oracle : Str
  time : Time
  domain : Domain
  hash : HashObserved
  deriving DecidableEq

/-- `response::PendingObservation` -/
structure PendingObservation where
  time : Time
  domain : Domain
  hash : HashObserved
  deriving DecidableEq

namespace Query

variable [Host]

/-- Parse the domain name, permissively. -/
def permissiveDomain (domain : Str) : Except Fault Domain :=
  if domain = [] then .ok ⟨.root⟩
  else match Host.fqdnFromAsciiStr (trimEnd '.' (trimStart '.' domain) ++ ['.']) with
    | none => .error (.reject "invalid domain name")
    | some name => .ok ⟨name⟩

/-- The delimiter of the scans: a dot, so that only subdomains are met and not what merely starts
with the same text; for the root none, so that everything is. -/
def delimiter (domain : Domain) : Option Char := if domain.name ≠ .root then some '.' else none

def oracleVote (vote : Vote PrefixOrderDomain OracleVoteValue) : OracleVote :=
  ⟨vote.party, vote.time, vote.key.toDomain, vote.value.hashObserved⟩

def pendingObservation : Time × PrefixOrderDomain × OracleVoteValue → PendingObservation
  | (time, key, value) => ⟨time, key.toDomain, value.hashObserved⟩

/-- `enrollment_votes` -/
def enrollmentVotes (domain : Domain) (s : Store) : Except Fault (List OracleVote) := do
  let voteQueue ← State.oracleVoting s
  let votes ← voteQueue.votesForKeyPrefix (.ofDomain domain) (delimiter domain) s
  return votes.map oracleVote

/-- `enrollment_pending` -/
def enrollmentPending (domain : Domain) (s : Store) : Except Fault (List PendingObservation) := do
  let voteQueue ← State.oracleVoting s
  let pending ← voteQueue.pendingForKeyPrefix (.ofDomain domain) (delimiter domain) s
  return pending.map pendingObservation

/-! ## Routes -/

/-- `/enrollment/votes/{domain}`, and `/enrollment/votes` for the empty path. -/
def getEnrollmentVotes (path : Str) (s : Store) : Except Fault (List OracleVote) := do
  let domain ← permissiveDomain path
  enrollmentVotes domain s

/-- `/enrollment/pending/{domain}`, and `/enrollment/pending` for the empty path. -/
def getEnrollmentPending (path : Str) (s : Store) : Except Fault (List PendingObservation) := do
  let domain ← permissiveDomain path
  enrollmentPending domain s

/-- `/snapshot/{domain}`, and `/snapshot` for the empty path: the entries of the stream. -/
def getSnapshot (path : Str) (s : Store) : Except Fault (Results (Domain × Hash32)) := do
  let domain ← permissiveDomain path
  State.canonicalSubdomainsHashes domain s

/-! ## Paths -/

variable [LawfulHost]

/-- A name may be given as it is displayed. -/
theorem permissiveDomain_display (d : Domain) : permissiveDomain d.name.display = .ok d := by
  have htrim : trimStart '.' d.name.display = d.name.display ∨
      trimStart '.' d.name.display = [] ∧ d.name.display = ['.'] := by
    rcases hd : d.name.labels with _ | ⟨l, ls⟩
    · exact .inr (by rw [FQDN.display, hd]; exact ⟨rfl, rfl⟩)
    · refine .inl ?_
      rw [FQDN.display, hd]
      obtain ⟨c, cs, hc⟩ := List.exists_cons_of_ne_nil l.ne_nil
      have hdot : c ≠ '.' := fun h ↦ l.dot_notMem (by rw [hc, h]; exact List.mem_cons_self)
      simp [trimStart, hc, hdot]
  have hne : d.name.display ≠ [] := by
    rw [← FQDN.undotted_append_dot]
    exact List.append_ne_nil_of_right_ne_nil _ (List.cons_ne_nil _ _)
  have hdots : trimEnd '.' (trimStart '.' d.name.display) ++ ['.'] = d.name.display := by
    rcases htrim with h | ⟨h, hroot⟩
    · rw [h]
      exact FQDN.undotted_append_dot d.name
    · rw [h, hroot]
      rfl
  rw [permissiveDomain, if_neg hne, hdots, LawfulHost.fqdnFromAsciiStr_display]

end Query

end Felidae
