import Felidae.Properties.CanonicalScans
import Felidae.Properties.Timers
import Felidae.Service.Query

/-!
# The queries for a domain

The query server looks for the votes and the pending observations whose text starts with that of the
domain and a dot. So it finds those of the subdomains, and not those of the domain that was asked
for; for the root, which is asked for without a dot, it finds all. The snapshot of a domain has the
domain itself.
-/

namespace Felidae

section Host

variable [Host]

namespace Query

/-- The answer is all votes at or below the domain, each once. -/
def VotesComplete (path : Str) (d : Domain) (s : Store) : Prop :=
  ∃ answer, getEnrollmentVotes path s = .ok answer ∧ answer.Nodup ∧
    ∀ v, v ∈ answer ↔ ∃ vote, StoredVote .oracle s vote ∧ vote.key.name.isSubdomainOf d.name ∧
      v = oracleVote vote

/-- The answer is all pending observations at or below the domain, each once. -/
def PendingComplete (path : Str) (d : Domain) (s : Store) : Prop :=
  ∃ answer, getEnrollmentPending path s = .ok answer ∧ answer.Nodup ∧
    ∀ p, p ∈ answer ↔ ∃ k t v, HasPending .oracle k t v s ∧ k.name.isSubdomainOf d.name ∧
      p = pendingObservation (t.toTime, k, v)

/-- The answer is all that is canonical at or below the domain. -/
def SnapshotComplete (path : Str) (d : Domain) (s : Store) : Prop :=
  ∃ es : List (Domain × Hash32), getSnapshot path s = .ok (es.map .ok) ∧
    ∀ e, e ∈ es ↔ State.canonicalHash e.1 s = .ok (some e.2) ∧ e.1.name.isSubdomainOf d.name

end Query

variable [LawfulHost] {s : Store} {L : Ledger}

omit [Host] [LawfulHost] in
/-- What the scan of a domain meets: the keys below it, and for the root all keys. -/
theorem Query.delimited_prefix_iff {d : Domain} {k : PrefixOrderDomain} :
    (PrefixOrderDomain.ofDomain d).display ++ (delimiter d).toList <+: k.display ↔
      k.name.isSubdomainOf d.name ∧ (d.name = .root ∨ k ≠ .ofDomain d) := by
  by_cases hroot : d.name = .root
  · rw [delimiter, if_neg (not_not.mpr hroot), Option.toList_none, List.append_nil,
      PrefixOrderDomain.display, show (PrefixOrderDomain.ofDomain d).name = .root from hroot]
    refine iff_of_true k.dot_prefix_display ⟨?_, .inl hroot⟩
    rw [hroot]
    exact List.nil_suffix
  · rw [delimiter, if_pos hroot, Option.toList_some,
      PrefixOrderDomain.display_dot_prefix_iff (FQDN.labels_ne_nil_iff.mpr hroot),
      or_iff_right hroot, FQDN.ProperAncestor, and_comm]
    refine and_congr_right fun _ ↦ not_congr ⟨fun h ↦ ?_, fun h ↦ by rw [h]⟩
    cases k
    exact congrArg _ h.symm

omit [Host] [LawfulHost] in
theorem Query.slash_notMem_delimiter (d : Domain) : '/' ∉ (delimiter d).toList := by
  rw [delimiter]
  split_ifs <;> decide

namespace Represents

/-- The votes that are found: those below the domain, and for the root all. -/
theorem enrollmentVotes (h : Represents s L) (hL : L.Sound) (d : Domain) :
    ∃ answer, Query.enrollmentVotes d s = .ok answer ∧ answer.Nodup ∧
      ∀ v, v ∈ answer ↔ ∃ vote, StoredVote .oracle s vote ∧ vote.key.name.isSubdomainOf d.name ∧
        (d.name = .root ∨ vote.key ≠ .ofDomain d) ∧ v = Query.oracleVote vote := by
  obtain ⟨es, hes, hmem, hnodup⟩ := h.votesForKeyPrefix hL .oracle L.config (.ofDomain d)
    (Query.slash_notMem_delimiter d)
  refine ⟨es.map fun e ↦ Query.oracleVote (QueueId.oracle.readEntry e.1 e.2), ?_, ?_, fun v ↦ ?_⟩
  · rw [Query.enrollmentVotes, h.oracleVoting, except_ok_bind, hes, except_ok_bind]
    exact congrArg Except.ok (List.map_map ..)
  · refine List.Nodup.map_on (fun e he e' he' heq ↦ ?_) hnodup
    have hkey : e.1 = e'.1 := PrefixOrderDomain.toDomain_injective (congrArg OracleVote.domain heq)
    have hparty : e.2.1 = e'.2.1 := hexEncode_injective (congrArg OracleVote.oracle heq)
    have hvote := ((hmem e).mp he).1
    rw [hkey, hparty, ((hmem e').mp he').1, Option.some_inj] at hvote
    exact Prod.ext hkey (Prod.ext hparty hvote.symm)
  · rw [List.mem_map]
    constructor
    · rintro ⟨e, he, rfl⟩
      obtain ⟨hvote, hstart⟩ := (hmem e).mp he
      obtain ⟨hsub, hself⟩ := Query.delimited_prefix_iff.mp hstart
      exact ⟨_, (h.storedVote_iff hL).mpr ⟨e.2, hvote, rfl⟩, hsub, hself, rfl⟩
    · rintro ⟨vote, hstored, hsub, hself, rfl⟩
      obtain ⟨e, he, hread⟩ := (h.storedVote_iff hL).mp hstored
      exact ⟨(vote.key, e), (hmem _).mpr ⟨he, Query.delimited_prefix_iff.mpr ⟨hsub, hself⟩⟩,
        congrArg Query.oracleVote hread⟩

/-- The pending observations that are found: those below the domain, and for the root all. -/
theorem enrollmentPending (h : Represents s L) (hL : L.Sound) (d : Domain) :
    ∃ answer, Query.enrollmentPending d s = .ok answer ∧ answer.Nodup ∧
      ∀ p, p ∈ answer ↔ ∃ k t v, HasPending .oracle k t v s ∧ k.name.isSubdomainOf d.name ∧
        (d.name = .root ∨ k ≠ .ofDomain d) ∧ p = Query.pendingObservation (t.toTime, k, v) := by
  obtain ⟨es, hes, hmem, hnodup⟩ := h.pendingForKeyPrefix hL .oracle L.config (.ofDomain d)
    (Query.slash_notMem_delimiter d)
  refine ⟨es.map fun e ↦ Query.pendingObservation (e.2.1.toTime, e.1, e.2.2), ?_, ?_, fun p ↦ ?_⟩
  · rw [Query.enrollmentPending, h.oracleVoting, except_ok_bind, hes, except_ok_bind]
    exact congrArg Except.ok (List.map_map ..)
  · refine List.Nodup.map_on (fun e he e' he' heq ↦ ?_) hnodup
    have hkey : e.1 = e'.1 :=
      PrefixOrderDomain.toDomain_injective (congrArg PendingObservation.domain heq)
    have hpending := ((hmem e).mp he).1
    rw [hkey, ((hmem e').mp he').1, Option.some_inj] at hpending
    exact Prod.ext hkey hpending.symm
  · rw [List.mem_map]
    constructor
    · rintro ⟨e, he, rfl⟩
      obtain ⟨hpending, hstart⟩ := (hmem e).mp he
      obtain ⟨hsub, hself⟩ := Query.delimited_prefix_iff.mp hstart
      exact ⟨e.1, e.2.1, e.2.2, (h.hasPending_iff hL).mpr hpending, hsub, hself, rfl⟩
    · rintro ⟨k, t, v, hpending, hsub, hself, rfl⟩
      exact ⟨(k, t, v), (hmem _).mpr ⟨(h.hasPending_iff hL).mp hpending,
        Query.delimited_prefix_iff.mpr ⟨hsub, hself⟩⟩, rfl⟩

end Represents

namespace Query

variable {path : Str} {d : Domain}

theorem votesComplete_iff (h : Represents s L) (hL : L.Sound)
    (hpath : permissiveDomain path = .ok d) : VotesComplete path d s ↔
      d.name = .root ∨ ∀ vote, StoredVote .oracle s vote → vote.key ≠ .ofDomain d := by
  obtain ⟨answer, hanswer, hnodup, hmem⟩ := h.enrollmentVotes hL d
  have hget : getEnrollmentVotes path s = .ok answer := by
    rw [getEnrollmentVotes, hpath, except_ok_bind, hanswer]
  constructor
  · rintro ⟨answer', hget', -, hmem'⟩
    obtain rfl := Except.ok.inj (hget'.symm.trans hget)
    refine or_iff_not_imp_left.mpr fun hroot vote hstored heq ↦ ?_
    have hlisted := (hmem' _).mpr ⟨vote, hstored, heq ▸ List.suffix_rfl, rfl⟩
    obtain ⟨vote', -, -, hself, hread⟩ := (hmem _).mp hlisted
    have hkey : vote.key = vote'.key :=
      PrefixOrderDomain.toDomain_injective (congrArg OracleVote.domain hread)
    exact hself.resolve_left hroot (hkey.symm.trans heq)
  · refine fun hnone ↦ ⟨answer, hget, hnodup, fun v ↦ (hmem v).trans (exists_congr fun vote ↦ ?_)⟩
    refine and_congr_right fun hstored ↦ and_congr_right fun _ ↦ and_iff_right ?_
    exact hnone.imp_right fun h ↦ h vote hstored

theorem pendingComplete_iff (h : Represents s L) (hL : L.Sound)
    (hpath : permissiveDomain path = .ok d) : PendingComplete path d s ↔
      d.name = .root ∨ HasNoPending .oracle (.ofDomain d) s := by
  obtain ⟨answer, hanswer, hnodup, hmem⟩ := h.enrollmentPending hL d
  have hget : getEnrollmentPending path s = .ok answer := by
    rw [getEnrollmentPending, hpath, except_ok_bind, hanswer]
  constructor
  · rintro ⟨answer', hget', -, hmem'⟩
    obtain rfl := Except.ok.inj (hget'.symm.trans hget)
    refine or_iff_not_imp_left.mpr fun hroot ↦ (h.hasNoPending_iff hL).mpr ?_
    by_contra hsome
    obtain ⟨⟨t, v⟩, hpending⟩ := Option.ne_none_iff_exists'.mp hsome
    have hlisted := (hmem' _).mpr
      ⟨.ofDomain d, t, v, (h.hasPending_iff hL).mpr hpending, List.suffix_rfl, rfl⟩
    obtain ⟨k, _, _, -, -, hself, hread⟩ := (hmem _).mp hlisted
    have hkey : PrefixOrderDomain.ofDomain d = k :=
      PrefixOrderDomain.toDomain_injective (congrArg PendingObservation.domain hread)
    exact hself.resolve_left hroot hkey.symm
  · refine fun hnone ↦ ⟨answer, hget, hnodup, fun p ↦ (hmem p).trans ?_⟩
    refine exists_congr fun k ↦ exists_congr fun t ↦ exists_congr fun v ↦ ?_
    refine and_congr_right fun hpending ↦ and_congr_right fun _ ↦ and_iff_right ?_
    refine hnone.imp_right fun hno heq ↦ ?_
    exact (heq ▸ hpending : HasPending .oracle (.ofDomain d) t v s).not_hasNoPending hno

theorem snapshotComplete (h : Represents s L) (hpath : permissiveDomain path = .ok d) :
    SnapshotComplete path d s := by
  obtain ⟨es, hes, hmem⟩ := h.canonicalSubdomainsHashes (.ofDomain d)
  refine ⟨es.map fun e ↦ (e.1.toDomain, e.2), ?_, fun e ↦ ?_⟩
  · rw [getSnapshot, hpath, except_ok_bind, List.map_map]
    exact hes
  · rw [show e.1 = (PrefixOrderDomain.ofDomain e.1).toDomain from rfl, h.canonicalHash,
      Except.ok.injEq, List.mem_map]
    constructor
    · rintro ⟨x, hx, rfl⟩
      exact (hmem x).mp hx
    · exact fun he ↦ ⟨(.ofDomain e.1, e.2), (hmem _).mpr he, rfl⟩

end Query

/-- In every state of every run, the votes and the pending observations found for a domain are all
those at or below it exactly if it is the root, or none is stored for the domain itself; the
snapshot of a domain is always all that is canonical at or below it. -/
theorem Run.queries_complete_iff {genesis : InitChain} {requests : List FinalizeBlock}
    {ms : List (Moment Store Event)} {s t : Store} (hrun : Run genesis requests ms s)
    (ht : Visited ms s t) {path : Str} {d : Domain}
    (hpath : Query.permissiveDomain path = .ok d) :
    (Query.VotesComplete path d t ↔
      d.name = .root ∨ ∀ vote, StoredVote .oracle t vote → vote.key ≠ .ofDomain d) ∧
    (Query.PendingComplete path d t ↔ d.name = .root ∨ HasNoPending .oracle (.ofDomain d) t) ∧
    Query.SnapshotComplete path d t := by
  obtain ⟨L, h, hL⟩ := hrun.exists_represents ht
  exact ⟨Query.votesComplete_iff h hL hpath, Query.pendingComplete_iff h hL hpath,
    Query.snapshotComplete h hpath⟩

end Host

namespace Reference

/-- Something is pending for the domain, and nothing is found. -/
def missed (s : Store) : Bool :=
  match pendingAt s with
  | some [(t, _)] => decide (t = timeAt 20) &&
    decide ((Query.getEnrollmentPending www.name.display s).toOption = some [])
  | _ => false

theorem not_pendingComplete_of_missed {s : Store} (h : missed s = true) :
    ¬Query.PendingComplete www.name.display www.toDomain s := by
  rintro ⟨answer, hanswer, -, hmem⟩
  rw [missed] at h
  split at h
  next t v hpending =>
    obtain ⟨htime, hnone⟩ := Bool.and_eq_true_iff.mp h
    obtain rfl := of_decide_eq_true htime
    rw [hanswer] at hnone
    have hnil : answer = [] := Option.some.inj (of_decide_eq_true hnone)
    have hlisted := (hmem _).mpr ⟨www, (timeAt 20).second, v,
      hasPending_of_pendingAt hpending, List.suffix_rfl, rfl⟩
    rw [hnil] at hlisted
    cases hlisted
  next => cases h

/-- While the observation of `www.example.com` is pending, a query for it finds nothing. -/
theorem not_pendingComplete_awaiting : ∃ ms s, Run genesis awaiting ms s ∧
    Query.permissiveDomain www.name.display = .ok www.toDomain ∧
    ¬Query.PendingComplete www.name.display www.toDomain s := by
  obtain ⟨ms, s, hrun, hmissed⟩ := exists_run_of_any genesis listed awaiting
    (fun r ↦ missed r.2) (by decide +kernel)
  exact ⟨ms, s, hrun, Query.permissiveDomain_display www.toDomain,
    not_pendingComplete_of_missed hmissed⟩

/-- While the vote for `www.example.com` is stored, a query for it does not find it. -/
theorem queries_complete_iff_voting : ∃ ms s, Run genesis voting ms s ∧
    ¬Query.VotesComplete www.name.display www.toDomain s ∧
    Query.PendingComplete www.name.display www.toDomain s ∧
    Query.SnapshotComplete www.name.display www.toDomain s := by
  obtain ⟨ms, s, hrun, htest⟩ := exists_run_of_any genesis listed voting
    (fun r ↦ hasVote r.2 && decide (pendingAt r.2 = some [])) (by decide +kernel)
  obtain ⟨hvote, hnone⟩ := Bool.and_eq_true_iff.mp htest
  obtain ⟨vote, hstored, hkey⟩ := exists_storedVote hvote
  obtain ⟨hvotes, hpending, hsnapshot⟩ := Run.queries_complete_iff hrun (.inl rfl)
    (Query.permissiveDomain_display www.toDomain)
  refine ⟨ms, s, hrun, fun hcomplete ↦ ?_,
    hpending.mpr (.inr (pendingUnder_of_pendingAt (of_decide_eq_true hnone))), hsnapshot⟩
  rcases hvotes.mp hcomplete with hroot | hother
  · exact absurd hroot (by decide)
  · exact hother vote hstored hkey

end Reference

end Felidae
