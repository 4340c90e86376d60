import Felidae.Chain.Outcomes
import Felidae.Reference

/-!
# The registered domain

The limit on subdomains is counted against the name one label below the zone. `observe` computes it
from the name and the zone of an observation, and `cast` once more from the text of a key and a zone
that has been encoded and decoded. Both are the same, and neither can fail.
-/

namespace Felidae

/-- What an observation is counted against: the name at or above its domain that is one label longer
than its zone, of which there is one. -/
structure CountedAgainst (name zone r : FQDN) : Prop where
  above : name.isSubdomainOf r
  depth : r.depth = zone.depth + 1
  unique : ∀ r' : FQDN, name.isSubdomainOf r' → r'.depth = zone.depth + 1 → r' = r

theorem FQDN.countedAgainst_registered {name zone : FQDN} (h : ProperAncestor zone name) :
    CountedAgainst name zone (registered name zone) where
  above := isSubdomainOf_registered
  depth := length_registered h
  unique _ hsub hdepth := (registered_eq hdepth hsub h.depth_lt).symm

section Host

variable [Host]

/-- Whatever the other checks say, an observation of a proper subdomain of its zone gets past the
computation of the registered domain; and no other one passes. -/
theorem State.properAncestor_of_checkSubdomain {o : Observe} {s : Store}
    (h : checkSubdomain o s = .ok ()) :
    FQDN.ProperAncestor o.observation.zone.name o.observation.domain.name := by
  rw [checkSubdomain] at h
  obtain ⟨⟨⟩, hne, h⟩ := except_bind_eq_ok.mp h
  obtain ⟨⟨⟩, hsub, -⟩ := except_bind_eq_ok.mp h
  exact ⟨fun heq ↦ (decides_bailIf _ _).iff.mp hne heq.symm,
    not_not.mp ((decides_bailIf _ _).iff.mp hsub)⟩

/-- What an observation is counted against, when it is made, and once more when the value that it
votes for wins: then it is computed from the text of its key, which is parsed, and from that value,
which is encoded and decoded. -/
structure Recounted (o : Observe) (r : FQDN) : Prop where
  observed : State.registeredDomain o.observation.domain.name o.observation.zone.name = .ok ⟨r⟩
  counted : CountedAgainst o.observation.domain.name o.observation.zone.name r
  parsed : PrefixOrderDomain.fromStr (QueueKey.toText (PrefixOrderDomain.ofDomain
    o.observation.domain)) = some (.ofDomain o.observation.domain)
  recomputed : State.recomputedDomain (.ofDomain o.observation.domain)
    (⟨o.observation.hashObserved, o.observation.zone⟩ : OracleVoteValue) = .ok (some ⟨r⟩)
  checked : ∀ (c : Config) (s : Store), (QueueId.oracle.queue c).withinSubdomainLimit
      (QueueKey.toText (PrefixOrderDomain.ofDomain o.observation.domain))
      ⟨o.observation.hashObserved, o.observation.zone⟩ s
    = State.passes (State.checkSubdomainLimitBeforePendingExact
        (.ofDomain o.observation.domain) ⟨r⟩ s)

variable [LawfulHost]

/-- An observation below its zone is counted against one name, whichever way that is computed. -/
theorem exists_recounted {o : Observe}
    (h : FQDN.ProperAncestor o.observation.zone.name o.observation.domain.name) :
    ∃ r, Recounted o r := by
  have hregistered := State.registeredDomain_eq h
  have hrecomputed : State.recomputedDomain (.ofDomain o.observation.domain)
      (⟨o.observation.hashObserved, o.observation.zone⟩ : OracleVoteValue)
        = .ok (some ⟨o.observation.domain.name.registered o.observation.zone.name⟩) := by
    rw [State.recomputedDomain_eq]
    exact congrArg (Except.map some) hregistered
  exact ⟨_, hregistered, FQDN.countedAgainst_registered h, PrefixOrderDomain.fromStr_display _,
    hrecomputed, VoteQueue.withinSubdomainLimit_eq hrecomputed⟩

/-- A stored vote was cast by an observation that was accepted. -/
theorem Shown.exists_observe_of_storedVote {ms : List (Moment Store Event)} {s t : Store}
    {h : List (Moment Ledger Event)} {L : Ledger} (hshown : Shown ms s h L) (ht : Visited ms s t)
    {vote : Vote PrefixOrderDomain OracleVoteValue} (hstored : StoredVote .oracle t vote) :
    ∃ o time, AcceptedIn ms o ∧ State.observeVote o time = vote := by
  obtain ⟨older, L', hsuffix, hist, hs⟩ := hshown.exists_upTo ht
  obtain ⟨e, he, hread⟩ := (hs.storedVote_iff (LedgerHistory.sound hist)).mp hstored
  obtain ⟨newer, M, older', rfl, hcast, -⟩ := LedgerHistory.vote_origin hist he
  obtain ⟨order, action, now, hevent, -, -, hvotes, -⟩ := hcast.accepted
  obtain ⟨m, hm, hshow⟩ := hshown.exists_shows
    (hsuffix.subset (List.mem_append_right _ List.mem_cons_self))
  obtain ⟨party, time, key, value⟩ := vote
  obtain ⟨rfl, rfl, -, rfl⟩ := Vote.mk.inj hread
  obtain ⟨p, t', v⟩ := e
  cases hvotes with
  | observe o => exact ⟨o, _, ⟨m, hm, order, hshow.event.trans hevent⟩, rfl⟩

/-- An observation that passes the checks is of a name below its zone, and its registered domain is
found: the one name at or above it with one label more than the zone. In every run, `cast` computes
that domain again for every vote that is stored, and for every value that wins. -/
theorem Run.registeredDomain_recomputed {genesis : InitChain} {requests : List FinalizeBlock}
    {ms : List (Moment Store Event)} {s t : Store} (hrun : Run genesis requests ms s)
    (ht : Visited ms s t) :
    (∀ o s', State.checkSubdomain o s' = .ok () →
      FQDN.ProperAncestor o.observation.zone.name o.observation.domain.name) ∧
    (∀ o : Observe, FQDN.ProperAncestor o.observation.zone.name o.observation.domain.name →
      ∃ r, Recounted o r) ∧
    (∀ o, AcceptedIn ms o → ∃ r, Recounted o r) ∧
    (∀ vote, StoredVote .oracle t vote → ∃ o time r, AcceptedIn ms o ∧
      State.observeVote o time = vote ∧ Recounted o r) ∧
    ∀ m ∈ ms, ∀ d now out w, outcomeAt m = some (d, now, out) → out.winner? = some w →
      ∃ o r, AcceptedIn ms o ∧ .ofDomain o.observation.domain = d ∧
        ⟨o.observation.hashObserved, o.observation.zone⟩ = w ∧ Recounted o r := by
  obtain ⟨h, L, hshown⟩ := hrun.exists_shown
  have haccepted : ∀ o, AcceptedIn ms o → ∃ r, Recounted o r := by
    rintro o ⟨m, hm, order, hevent⟩
    obtain ⟨-, -, -, -, hcheck, -⟩ := State.observe_eq_ok (hrun.applyAction_of_mem hm hevent)
    exact exists_recounted (State.properAncestor_of_checkSubdomain hcheck)
  refine ⟨fun o s' ↦ State.properAncestor_of_checkSubdomain, fun o ↦ exists_recounted, haccepted,
    fun vote hstored ↦ ?_, fun m hm d now out w hout hw ↦ ?_⟩
  · obtain ⟨o, time, ho, hvote⟩ := hshown.exists_observe_of_storedVote ht hstored
    obtain ⟨r, hr⟩ := haccepted o ho
    exact ⟨o, time, r, ho, hvote, hr⟩
  · obtain ⟨o, ho, hd, hw'⟩ := hshown.exists_observe_of_winner hrun hm hout hw
    obtain ⟨r, hr⟩ := haccepted o ho
    exact ⟨o, r, ho, hd, hw', hr⟩

end Host

namespace Reference

/-- A value wins, and before that a vote is stored. -/
def decidesStored (m : Moment Store Event) : Bool :=
  ((outcomeAt m).bind fun e ↦ e.2.2.winner?).isSome && hasVote m.before

/-- In the third block the second vote is cast: the first one is stored until then, and the value
of both wins. -/
theorem registeredDomain_recomputed_lapsing : ∃ ms s, Run genesis lapsing ms s ∧
    ∃ m ∈ ms, (∃ vote, StoredVote .oracle m.before vote ∧ ∃ o time r, AcceptedIn ms o ∧
      State.observeVote o time = vote ∧ Recounted o r) ∧
    ∃ d now out w, outcomeAt m = some (d, now, out) ∧ out.winner? = some w ∧
      ∃ o r, AcceptedIn ms o ∧ .ofDomain o.observation.domain = d ∧
        ⟨o.observation.hashObserved, o.observation.zone⟩ = w ∧ Recounted o r := by
  obtain ⟨ms, s, hrun, hany⟩ := exists_run_of_any genesis listed lapsing
    (fun r ↦ r.1.any decidesStored) (by decide +kernel)
  obtain ⟨m, hm, hdecides⟩ := List.any_eq_true.mp hany
  obtain ⟨hwins, hstored⟩ := Bool.and_eq_true_iff.mp hdecides
  obtain ⟨vote, hvote, -⟩ := exists_storedVote hstored
  obtain ⟨w, hw⟩ := Option.isSome_iff_exists.mp hwins
  obtain ⟨⟨d, now, out⟩, hout, hw⟩ := Option.bind_eq_some_iff.mp hw
  obtain ⟨-, -, -, hstored, hwinner⟩ :=
    Run.registeredDomain_recomputed hrun (.inr ⟨m, hm, .inl rfl⟩)
  exact ⟨ms, s, hrun, m, hm, ⟨vote, hvote, hstored vote hvote⟩, d, now, out, w, hout, hw,
    hwinner m hm d now out w hout hw⟩

end Reference

end Felidae
