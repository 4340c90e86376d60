import Felidae.Chain.Provenance

/-!
# How the casts of a run end

An observation that is accepted in a run casts its vote, and the cast ends in one of four ways. The
label of the way it ends is read off the moment by running the cast again.
-/

namespace Felidae

section State

variable [Host] {s t : Store} {order : IterOrder} {o : Observe}

/-- An observation that is accepted casts its vote, which ends in some way. -/
theorem State.observe_eq_ok (h : State.observe order o s = (.ok (), t)) :
    ∃ now queue out, blockTime s = .ok now ∧ checkSubdomain o s = .ok () ∧
      oracleVoting s = .ok queue ∧
      queue.castOutcome order (observeVote o now) s = (.ok out, t) := by
  obtain ⟨_, _, hstamp, h⟩ := Exec.bind_eq_ok.mp h
  obtain ⟨-, rfl⟩ := Prod.mk.inj hstamp
  obtain ⟨now, _, htime, h⟩ := Exec.bind_eq_ok.mp h
  obtain ⟨hnow, rfl⟩ := Prod.mk.inj htime
  obtain ⟨_, _, hsub, h⟩ := Exec.bind_eq_ok.mp h
  obtain ⟨hcheck, rfl⟩ := Prod.mk.inj hsub
  obtain ⟨queue, _, hvoting, h⟩ := Exec.bind_eq_ok.mp h
  obtain ⟨hqueue, rfl⟩ := Prod.mk.inj hvoting
  rw [VoteQueue.cast_eq] at h
  obtain ⟨out, _, hcast, h⟩ := Exec.bind_eq_ok.mp h
  obtain ⟨-, rfl⟩ := Prod.mk.inj h
  exact ⟨now, queue, out, hnow, hcheck, hqueue, hcast⟩

/-- How the cast of an observation that is accepted at this moment ends, with the domain that is
observed and the block time. -/
def outcomeAt (m : Moment Store Event) :
    Option (PrefixOrderDomain × Time × Outcome OracleVoteValue) :=
  match m.event with
  | .act order (.observe o) (.ok _) =>
    match State.oracleVoting m.before, State.blockTime m.before with
    | .ok queue, .ok now =>
      (queue.castOutcome order (State.observeVote o now) m.before).1.toOption.map fun out ↦
        (.ofDomain o.observation.domain, now, out)
    | _, _ => none
  | _ => none

variable {m : Moment Store Event} {d : PrefixOrderDomain} {now : Time}
  {out : Outcome OracleVoteValue}

theorem outcomeAt_eq_some : outcomeAt m = some (d, now, out) ↔
    ∃ order o queue, m.event = .act order (.observe o) (.ok ()) ∧
      .ofDomain o.observation.domain = d ∧ State.oracleVoting m.before = .ok queue ∧
      State.blockTime m.before = .ok now ∧
      (queue.castOutcome order (State.observeVote o now) m.before).1 = .ok out := by
  constructor
  · intro h
    rw [outcomeAt] at h
    split at h
    next order o _ hevent =>
      split at h
      next queue now' hqueue hnow =>
        obtain ⟨out', hout, h⟩ := Option.map_eq_some_iff.mp h
        obtain ⟨hd, h⟩ := Prod.mk.inj h
        obtain ⟨rfl, rfl⟩ := Prod.mk.inj h
        refine ⟨order, o, queue, hevent, hd, hqueue, hnow, ?_⟩
        rcases hrun : (queue.castOutcome order (State.observeVote o now') m.before).1 with e | a
          <;> rw [hrun] at hout
        · cases hout
        · exact congrArg Except.ok (Option.some.inj hout)
      next => cases h
    next => cases h
  · rintro ⟨order, o, queue, hevent, rfl, hqueue, hnow, hout⟩
    simp only [outcomeAt, hevent, hqueue, hnow, hout]
    rfl

end State

section Runs

variable [Host] {genesis : InitChain} {requests : List FinalizeBlock}
  {ms : List (Moment Store Event)} {s : Store} {m : Moment Store Event}

/-- Every observation that is accepted in a run ends in some way. -/
theorem Run.exists_outcomeAt (hrun : Run genesis requests ms s) (hm : m ∈ ms) {order : IterOrder}
    {o : Observe} (hevent : m.event = .act order (.observe o) (.ok ())) :
    ∃ now out, outcomeAt m = some (.ofDomain o.observation.domain, now, out) := by
  obtain ⟨now, queue, out, hnow, -, hqueue, hcast⟩ :=
    State.observe_eq_ok (hrun.applyAction_of_mem hm hevent)
  exact ⟨now, out, outcomeAt_eq_some.mpr
    ⟨order, o, queue, hevent, rfl, hqueue, hnow, congrArg Prod.fst hcast⟩⟩

variable [LawfulHost] {h : List (Moment Ledger Event)} {L : Ledger} {d : PrefixOrderDomain}
  {now : Time} {out : Outcome OracleVoteValue}

/-- At the moment of the ledger the vote is cast, and ends in the way that is read off the store. -/
theorem Shown.castAt (hshown : Shown ms s h L) (hrun : Run genesis requests ms s) (hm : m ∈ ms)
    (hout : outcomeAt m = some (d, now, out)) :
    ∃ newer M older party v L₁, h = newer ++ M :: older ∧ Represents m.before M.before ∧
      M.before.Sound ∧ M.before.time = some now ∧ CastAt M .oracle d party now.second v ∧
      Represents m.after L₁ ∧ L₁.Sound ∧ FQDN.ProperAncestor v.zone.name d.name ∧
      M.before.CastEnds .oracle d party now.second v out L₁ := by
  obtain ⟨order, o, queue, hevent, rfl, hqueue, hnow, hout⟩ := outcomeAt_eq_some.mp hout
  obtain ⟨now', queue', out', hnow', -, hqueue', hcast⟩ :=
    State.observe_eq_ok (hrun.applyAction_of_mem hm hevent)
  obtain rfl := Except.ok.inj (hnow.symm.trans hnow')
  obtain rfl := Except.ok.inj (hqueue.symm.trans hqueue')
  obtain rfl := Except.ok.inj (hout.symm.trans (congrArg Prod.fst hcast))
  obtain ⟨M, hM, hshow⟩ := hshown.exists_of_mem hm
  obtain ⟨newer, older, rfl⟩ := List.append_of_mem hM
  have hist := hshown.history
  have hsound : M.before.Sound := LedgerHistory.sound hist.split.1
  have hstep := hist.split.2
  rw [← hshow.event, hevent] at hstep
  obtain ⟨before, event, after⟩ := M
  cases hstep with
  | @accept _ _ _ now' htime _ hpermits hcasts =>
    have hs : Represents m.before before := hshow.before
    obtain rfl := Except.ok.inj (hs.oracleVoting.symm.trans hqueue)
    have hclean := OracleVoteValue.clean ⟨o.observation.hashObserved, o.observation.zone⟩
    obtain ⟨out', t, L₁, hcast', ht, hends⟩ := hs.castOutcome hsound .oracle order
      (.ofDomain o.observation.domain) o.oracle.identity now hclean hpermits.2.2.below
    obtain ⟨hout', rfl⟩ := Prod.mk.inj (hcast.symm.trans hcast')
    obtain rfl := Except.ok.inj hout'
    obtain rfl := Option.some.inj (htime.symm.trans (okOr_eq_ok.mp (hs.blockTime.symm.trans hnow)))
    exact ⟨newer, _, older, _, _, L₁, rfl, hs, hsound, htime,
      ⟨⟨order, _, now', hshow.event.symm.trans hevent, htime, rfl, .observe o, hpermits⟩, hcasts⟩,
      ht, hsound.cast (q := .oracle) hclean hpermits.2.2.below hends.cast, hpermits.2.2.below,
      hends⟩

/-- What the cast of an observation does to the ledger, by the way it ends. -/
theorem Shown.castEnds (hshown : Shown ms s h L) (hrun : Run genesis requests ms s) (hm : m ∈ ms)
    (hout : outcomeAt m = some (d, now, out)) :
    ∃ L₀ L₁ party v, Represents m.before L₀ ∧ L₀.Sound ∧ L₀.time = some now ∧
      Represents m.after L₁ ∧ L₁.Sound ∧ FQDN.ProperAncestor v.zone.name d.name ∧
      L₀.CastEnds .oracle d party now.second v out L₁ := by
  obtain ⟨-, M, -, party, v, L₁, -, hs, hL, hnow, -, ht, hL₁, hfits, hends⟩ :=
    hshown.castAt hrun hm hout
  exact ⟨M.before, L₁, party, v, hs, hL, hnow, ht, hL₁, hfits, hends⟩

/-- The value that wins is the vote of an observation of the run, which may be the one that is cast
at this moment. -/
theorem Shown.exists_observe_of_winner (hshown : Shown ms s h L) (hrun : Run genesis requests ms s)
    (hm : m ∈ ms) (hout : outcomeAt m = some (d, now, out)) {w : OracleVoteValue}
    (hw : out.winner? = some w) :
    ∃ o, AcceptedIn ms o ∧ .ofDomain o.observation.domain = d ∧
      ⟨o.observation.hashObserved, o.observation.zone⟩ = w := by
  obtain ⟨newer, M, older, party, v, L₁, rfl, -, -, -, hcast, -, -, -, hends⟩ :=
    hshown.castAt hrun hm hout
  have hquorum := hends.hasQuorum hw
  rw [Ledger.queue_record] at hquorum
  obtain ⟨⟨p, t, hp⟩, -⟩ := hquorum
  obtain ⟨newer', X, older', hsplit, hX, -⟩ :=
    LedgerHistory.counted_origin hshown.history hcast hp
  obtain ⟨x, hx, hshow⟩ := hshown.exists_shows (List.mem_append_right newer
    (hsplit ▸ List.mem_append_right newer' (List.mem_cons_self (l := older'))))
  obtain ⟨order, action, _, hevent, -, -, hvotes, -⟩ := hX.accepted
  cases hvotes with
  | observe o => exact ⟨o, ⟨x, hx, order, hshow.event.trans hevent⟩, rfl, rfl⟩

end Runs

end Felidae
