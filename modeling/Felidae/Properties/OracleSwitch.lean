import Felidae.Chain.Provenance
import Felidae.Chain.Refusal
import Felidae.Reference

/-!
# The oracle switch

`oracles.enabled` is read from the genesis and carried through every reconfiguration, but no check
of `observe` looks at it: with the oracles switched off, an authorized oracle may still observe.
What keeps a run to the switch are the other checks: it does if, while the switch is off, only
observations are delivered whose signers the config does not list, or that have timed out.
-/

open Classical

namespace Felidae

namespace State

variable [Host]

/-- The config in force has the oracles switched off. -/
def SwitchedOff (s : Store) : Prop := ∃ c, config s = .ok c ∧ c.oracles.enabled = false

end State

section Ledger

variable [Host] {s : Store} {L : Ledger}

theorem Represents.switchedOff_iff (h : Represents s L) :
    State.SwitchedOff s ↔ L.config.oracles.enabled = false := by
  constructor
  · rintro ⟨c, hc, hoff⟩
    rwa [← Except.ok.inj (h.config.symm.trans hc)] at hoff
  · exact fun hoff ↦ ⟨_, h.config, hoff⟩

end Ledger

/-- What the switch should come to: while it is off no observation is accepted, nothing is added
to the oracle queue, and what becomes canonical was observed while it was on. -/
structure OracleSwitch [Host] (ms : List (Moment Store Event)) (h : List (Moment Ledger Event)) :
    Prop where
  refused : ∀ m ∈ ms, ∀ order o result, m.event = .act order (.observe o) result →
    State.SwitchedOff m.before → ∃ e, result = .error e
  no_vote : ∀ m ∈ h, m.before.config.oracles.enabled = false → ∀ d p e,
    (m.after.queue .oracle).votes d p = some e → (m.before.queue .oracle).votes d p = some e
  no_pending : ∀ m ∈ h, m.before.config.oracles.enabled = false → ∀ d e,
    (m.after.queue .oracle).pending d = some e → (m.before.queue .oracle).pending d = some e
  /-- Of every canonical change, all the votes that were counted. -/
  canonical : ∀ newer m older, h = newer ++ m :: older → ∀ d,
    m.after.canonical d ≠ m.before.canonical d → ∃ t w, PromotedAt m d t w ∧
      ∃ newer' x older' party v, older = newer' ++ x :: older' ∧ EnqueuedAt x .oracle d t w ∧
        CastAt x .oracle d party t v ∧
        ∀ p e, ((x.before.queue .oracle).record d party t v).votes d p = some e →
          ∃ y ∈ x :: older', CastAt y .oracle d p e.1 e.2 ∧
            y.before.config.oracles.enabled = true

section Runs

variable [Host] [LawfulHost] {ms : List (Moment Store Event)} {s : Store}
  {h : List (Moment Ledger Event)} {L : Ledger}

omit [Host] [LawfulHost] in
/-- Every vote was cast with the switch on, if no observation is accepted with the switch off. -/
theorem CastAt.enabled {m : Moment Ledger Event} {d : PrefixOrderDomain} {p : Bytes} {t : Second}
    {v : OracleVoteValue} (hm : CastAt m .oracle d p t v)
    (hoff : ∀ order o, m.event = .act order (.observe o) (.ok ()) →
      m.before.config.oracles.enabled ≠ false) : m.before.config.oracles.enabled = true := by
  obtain ⟨order, action, now, hevent, -, -, hvotes, -⟩ := hm.accepted
  cases hvotes with
  | observe o => exact Bool.eq_true_of_not_eq_false (hoff order o hevent)

/-- If no observation is accepted with the switch off, the run keeps to the switch. -/
theorem Shown.oracleSwitch_of_refused (hshown : Shown ms s h L)
    (hrefused : ∀ m ∈ ms, ∀ order o result, m.event = .act order (.observe o) result →
      State.SwitchedOff m.before → ∃ e, result = .error e) : OracleSwitch ms h := by
  have hist := hshown.history
  -- whatever was accepted had found the oracles enabled
  have hon : ∀ M ∈ h, ∀ order o, M.event = .act order (.observe o) (.ok ()) →
      M.before.config.oracles.enabled ≠ false := by
    intro M hM order o hevent hoff
    obtain ⟨m, hm, hshow⟩ := hshown.exists_shows hM
    obtain ⟨e, he⟩ := hrefused m hm order o _ (hshow.event.trans hevent)
      (hshow.before.switchedOff_iff.mpr hoff)
    cases he
  refine ⟨hrefused, fun M hM hoff d p e he ↦ ?_, fun M hM hoff d e he ↦ ?_, ?_⟩
  · refine ((hist.step_of_mem hM).vote he).resolve_left fun hcast ↦ ?_
    exact Bool.false_ne_true (hoff.symm.trans (hcast.enabled (hon M hM)))
  · refine ((hist.step_of_mem hM).pending he).resolve_left fun henqueued ↦ ?_
    obtain ⟨party, v, hcast, -⟩ := henqueued.won
    exact Bool.false_ne_true (hoff.symm.trans (hcast.enabled (hon M hM)))
  · rintro newer M older rfl d hne
    have hsound : M.before.Sound := LedgerHistory.sound hist.split.1
    -- what is enrolled was pending, and what was pending was voted for
    rcases hist.split.2.canonical hsound d with ⟨t, w, hpromoted⟩ | ⟨hsame, -⟩
    · obtain ⟨newer', x, older', rfl, henqueued, -⟩ :=
        LedgerHistory.pending_origin hist.split.1 hpromoted.pending
      obtain ⟨party, v, hcast, -⟩ := henqueued.won
      refine ⟨t, w, hpromoted, newer', x, older', party, v, rfl, henqueued, hcast,
        fun p e he ↦ ?_⟩
      obtain ⟨newer'', y, older'', hsplit, hy, -⟩ :=
        LedgerHistory.counted_origin hist.split.1 hcast he
      have hmem : y ∈ x :: older' := by
        rw [hsplit]
        exact List.mem_append_right _ List.mem_cons_self
      exact ⟨y, hmem, hy, hy.enabled (hon y (List.mem_append_right _
        (List.mem_cons_of_mem _ (List.mem_append_right _ hmem))))⟩
    · exact absurd hsame hne

/-- A run keeps to the switch if all observations that are delivered with the switch off are stale:
the config in force does not list their signers as oracles, or the blocks they are stamped with have
reached the observation timeout. -/
theorem Run.oracleSwitch_of_stale {genesis : InitChain} {requests : List FinalizeBlock}
    (hrun : Run genesis requests ms s) : ∃ h L, Shown ms s h L ∧
      ((∀ m ∈ ms, ∀ order o result, m.event = .act order (.observe o) result →
        State.SwitchedOff m.before → State.Stale o m.before) → OracleSwitch ms h) := by
  obtain ⟨h, L, hshown⟩ := hrun.exists_shown
  refine ⟨h, L, hshown, fun hstale ↦ hshown.oracleSwitch_of_refused
    fun m hm order o result hevent hoff ↦ (hshown.refuses_iff hm hevent).mp ?_⟩
  exact (hstale m hm order o result hevent hoff).refuses

end Runs

namespace Reference

/-- The chain is founded with the oracles switched off, and a domain observed. -/
def observingOff : List FinalizeBlock :=
  [blockAt 2 20 [observeByAlice], blockAt 1 10 [foundDisabled]]

/-- An observation is accepted with the switch off. -/
def acceptsOff (m : Moment Store Event) : Bool :=
  match m.event with
  | .act _ (.observe _) (.ok _) => (State.config m.before).toOption.any fun c ↦ !c.oracles.enabled
  | _ => false

theorem switchedOff_of_any {s : Store}
    (h : ((State.config s).toOption.any fun c ↦ !c.oracles.enabled) = true) :
    State.SwitchedOff s := by
  obtain ⟨c, hc, hoff⟩ := (Option.any_eq_true ..).mp h
  exact ⟨c, except_toOption_eq_some.mp hc, by simpa using hoff⟩

theorem exists_of_acceptsOff {m : Moment Store Event} (h : acceptsOff m = true) :
    ∃ order o, m.event = .act order (.observe o) (.ok ()) ∧ State.SwitchedOff m.before := by
  rw [acceptsOff] at h
  split at h
  next order o _ hevent => exact ⟨order, o, hevent, switchedOff_of_any h⟩
  next => cases h

/-- With the oracles switched off, an observation is accepted all the same. -/
theorem not_oracleSwitch_observingOff : ∃ ms s, Run genesis observingOff ms s ∧
    (∃ m ∈ ms, ∃ order o, m.event = .act order (.observe o) (.ok ()) ∧
      State.SwitchedOff m.before) ∧ ∀ h, ¬OracleSwitch ms h := by
  obtain ⟨ms, s, hrun, haccepts⟩ := exists_run_of_any genesis listed observingOff
    (fun r ↦ r.1.any acceptsOff) (by decide +kernel)
  obtain ⟨m, hm, hoff⟩ := List.any_eq_true.mp haccepts
  obtain ⟨order, o, hevent, hoff⟩ := exists_of_acceptsOff hoff
  refine ⟨ms, s, hrun, ⟨m, hm, order, o, hevent, hoff⟩, fun h hswitch ↦ ?_⟩
  obtain ⟨e, he⟩ := hswitch.refused m hm order o _ hevent hoff
  cases he

/-- The chain is founded with the oracles switched off, and somebody else observes a domain. -/
def intruding : List FinalizeBlock := [blockAt 2 20 [observeByBob], blockAt 1 10 [foundDisabled]]

/-- The observation at this moment, if there is one, is signed by nobody the config lists. -/
def signedByStranger (m : Moment Store Event) : Bool :=
  match m.event with
  | .act _ (.observe o) _ => (State.config m.before).toOption.any fun c ↦
      c.oracles.authorized.all fun oracle ↦ oracle.identity ≠ o.oracle.identity
  | _ => true

theorem unauthorized_of_signedByStranger {m : Moment Store Event} {order : IterOrder} {o : Observe}
    {result : Except Fault Unit} (hevent : m.event = .act order (.observe o) result)
    (h : signedByStranger m = true) : State.Unauthorized o m.before := by
  rw [signedByStranger, hevent] at h
  obtain ⟨c, hc, hall⟩ := (Option.any_eq_true ..).mp h
  exact ⟨c, except_toOption_eq_some.mp hc, fun oracle horacle ↦
    of_decide_eq_true (List.all_eq_true.mp hall _ horacle)⟩

/-- An observation is refused with the switch off. -/
def refusesOff (m : Moment Store Event) : Bool :=
  match m.event with
  | .act _ (.observe _) (.error _) =>
    (State.config m.before).toOption.any fun c ↦ !c.oracles.enabled
  | _ => false

theorem exists_of_refusesOff {m : Moment Store Event} (h : refusesOff m = true) :
    ∃ order o e, m.event = .act order (.observe o) (.error e) ∧ State.SwitchedOff m.before := by
  rw [refusesOff] at h
  split at h
  next order o e hevent => exact ⟨order, o, e, hevent, switchedOff_of_any h⟩
  next => cases h

/-- With the oracles switched off, the observation of somebody else is refused. -/
theorem oracleSwitch_intruding : ∃ ms s, Run genesis intruding ms s ∧
    (∃ m ∈ ms, ∃ order o e, m.event = .act order (.observe o) (.error e) ∧
      State.SwitchedOff m.before) ∧ ∃ h L, Shown ms s h L ∧ OracleSwitch ms h := by
  obtain ⟨ms, s, hrun, htest⟩ := exists_run_of_any genesis listed intruding
    (fun r ↦ r.1.any refusesOff && r.1.all signedByStranger) (by decide +kernel)
  obtain ⟨hrefuses, hstrangers⟩ := Bool.and_eq_true_iff.mp htest
  obtain ⟨m, hm, hoff⟩ := List.any_eq_true.mp hrefuses
  obtain ⟨h, L, hshown, hswitch⟩ := Run.oracleSwitch_of_stale hrun
  exact ⟨ms, s, hrun, ⟨m, hm, exists_of_refusesOff hoff⟩, h, L, hshown,
    hswitch fun m hm order o result hevent _ ↦
      Or.inl (unauthorized_of_signedByStranger hevent (List.all_eq_true.mp hstrangers m hm))⟩

end Reference

end Felidae
