import Felidae.Chain.Refine

/-!
# Observations that are refused

`observe` checks its signer and blockstamp, then its domain, and only then casts a vote. In a run
an observation is refused exactly if one of the checks fails, and it changes nothing then. It is
refused in any case if its signer is no oracle, or if the block it is stamped with is too old.
-/

open Classical

namespace Felidae

section State

variable [Host]

/-- One of the checks `observe` makes fails: on the signer and the blockstamp, or on the domain. -/
def State.Refuses (o : Observe) (s : Store) : Prop :=
  (∃ e, checkBlockstamp o s = .error e) ∨ ∃ e, checkSubdomain o s = .error e

/-- An observation that fails a check leaves the state as it is. -/
theorem State.Refuses.observe_eq {o : Observe} {s : Store} (h : Refuses o s) (order : IterOrder) :
    ∃ e, State.observe order o s = (.error e, s) := by
  rw [State.observe]
  rcases hstamp : checkBlockstamp o s with e | ⟨⟩
  · exact ⟨e, Exec.read_bind_of_error hstamp⟩
  · rw [Exec.read_bind_of_ok hstamp]
    rcases htime : blockTime s with e | now
    · exact ⟨e, Exec.read_bind_of_error htime⟩
    · rw [Exec.read_bind_of_ok htime]
      rcases h with ⟨e, he⟩ | ⟨e, he⟩
      · cases hstamp.symm.trans he
      · exact ⟨e, Exec.read_bind_of_error he⟩

/-- The signer is no oracle of the config in force. -/
def State.Unauthorized (o : Observe) (s : Store) : Prop :=
  ∃ c, config s = .ok c ∧ ∀ oracle ∈ c.oracles.authorized, oracle.identity ≠ o.oracle.identity

/-- The block that the observation is stamped with has reached the observation timeout of the config
in force. -/
def State.Expired (o : Observe) (s : Store) : Prop :=
  ∃ c now stamped age, config s = .ok c ∧ blockTime s = .ok now ∧
    timeOfBlock o.observation.blockstamp.blockHeight s = .ok stamped ∧
    now.durationSince stamped = some age ∧ c.oracles.observationTimeout ≤ age

/-- The observation is stale: nobody who may observe has signed it, or it has timed out. -/
def State.Stale (o : Observe) (s : Store) : Prop := Unauthorized o s ∨ Expired o s

/-- What passes the checks on the signer and the age is not stale. -/
theorem State.not_stale_of_checkBlockstamp {o : Observe} {s : Store}
    (h : checkBlockstamp o s = .ok ()) : ¬Stale o s := by
  obtain ⟨c, hc, h⟩ := except_bind_eq_ok.mp h
  obtain ⟨⟨⟩, hauthorized, h⟩ := except_bind_eq_ok.mp h
  obtain ⟨_, -, h⟩ := except_bind_eq_ok.mp h
  obtain ⟨⟨⟩, -, h⟩ := except_bind_eq_ok.mp h
  obtain ⟨now, hnow, h⟩ := except_bind_eq_ok.mp h
  obtain ⟨stamped, hstamped, h⟩ := except_bind_eq_ok.mp h
  obtain ⟨age, hage, h⟩ := except_bind_eq_ok.mp h
  obtain ⟨⟨⟩, hfresh, -⟩ := except_bind_eq_ok.mp h
  rintro (⟨c', hc', hnone⟩ | ⟨c', now', stamped', age', hc', hnow', hstamped', hage', hold⟩)
  · obtain rfl := Except.ok.inj (hc.symm.trans hc')
    obtain ⟨oracle, horacle, heq⟩ := List.any_eq_true.mp
      (not_not.mp ((decides_bailIf _ _).iff.mp hauthorized))
    exact hnone oracle horacle (of_decide_eq_true heq)
  · obtain rfl := Except.ok.inj (hc.symm.trans hc')
    obtain rfl := Except.ok.inj (hnow.symm.trans hnow')
    obtain rfl := Except.ok.inj (hstamped.symm.trans hstamped')
    obtain rfl := Option.some.inj ((okOr_eq_ok.mp hage).symm.trans hage')
    exact (decides_bailIf _ _).iff.mp hfresh hold

theorem State.Stale.refuses {o : Observe} {s : Store} (h : Stale o s) : Refuses o s := by
  rcases hcheck : checkBlockstamp o s with e | ⟨⟩
  · exact .inl ⟨e, hcheck⟩
  · exact absurd h (not_stale_of_checkBlockstamp hcheck)

end State

section Ledger

variable [Host] {s : Store} {L : Ledger}

/-- A check fails exactly if the action is not permitted. -/
theorem Represents.refuses_iff [LawfulHost] (h : Represents s L) (hL : L.Sound) {height : Height}
    {now : Time} (hheight : L.height = some height) (htime : L.time = some now) (o : Observe) :
    State.Refuses o s ↔ ¬L.Permits now (.observe o) := by
  have hfails : ∀ {check : Except Fault Unit} {P : Prop}, Decides Fault.Rejects check P →
      ((∃ e, check = .error e) ↔ ¬P) := by
    intro check P hcheck
    rw [← hcheck.iff]
    rcases check with e | ⟨⟩
    · exact iff_of_true ⟨e, rfl⟩ (by rintro ⟨⟩)
    · exact iff_of_false (by rintro ⟨e, ⟨⟩⟩) (not_not.mpr rfl)
  rw [State.Refuses, hfails (h.checkBlockstamp hheight htime o), hfails (h.checkSubdomain hL o),
    ← not_and_or, Ledger.Permits, and_assoc]

end Ledger

section Runs

variable [Host] [LawfulHost] {ms : List (Moment Store Event)} {s : Store}
  {h : List (Moment Ledger Event)} {L : Ledger}

/-- An observation that is delivered in a run is accepted, or refused by one of its checks. -/
theorem Shown.refuses_iff (hshown : Shown ms s h L) {m : Moment Store Event} (hm : m ∈ ms)
    {order : IterOrder} {o : Observe} {result : Except Fault Unit}
    (hevent : m.event = .act order (.observe o) result) :
    State.Refuses o m.before ↔ ∃ e, result = .error e := by
  obtain ⟨M, hM, hshow⟩ := hshown.exists_of_mem hm
  obtain ⟨newer, older, rfl⟩ := List.append_of_mem hM
  have hist := hshown.history
  have hsound : M.before.Sound := LedgerHistory.sound hist.split.1
  have hstep := hist.split.2
  rw [← hshow.event, hevent] at hstep
  obtain ⟨before, event, after⟩ := M
  cases hstep with
  | accept htime _ hpermits _ =>
    obtain ⟨height, hheight⟩ := LedgerHistory.exists_height hist.split.1 htime
    rw [hshow.before.refuses_iff hsound hheight htime]
    exact iff_of_false (not_not.mpr hpermits) (by rintro ⟨e, ⟨⟩⟩)
  | refuse htime _ hpermits =>
    obtain ⟨height, hheight⟩ := LedgerHistory.exists_height hist.split.1 htime
    rw [hshow.before.refuses_iff hsound hheight htime]
    exact iff_of_true hpermits ⟨_, rfl⟩

end Runs

end Felidae
