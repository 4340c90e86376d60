import Felidae.Chain.Refine
import Felidae.Reference

/-!
# Failed transactions

The actions of a transaction write to the state of the block one after the other, and nothing is
undone when one of them fails. A single action writes nothing before it fails, so what a failed
transaction leaves is what the actions before the one that failed have done.
-/

namespace Felidae

namespace State

variable [Host] {s t : Store} {e : Fault}

/-- A list of actions fails at one of them, after the ones before it have been applied. -/
theorem applyActions_eq_error : ∀ {actions : List Action} {orders : ℕ → IterOrder} {s : Store},
    applyActions orders actions s = (.error e, t) → ∃ done a rest r, actions = done ++ a :: rest ∧
      applyActions orders done s = (.ok (), r) ∧
      applyAction (orders done.length) a r = (.error e, t)
  | [], _, _, h => by cases (Prod.mk.inj h).1
  | action :: actions, orders, s, h => by
    rcases hstep : applyAction (orders 0) action s with ⟨e' | ⟨⟩, r⟩
    · rw [applyActions, Exec.bind_of_error hstep] at h
      exact ⟨[], action, actions, s, rfl, rfl, hstep.trans h⟩
    · rw [applyActions, Exec.bind_of_ok hstep] at h
      obtain ⟨done, a, rest, r', rfl, hdone, ha⟩ := applyActions_eq_error h
      exact ⟨action :: done, a, rest, r', rfl, (Exec.bind_of_ok hstep).trans hdone, ha⟩

/-- Before the first block there is no time to act at. -/
theorem applyAction_of_no_time {e' : Fault} (htime : blockTime s = .error e') (order : IterOrder)
    (action : Action) : ∃ e, applyAction order action s = (.error e, s) := by
  cases action with
  | observe o =>
    change ∃ e, State.observe order o s = _
    rcases hcheck : checkBlockstamp o s with e | ⟨⟩
    · exact ⟨e, by rw [State.observe, Exec.read_bind_of_error hcheck]⟩
    · exact ⟨e', by rw [State.observe, Exec.read_bind_of_ok hcheck, Exec.read_bind_of_error htime]⟩
  | reconfigure r =>
    change ∃ e, State.reconfigure order r s = _
    rcases hcheck : checkReconfigure r s with e | ⟨⟩
    · exact ⟨e, by rw [State.reconfigure, Exec.read_bind_of_error hcheck]⟩
    · exact ⟨e', by
        rw [State.reconfigure, Exec.read_bind_of_ok hcheck, Exec.read_bind_of_error htime]⟩

end State

section Host

variable [Host] [LawfulHost] {s t : Store} {L : Ledger} {h : List (Moment Ledger Event)}

/-- An action that fails has written nothing. -/
theorem Represents.eq_of_applyAction_eq_error (hs : Represents s L) (hist : LedgerHistory h L)
    {order : IterOrder} {action : Action} (haction : action.Readable) {e : Fault}
    (hfail : State.applyAction order action s = (.error e, t)) : t = s := by
  rcases htime : L.time with _ | now
  · have hnone := hs.blockTime
    rw [htime, okOr_none] at hnone
    obtain ⟨e', herr⟩ := State.applyAction_of_no_time hnone order action
    exact (Prod.mk.inj (hfail.symm.trans herr)).2
  · obtain ⟨height, hheight⟩ := LedgerHistory.exists_height hist htime
    rcases hs.applyAction (LedgerHistory.sound hist) hheight htime order haction with
      ⟨-, r, -, hok, -⟩ | ⟨-, e', -, herr⟩
    · cases (Prod.mk.inj (hfail.symm.trans hok)).1
    · exact (Prod.mk.inj (hfail.symm.trans herr)).2

/-- Actions that have all been applied lead on in the history. -/
theorem Represents.exists_of_applyActions (hs : Represents s L) (hist : LedgerHistory h L)
    {actions : List Action} {orders : ℕ → IterOrder}
    (hreadable : ∀ action ∈ actions, action.Readable)
    (hok : State.applyActions orders actions s = (.ok (), t)) :
    ∃ h' L', LedgerHistory h' L' ∧ Represents t L' := by
  rcases htime : L.time with _ | now
  · cases actions with
    | nil =>
      obtain rfl := (Prod.mk.inj hok).2
      exact ⟨h, L, hist, hs⟩
    | cons action actions =>
      have hnone := hs.blockTime
      rw [htime, okOr_none] at hnone
      obtain ⟨e, herr⟩ := State.applyAction_of_no_time hnone (orders 0) action
      rw [State.applyActions, Exec.bind_of_error herr] at hok
      cases (Prod.mk.inj hok).1
  · obtain ⟨height, hheight⟩ := LedgerHistory.exists_height hist htime
    obtain ⟨r, t', happly, -, h', L', -, hist', ht, -⟩ :=
      hs.applyActions actions orders hist hheight htime hreadable
    obtain rfl := (Prod.mk.inj (hok.symm.trans happly)).2
    exact ⟨h' ++ h, L', hist', ht⟩

/-- A transaction that fails either is rejected before its actions and leaves the state as it is,
or stops at one of its actions and leaves what the actions before it have done; in a state of a run
the action that fails adds nothing to that. -/
theorem State.deliverTx_stops {orders : ℕ → IterOrder} {txBytes : Bytes} {e : Fault}
    (hfail : deliverTx orders txBytes s = (.error e, t)) :
    (t = s ∧ ∀ tx, AuthenticatedTx.fromProto txBytes = .ok tx →
      checkTransaction tx s = .error e) ∨
    ∃ tx done a rest r, AuthenticatedTx.fromProto txBytes = .ok tx ∧
      tx.tx.actions = done ++ a :: rest ∧ applyActions orders done s = (.ok (), r) ∧
      applyAction (orders done.length) a r = (.error e, t) ∧
      ∀ genesis requests ms s₀, Run genesis requests ms s₀ → Visited ms s₀ s → t = r := by
  rcases htx : AuthenticatedTx.fromProto txBytes with e' | tx
  · rw [deliverTx, Exec.read_bind_of_error (by rw [htx]; rfl)] at hfail
    exact .inl ⟨(Prod.mk.inj hfail).2.symm, fun tx htx' ↦ by cases htx'⟩
  · rw [deliverTx, Exec.read_bind_of_ok (by rw [htx]; rfl), deliverAuthenticatedTx] at hfail
    rcases hcheck : checkTransaction tx s with e' | ⟨⟩
    · rw [Exec.read_bind_of_error hcheck] at hfail
      obtain ⟨he, rfl⟩ := Prod.mk.inj hfail
      obtain rfl := Except.error.inj he
      refine .inl ⟨rfl, fun tx' htx' ↦ ?_⟩
      obtain rfl := Except.ok.inj htx'
      exact hcheck
    · rw [Exec.read_bind_of_ok hcheck] at hfail
      obtain ⟨done, a, rest, r, hactions, hdone, ha⟩ := applyActions_eq_error hfail
      refine .inr ⟨tx, done, a, rest, r, rfl, hactions, hdone, ha,
        fun genesis requests ms s₀ hrun hvisited ↦ ?_⟩
      -- the actions before it lead through ledgers, and in a ledger a failure writes nothing
      have hreadable := AuthenticatedTx.readable htx
      rw [hactions] at hreadable
      obtain ⟨h, L, hshown⟩ := hrun.exists_shown
      obtain ⟨older, L', -, hist, hs⟩ := hshown.exists_upTo hvisited
      obtain ⟨h', L'', hist', hr⟩ := hs.exists_of_applyActions hist
        (fun action haction ↦ hreadable action (List.mem_append_left _ haction)) hdone
      exact hr.eq_of_applyAction_eq_error hist'
        (hreadable a (List.mem_append_right _ List.mem_cons_self)) ha

end Host

namespace Reference

/-- Two votes for the same config in one transaction: the first makes it pending, and the second
fails. -/
def deliverTwice : Command Unit := State.deliverTx (fun _ ↦ listed) foundTwice.bytes

/-- The transaction fails, and what it leaves has more entries than before. -/
def grows (s : Store) : Bool :=
  (deliverTwice s).1.toOption.isNone && (deliverTwice s).2.verifiable.size != s.verifiable.size

/-- The transaction is delivered in the first block. -/
theorem exists_grows : ∃ ms s₀ s e t, Run genesis [blockAt 1 10 []] ms s₀ ∧ Visited ms s₀ s ∧
    deliverTwice s = (.error e, t) ∧ t.verifiable.size ≠ s.verifiable.size := by
  obtain ⟨ms, s₀, hrun, hany⟩ := exists_run_of_any genesis listed [blockAt 1 10 []]
    (fun r ↦ r.1.any fun m ↦ grows m.after) (by decide +kernel)
  obtain ⟨m, hm, hgrows⟩ := List.any_eq_true.mp hany
  rw [grows, Bool.and_eq_true, bne_iff_ne] at hgrows
  obtain ⟨hfails, hsize⟩ := hgrows
  rcases hdeliver : deliverTwice m.after with ⟨e | ⟨⟩, t⟩
  · rw [hdeliver] at hsize
    exact ⟨ms, s₀, m.after, e, t, hrun, .inr ⟨m, hm, .inr rfl⟩, hdeliver, hsize⟩
  · rw [hdeliver] at hfails
    cases hfails

theorem not_atomic_foundTwice : ¬∀ (genesis : InitChain) (requests : List FinalizeBlock)
    (ms : List (Moment Store Event)) (s₀ s t : Store) (orders : ℕ → IterOrder) (txBytes : Bytes)
    (e : Fault), Run genesis requests ms s₀ → Visited ms s₀ s →
      State.deliverTx orders txBytes s = (.error e, t) → t = s := by
  intro hall
  obtain ⟨ms, s₀, s, e, t, hrun, hvisited, hfail, hsize⟩ := exists_grows
  exact hsize (by rw [hall _ _ _ _ _ _ _ _ _ hrun hvisited hfail])

theorem deliverTx_stops_foundTwice : ∃ s e t, deliverTwice s = (.error e, t) ∧
    ((t = s ∧ ∀ tx, AuthenticatedTx.fromProto foundTwice.bytes = .ok tx →
      State.checkTransaction tx s = .error e) ∨
    ∃ tx done a rest r, AuthenticatedTx.fromProto foundTwice.bytes = .ok tx ∧
      tx.tx.actions = done ++ a :: rest ∧
      State.applyActions (fun _ ↦ listed) done s = (.ok (), r) ∧
      State.applyAction listed a r = (.error e, t) ∧
      ∀ genesis requests ms s₀, Run genesis requests ms s₀ → Visited ms s₀ s → t = r) := by
  obtain ⟨ms, s₀, s, e, t, hrun, hvisited, hfail, -⟩ := exists_grows
  exact ⟨s, e, t, hfail, State.deliverTx_stops hfail⟩

end Reference

end Felidae
