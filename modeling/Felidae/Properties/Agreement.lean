import Felidae.Chain.Quorums
import Felidae.Reference

/-!
# Agreement of replicas

The tally stops at the first value that has a quorum, in an order that differs from node to node.
The nodes agree as long as only one value can have a quorum. That is so from the genesis on, since a
value that wins takes the votes with it; but a config that is put in force with a lower quorum can
leave two values with a quorum, and then the next vote may be won by a different one on each node.
-/

open Classical

namespace Felidae

section Block

variable [Host] [LawfulHost]

/-- The store of an open block in which no vote that is cast has two winners. -/
structure Steady (height : Height) (now : Time) (s : Store) (L : Ledger) : Prop where
  represents : Represents s L
  sound : L.Sound
  unrivalled : L.Unrivalled
  height_eq : L.height = some height
  time_eq : L.time = some now

namespace Steady

variable {height : Height} {now : Time} {s t : Store} {L : Ledger}

/-- An action has one result, whatever the order of iteration, and leaves a steady store. -/
theorem applyAction (h : Steady height now s L) {action : Action} (haction : action.Readable)
    (order order' : IterOrder) :
    State.applyAction order action s = State.applyAction order' action s ∧
      ∃ L', Steady height now (State.applyAction order action s).2 L' := by
  refine ⟨h.represents.applyAction_congr h.sound h.height_eq h.time_eq h.unrivalled.decisive
    order order' haction, ?_⟩
  rcases h.represents.applyAction h.sound h.height_eq h.time_eq order haction with
    ⟨hpermits, t, L', hok, ht, hcasts⟩ | ⟨-, e, -, herr⟩
  · rw [hok]
    have hsame := hcasts.sameBlock
    exact ⟨L', ht, h.sound.casts haction hpermits hcasts, h.unrivalled.casts hcasts,
      hsame.height.trans h.height_eq, hsame.time.trans h.time_eq⟩
  · rw [herr]
    exact ⟨L, h⟩

/-- So has a list of actions. -/
theorem applyActions : ∀ {actions : List Action} {orders orders' : ℕ → IterOrder} {s : Store}
    {L : Ledger}, Steady height now s L → (∀ action ∈ actions, action.Readable) →
      State.applyActions orders actions s = State.applyActions orders' actions s ∧
        ∃ L', Steady height now (State.applyActions orders actions s).2 L'
  | [], _, _, _, L, h, _ => ⟨rfl, L, h⟩
  | action :: actions, orders, orders', s, L, h, hreadable => by
    obtain ⟨hsame, L₁, h₁⟩ :=
      h.applyAction (hreadable action List.mem_cons_self) (orders 0) (orders' 0)
    rcases hstep : State.applyAction (orders 0) action s with ⟨e | ⟨⟩, r⟩
    · rw [State.applyActions, State.applyActions, Exec.bind_of_error hstep,
        Exec.bind_of_error (hsame.symm.trans hstep)]
      rw [hstep] at h₁
      exact ⟨rfl, L₁, h₁⟩
    · rw [State.applyActions, State.applyActions, Exec.bind_of_ok hstep,
        Exec.bind_of_ok (hsame.symm.trans hstep)]
      rw [hstep] at h₁
      exact h₁.applyActions fun a ha ↦ hreadable a (List.mem_cons_of_mem _ ha)

/-- So has a transaction. -/
theorem deliverTx (h : Steady height now s L) (orders orders' : ℕ → IterOrder) (txBytes : Bytes) :
    State.deliverTx orders txBytes s = State.deliverTx orders' txBytes s ∧
      ∃ L', Steady height now (State.deliverTx orders txBytes s).2 L' := by
  rcases htx : AuthenticatedTx.fromProto txBytes with e | tx
  · have hdeliver : ∀ orders, State.deliverTx orders txBytes s = (.error e.reject, s) := fun _ ↦
      Exec.read_bind_of_error (by rw [htx]; rfl)
    rw [hdeliver, hdeliver]
    exact ⟨rfl, L, h⟩
  · have hdeliver : ∀ orders, State.deliverTx orders txBytes s
        = State.deliverAuthenticatedTx orders tx s := fun _ ↦
      Exec.read_bind_of_ok (by rw [htx]; rfl)
    rw [hdeliver, hdeliver, State.deliverAuthenticatedTx, State.deliverAuthenticatedTx]
    rcases hcheck : State.checkTransaction tx s with e | ⟨⟩
    · rw [Exec.read_bind_of_error hcheck, Exec.read_bind_of_error hcheck]
      exact ⟨rfl, L, h⟩
    · rw [Exec.read_bind_of_ok hcheck, Exec.read_bind_of_ok hcheck]
      exact h.applyActions (AuthenticatedTx.readable htx)

/-- And the transactions of a block. -/
theorem execTxs : ∀ (txs : List Bytes) {orders orders' : ℕ → ℕ → IterOrder} {s : Store}
    {L : Ledger}, Steady height now s L →
      State.execTxs orders txs s = State.execTxs orders' txs s
  | [], _, _, _, _, _ => rfl
  | txBytes :: txs, orders, orders', s, L, h => by
    obtain ⟨hsame, L₁, h₁⟩ := h.deliverTx (orders 0) (orders' 0) txBytes
    have hexec : State.execTx (orders 0) txBytes s = State.execTx (orders' 0) txBytes s := by
      rw [State.execTx, State.execTx, hsame]
    rw [← State.snd_execTx] at h₁
    rcases hstep : State.execTx (orders 0) txBytes s with ⟨e | result, r⟩
    · rw [State.execTxs, State.execTxs, Exec.bind_of_error hstep,
        Exec.bind_of_error (hexec.symm.trans hstep)]
    · rw [hstep] at h₁
      rw [State.execTxs, State.execTxs, Exec.bind_of_ok hstep,
        Exec.bind_of_ok (hexec.symm.trans hstep), Exec.bind_apply, Exec.bind_apply,
        h₁.execTxs txs]

end Steady

/-- A block has one result where nothing has a rival, whatever the orders of iteration. -/
theorem Represents.handleFinalizeBlock_congr {s : Store} {L : Ledger} (hs : Represents s L)
    (hL : L.Sound) (hseated : L.Seated) (hunrivalled : L.Unrivalled)
    (orders orders' : ℕ → ℕ → IterOrder) (request : FinalizeBlock) :
    State.handleFinalizeBlock orders request s = State.handleFinalizeBlock orders' request s := by
  obtain ⟨s₁, L₁, hbegin, hs₁, hbegins⟩ := hs.beginBlock hseated request
  have hsteady : Steady request.height request.time s₁ L₁ :=
    ⟨hs₁, hL.begins hbegins, hunrivalled.begins hbegins, hbegins.height, hbegins.time⟩
  obtain ⟨_, r, hrecord, hbegin'⟩ := Exec.bind_eq_ok.mp hbegin
  have hfinalize :
      State.finalizeBlock orders request r = State.finalizeBlock orders' request r := by
    rw [State.finalizeBlock, State.finalizeBlock, Exec.bind_of_ok hbegin', Exec.bind_of_ok hbegin',
      Exec.bind_apply, Exec.bind_apply, hsteady.execTxs request.txs]
  rw [State.handleFinalizeBlock, State.handleFinalizeBlock, Exec.bind_of_ok hrecord,
    Exec.bind_of_ok hrecord, Exec.bind_apply, Exec.bind_apply, hfinalize]

end Block

section Runs

variable [Host]

/-- Nothing gets a rival but by a config that is put in force. -/
theorem LedgerHistory.unrivalled {h : List (Moment Ledger Event)} {L : Ledger}
    (hist : LedgerHistory h L) (hputs : ∀ m ∈ h, PutsInForce m → m.after.Unrivalled) :
    L.Unrivalled := by
  induction hist with
  | start hinit => exact hinit.unrivalled
  | @next h L L' e hist hstep ih =>
    by_cases hforce : PutsInForce ⟨L, e, L'⟩
    · exact hputs _ List.mem_cons_self hforce
    · exact (ih fun m hm ↦ hputs m (List.mem_cons_of_mem _ hm)).step hstep (not_not.mp hforce)

variable [LawfulHost]

/-- In every run in which no config that is put in force leaves a value with a quorum within one
vote of another, at most one value has a quorum in each tally, and every run of the same blocks
ends in the same state. -/
theorem Run.agree_of_unrivalled {genesis : InitChain} {requests : List FinalizeBlock}
    {ms : List (Moment Store Event)} {s : Store} (hrun : Run genesis requests ms s) :
    ∃ h L, Shown ms s h L ∧ ((∀ m ∈ h, PutsInForce m → m.after.Unrivalled) →
      (∀ m ∈ h, m.before.Decisive) ∧ L.Decisive ∧
        ∀ ms' s', Run genesis requests ms' s' → s' = s) := by
  suffices hagree : ∃ h L, Shown ms s h L ∧ ((∀ m ∈ h, PutsInForce m → m.after.Unrivalled) →
      ∀ ms' s', Run genesis requests ms' s' → s' = s) by
    obtain ⟨h, L, hshown, hsame⟩ := hagree
    refine ⟨h, L, hshown, fun hputs ↦ ⟨fun m hm ↦ ?_,
      (LedgerHistory.unrivalled hshown.history hputs).decisive, hsame hputs⟩⟩
    obtain ⟨newer, older, rfl⟩ := List.append_of_mem hm
    exact (LedgerHistory.unrivalled hshown.history.split.1 fun x hx ↦
      hputs x (List.mem_append_right _ (List.mem_cons_of_mem _ hx))).decisive
  -- both runs are taken apart together, block by block
  induction hrun with
  | start hinit =>
    obtain ⟨config, validators, hs, -⟩ := Represents.initChain hinit
    refine ⟨[], _, ⟨.nil, .start ⟨_, _, _, rfl⟩, hs⟩, fun _ ms' s' hrun' ↦ ?_⟩
    cases hrun' with
    | start hinit' => exact (Prod.mk.inj (hinit'.symm.trans hinit)).2
  | block orders hrun htime hfinalize ih =>
    obtain ⟨h, L, hshown, hsame⟩ := ih
    obtain ⟨h', L', hshown', -⟩ := hshown.block htime hfinalize
    refine ⟨h' ++ h, L', hshown', fun hputs ms' s' hrun' ↦ ?_⟩
    have hputs' : ∀ m ∈ h, PutsInForce m → m.after.Unrivalled := fun m hm ↦
      hputs m (List.mem_append_right _ hm)
    cases hrun' with
    | block orders' hrun'' htime' hfinalize' =>
      obtain rfl := hsame hputs' _ _ hrun''
      rw [hshown.represents.handleFinalizeBlock_congr (LedgerHistory.sound hshown.history)
        (hshown.seated hfinalize) (LedgerHistory.unrivalled hshown.history hputs') orders'
        orders] at hfinalize'
      exact (Prod.mk.inj (hfinalize'.symm.trans hfinalize)).2

end Runs

namespace Reference

/-- The config in force has the version. -/
def hasVersion (version : UInt32) (r : List (Moment Store Event) × Store) : Bool :=
  (State.config r.2).toOption.any fun c ↦ c.version = version

/-- Two replicas that iterate their tallies the other way round finalize the same blocks, and have
different configs in force after the third. -/
theorem not_agree_shrinking : ¬∀ (genesis : InitChain) (requests : List FinalizeBlock)
    (ms ms' : List (Moment Store Event)) (s s' : Store), Run genesis requests ms s →
      Run genesis requests ms' s' → s' = s := by
  intro hall
  obtain ⟨ms, s, hrun, hthird⟩ := exists_run_of_any genesis reversed shrinking (hasVersion 3)
    (by decide +kernel)
  obtain ⟨ms', s', hrun', hfourth⟩ := exists_run_of_any genesis listed shrinking (hasVersion 4)
    (by decide +kernel)
  obtain rfl := hall _ _ _ _ _ _ hrun hrun'
  obtain ⟨c, hc, hversion⟩ := (Option.any_eq_true ..).mp hthird
  obtain ⟨c', hc', hversion'⟩ := (Option.any_eq_true ..).mp hfourth
  obtain rfl := Option.some.inj (hc.symm.trans hc')
  cases (of_decide_eq_true hversion).symm.trans (of_decide_eq_true hversion')

/-- Two configs are put in force, both when there are no votes. -/
theorem agree_of_unrivalled_superseding : ∃ ms s, Run genesis superseding ms s ∧
    hasVersion 2 (ms, s) = true ∧ ∃ h L, Shown ms s h L ∧
      (∀ m ∈ h, PutsInForce m → m.after.Unrivalled) ∧ (∀ m ∈ h, m.before.Decisive) ∧
      L.Decisive ∧ ∀ ms' s', Run genesis superseding ms' s' → s' = s := by
  obtain ⟨ms, s, hrun, htest⟩ := exists_run_of_any genesis listed superseding
    (fun r ↦ hasVersion 2 r && r.1.all quiet) (by decide +kernel)
  obtain ⟨hversion, hquiet⟩ := Bool.and_eq_true_iff.mp htest
  obtain ⟨h, L, hshown, hagree⟩ := Run.agree_of_unrivalled hrun
  have hputs : ∀ m ∈ h, PutsInForce m → m.after.Unrivalled := fun m hm hforce q k w w' _ hw ↦
    absurd hw (Ledger.not_hasQuorum_of_votes_eq_none
      (votes_eq_none_of_quiet hshown hquiet hm hforce q) _)
  exact ⟨ms, s, hrun, hversion, h, L, hshown, hputs, hagree hputs⟩

end Reference

end Felidae
