import Felidae.Foundation.History
import Felidae.State.Abci

/-!
# Runs

A run is a genesis followed by blocks that were finalized, in any number, with any transactions
and with any order of iteration in each tally; block times do not decrease. The blocks of a run
are seen as moments: the part before the transactions, each action of each transaction that got
as far as its actions, and the part after the transactions. `blockMoments` runs the functions of
the block again and notes the states between them.
-/

namespace Felidae

/-- What happens at a moment of a run. -/
inductive Event where
  | begin (request : FinalizeBlock)
  | act (order : IterOrder) (action : Action) (result : Except Fault Unit)
  | finish

namespace State

variable [Host]

/-- The moments of the actions of a transaction, the last one first: up to the one that fails. -/
def actionMoments (orders : ℕ → IterOrder) : List Action → Store → List (Moment Store Event)
  | [], _ => []
  | action :: actions, s =>
    let step := applyAction (orders 0) action s
    (match step.1 with
      | .ok _ => actionMoments (fun n ↦ orders (n + 1)) actions step.2
      | .error _ => []) ++ [⟨s, .act (orders 0) action step.1, step.2⟩]

/-- The moments of a transaction: none if it is rejected before its actions. -/
def txMoments (orders : ℕ → IterOrder) (txBytes : Bytes) (s : Store) :
    List (Moment Store Event) :=
  match AuthenticatedTx.fromProto txBytes with
  | .error _ => []
  | .ok tx =>
    match checkTransaction tx s with
    | .error _ => []
    | .ok _ => actionMoments orders tx.tx.actions s

def txsMoments (orders : ℕ → ℕ → IterOrder) : List Bytes → Store → List (Moment Store Event)
  | [], _ => []
  | txBytes :: txs, s =>
    txsMoments (fun n ↦ orders (n + 1)) txs (execTx (orders 0) txBytes s).2
      ++ txMoments (orders 0) txBytes s

/-- The store when the transactions of a block start. -/
def begunBlock (request : FinalizeBlock) (s : Store) : Store :=
  ((recordPrevious >>= fun _ ↦ beginBlock request) s).2

/-- The store when the transactions of a block have been executed. -/
def executedBlock (orders : ℕ → ℕ → IterOrder) (request : FinalizeBlock) (s : Store) : Store :=
  (execTxs orders request.txs (begunBlock request s)).2

/-- The moments of a block, the last one first. -/
def blockMoments (orders : ℕ → ℕ → IterOrder) (request : FinalizeBlock) (s : Store) :
    List (Moment Store Event) :=
  let executed := executedBlock orders request s
  ⟨executed, .finish, (endBlock executed).2⟩ ::
    (txsMoments orders request.txs (begunBlock request s)
      ++ [⟨s, .begin request, begunBlock request s⟩])

end State

/-- A block is not earlier than the last one. -/
def State.InTime (request : FinalizeBlock) (s : Store) : Prop :=
  ∀ time, blockTime s = .ok time → time ≤ request.time

instance (request : FinalizeBlock) (s : Store) : Decidable (State.InTime request s) :=
  match h : State.blockTime s with
  | .ok time => decidable_of_iff (time ≤ request.time)
      ⟨fun hle _ ht ↦ Except.ok.inj (h.symm.trans ht) ▸ hle, fun hall ↦ hall time h⟩
  | .error _ => isTrue fun _ ht ↦ by cases h.symm.trans ht

/-- The chain was initialized from the genesis and then finalized the blocks of the requests, the
last one first. -/
inductive Run [Host] (genesis : InitChain) :
    List FinalizeBlock → List (Moment Store Event) → Store → Prop where
  | start {response : InitChainResponse} {s : Store}
      (hinit : State.initChain genesis Store.empty = (.ok response, s)) : Run genesis [] [] s
  | block {requests : List FinalizeBlock} {moments : List (Moment Store Event)} {s t : Store}
      {request : FinalizeBlock} {response : FinalizeBlockResponse} (orders : ℕ → ℕ → IterOrder)
      (hrun : Run genesis requests moments s)
      (htime : State.InTime request s)
      (hfinalize : State.handleFinalizeBlock orders request s = (.ok response, t)) :
      Run genesis (request :: requests) (State.blockMoments orders request s ++ moments) t

/-- An observation was accepted at one of the moments. -/
def AcceptedIn {σ : Type} (older : List (Moment σ Event)) (o : Observe) : Prop :=
  ∃ x ∈ older, ∃ order, x.event = .act order (.observe o) (.ok ())

/-! ## What the moments are -/

namespace State

variable [Host] {m : Moment Store Event} {order : IterOrder} {action : Action}
  {result : Except Fault Unit}

/-- The moment is the application of an action. -/
def Applies (m : Moment Store Event) : Prop :=
  ∃ order action, m.event = .act order action (applyAction order action m.before).1 ∧
    m.after = (applyAction order action m.before).2

theorem applies_of_mem_actionMoments : ∀ {actions : List Action} {orders : ℕ → IterOrder}
    {s : Store}, m ∈ actionMoments orders actions s → Applies m := by
  intro actions
  induction actions with
  | nil => exact fun hm ↦ absurd hm List.not_mem_nil
  | cons a actions ih =>
    intro orders s hm
    rw [actionMoments, List.mem_append, List.mem_singleton] at hm
    rcases hm with hm | rfl
    · rcases hstep : (applyAction (orders 0) a s).1 with e | ⟨⟩ <;> rw [hstep] at hm
      · exact absurd hm List.not_mem_nil
      · exact ih hm
    · exact ⟨orders 0, a, rfl, rfl⟩

theorem applies_of_mem_txMoments {orders : ℕ → IterOrder} {txBytes : Bytes} {s : Store}
    (hm : m ∈ txMoments orders txBytes s) : Applies m := by
  rw [txMoments] at hm
  split at hm
  · exact absurd hm List.not_mem_nil
  · split at hm
    · exact absurd hm List.not_mem_nil
    · exact applies_of_mem_actionMoments hm

theorem applies_of_mem_txsMoments : ∀ {txs : List Bytes} {orders : ℕ → ℕ → IterOrder}
    {s : Store}, m ∈ txsMoments orders txs s → Applies m := by
  intro txs
  induction txs with
  | nil => exact fun hm ↦ absurd hm List.not_mem_nil
  | cons txBytes txs ih =>
    intro orders s hm
    rcases List.mem_append.mp hm with hm | hm
    · exact ih hm
    · exact applies_of_mem_txMoments hm

/-- The moment of an action is the application of the action. -/
theorem applyAction_of_mem_blockMoments {orders : ℕ → ℕ → IterOrder} {request : FinalizeBlock}
    {s : Store} (hm : m ∈ blockMoments orders request s)
    (hevent : m.event = .act order action result) :
    applyAction order action m.before = (result, m.after) := by
  rcases List.mem_cons.mp hm with rfl | hm
  · cases hevent
  · rcases List.mem_append.mp hm with hm | hm
    · obtain ⟨order', action', hevent', hafter⟩ := applies_of_mem_txsMoments hm
      obtain ⟨rfl, rfl, rfl⟩ := Event.act.inj (hevent.symm.trans hevent')
      rw [hafter]
    · obtain rfl := List.mem_singleton.mp hm
      cases hevent

end State

theorem Run.applyAction_of_mem [Host] {genesis : InitChain} {requests : List FinalizeBlock}
    {ms : List (Moment Store Event)} {s : Store} (hrun : Run genesis requests ms s)
    {m : Moment Store Event} (hm : m ∈ ms) {order : IterOrder} {action : Action}
    {result : Except Fault Unit} (hevent : m.event = .act order action result) :
    State.applyAction order action m.before = (result, m.after) := by
  induction hrun with
  | start => exact absurd hm List.not_mem_nil
  | block orders _ _ _ ih =>
    rcases List.mem_append.mp hm with hm | hm
    · exact State.applyAction_of_mem_blockMoments hm hevent
    · exact ih hm

/-- The blocks that begin in a run are those of its requests. -/
theorem Run.mem_requests_of_begin [Host] {genesis : InitChain} {requests : List FinalizeBlock}
    {ms : List (Moment Store Event)} {s : Store} (hrun : Run genesis requests ms s)
    {x : Moment Store Event} (hx : x ∈ ms) {request : FinalizeBlock}
    (hbegin : x.event = .begin request) : request ∈ requests := by
  induction hrun with
  | start => exact absurd hx List.not_mem_nil
  | block orders _ _ _ ih =>
    rcases List.mem_append.mp hx with hx | hx
    · rcases List.mem_cons.mp hx with rfl | hx
      · cases hbegin
      · rcases List.mem_append.mp hx with hx | hx
        · obtain ⟨_, _, hevent, -⟩ := State.applies_of_mem_txsMoments hx
          cases hevent.symm.trans hbegin
        · obtain rfl := List.mem_singleton.mp hx
          obtain rfl := Event.begin.inj hbegin
          exact List.mem_cons_self
    · exact List.mem_cons_of_mem _ (ih hx)

/-! ## What the moments keep -/

namespace State

variable [Host] {P : Store → Prop}

theorem applyActions_of_moments : ∀ (actions : List Action) (orders : ℕ → IterOrder) {s : Store},
    P s → (∀ m ∈ actionMoments orders actions s, P m.before → P m.after) →
    P (applyActions orders actions s).2
  | [], _, _, hs, _ => hs
  | action :: actions, orders, s, hs, h => by
    rw [actionMoments] at h
    have hone := h _ (List.mem_append_right _ List.mem_cons_self) hs
    rw [applyActions, Exec.bind_apply]
    rcases hstep : applyAction (orders 0) action s with ⟨e | ⟨⟩, t⟩ <;> rw [hstep] at hone h
    · exact hone
    · exact applyActions_of_moments actions _ hone fun m hm ↦ h m (List.mem_append_left _ hm)

theorem deliverTx_of_moments {orders : ℕ → IterOrder} {txBytes : Bytes} {s : Store} (hs : P s)
    (h : ∀ m ∈ txMoments orders txBytes s, P m.before → P m.after) :
    P (deliverTx orders txBytes s).2 := by
  rw [txMoments] at h
  rcases htx : AuthenticatedTx.fromProto txBytes with e | tx <;> simp only [htx] at h
  · rw [deliverTx, Exec.read_bind_of_error (by rw [htx]; rfl)]
    exact hs
  · rw [deliverTx, Exec.read_bind_of_ok (by rw [htx]; rfl), deliverAuthenticatedTx]
    rcases hcheck : checkTransaction tx s with e | ⟨⟩ <;> simp only [hcheck] at h
    · rw [Exec.read_bind_of_error hcheck]
      exact hs
    · rw [Exec.read_bind_of_ok hcheck]
      exact applyActions_of_moments _ _ hs h

theorem snd_execTx (orders : ℕ → IterOrder) (txBytes : Bytes) (s : Store) :
    (execTx orders txBytes s).2 = (deliverTx orders txBytes s).2 := by
  rw [execTx]
  split
  all_goals
    next hdeliver => rw [hdeliver]

theorem execTxs_of_moments : ∀ (txs : List Bytes) (orders : ℕ → ℕ → IterOrder) {s : Store},
    P s → (∀ m ∈ txsMoments orders txs s, P m.before → P m.after) → P (execTxs orders txs s).2
  | [], _, _, hs, _ => hs
  | txBytes :: txs, orders, s, hs, h => by
    rw [txsMoments] at h
    have hone : P (execTx (orders 0) txBytes s).2 := by
      rw [snd_execTx]
      exact deliverTx_of_moments hs fun m hm ↦ h m (List.mem_append_right _ hm)
    have hrest := execTxs_of_moments txs (fun n ↦ orders (n + 1)) hone
      fun m hm ↦ h m (List.mem_append_left _ hm)
    rw [execTxs, Exec.bind_apply]
    rcases hexec : execTx (orders 0) txBytes s with ⟨e | result, t⟩ <;> rw [hexec] at hone hrest
    · exact hone
    · have hlast := Exec.bind_of_keeps (f := P) (execTxs (fun n ↦ orders (n + 1)) txs)
        (fun results ↦ Exec.keeps_pure (result :: results)) t
      exact hlast.mpr hrest

/-- A block that is finalized leaves the state that its last moment does. -/
theorem snd_handleFinalizeBlock {orders : ℕ → ℕ → IterOrder} {request : FinalizeBlock}
    {response : FinalizeBlockResponse} {s t : Store}
    (h : handleFinalizeBlock orders request s = (.ok response, t)) :
    t = (endBlock (executedBlock orders request s)).2 := by
  obtain ⟨_, r, hrecord, h⟩ := Exec.bind_eq_ok.mp h
  obtain ⟨_, r', hfinalize, h⟩ := Exec.bind_eq_ok.mp h
  obtain ⟨_, s₁, hbegin, hfinalize⟩ := Exec.bind_eq_ok.mp hfinalize
  obtain ⟨_, s₂, hexec, hfinalize⟩ := Exec.bind_eq_ok.mp hfinalize
  obtain ⟨_, s₃, hend, hfinalize⟩ := Exec.bind_eq_ok.mp hfinalize
  obtain ⟨_, rfl⟩ := Prod.mk.inj hfinalize
  obtain ⟨_, _, hread, h⟩ := Exec.bind_eq_ok.mp h
  obtain ⟨-, rfl⟩ := Prod.mk.inj hread
  obtain ⟨-, rfl⟩ := Prod.mk.inj h
  rw [executedBlock, begunBlock, Exec.bind_of_ok hrecord, hbegin, hexec, hend]

end State

/-- The rule for invariants of a run: what holds after genesis and is kept from every moment to
the next holds at the end. -/
theorem Run.invariant [Host] {genesis : InitChain} {requests : List FinalizeBlock}
    {ms : List (Moment Store Event)} {s : Store} {P : Store → Prop}
    (hrun : Run genesis requests ms s)
    (hinit : ∀ response s, State.initChain genesis Store.empty = (.ok response, s) → P s)
    (hstep : ∀ m ∈ ms, P m.before → P m.after) : P s := by
  induction hrun with
  | start hok => exact hinit _ _ hok
  | block orders _ _ hfinalize ih =>
    have hbefore := ih fun m hm ↦ hstep m (List.mem_append_right _ hm)
    have hmoment := fun m hm ↦ hstep m (List.mem_append_left _ hm)
    rw [State.snd_handleFinalizeBlock hfinalize]
    refine hmoment _ List.mem_cons_self (State.execTxs_of_moments _ _ ?_ fun m hm ↦ ?_)
    · exact hmoment _ (List.mem_cons_of_mem _ (List.mem_append_right _ List.mem_cons_self)) hbefore
    · exact hmoment m (List.mem_cons_of_mem _ (List.mem_append_left _ hm))

/-! ## Running a chain -/

/-- The run through the given blocks, the last one first, with its moments and the store it ends
in; nothing if the genesis or a block fails, or if a block is earlier than the one before it. -/
def Run.exec [Host] (genesis : InitChain) :
    List ((ℕ → ℕ → IterOrder) × FinalizeBlock) → Option (List (Moment Store Event) × Store)
  | [] =>
    match State.initChain genesis Store.empty with
    | (.ok _, s) => some ([], s)
    | (.error _, _) => none
  | (orders, request) :: blocks =>
    (exec genesis blocks).bind fun (moments, s) ↦
      if State.InTime request s then
        match State.handleFinalizeBlock orders request s with
        | (.ok _, t) => some (State.blockMoments orders request s ++ moments, t)
        | (.error _, _) => none
      else none

/-- What `exec` runs through is a run. -/
theorem Run.of_exec [Host] {genesis : InitChain} :
    ∀ {blocks : List ((ℕ → ℕ → IterOrder) × FinalizeBlock)} {ms : List (Moment Store Event)}
      {s : Store}, exec genesis blocks = some (ms, s) → Run genesis (blocks.map Prod.snd) ms s
  | [], ms, s, h => by
    rw [exec] at h
    rcases hinit : State.initChain genesis Store.empty with ⟨e | response, t⟩ <;>
      simp only [hinit] at h
    · cases h
    · obtain ⟨rfl, rfl⟩ := Prod.mk.inj (Option.some.inj h)
      exact .start hinit
  | (orders, request) :: blocks, ms, s, h => by
    rw [exec] at h
    obtain ⟨⟨ms', s'⟩, hrest, h⟩ := Option.bind_eq_some_iff.mp h
    by_cases htime : State.InTime request s' <;> simp only [htime, if_true, if_false] at h
    · rcases hfinalize : State.handleFinalizeBlock orders request s' with ⟨e | response, t⟩ <;>
        simp only [hfinalize] at h
      · cases h
      · obtain ⟨rfl, rfl⟩ := Prod.mk.inj (Option.some.inj h)
        exact .block orders (of_exec hrest) htime hfinalize
    · cases h

end Felidae
