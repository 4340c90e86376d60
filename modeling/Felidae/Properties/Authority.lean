import Felidae.Chain.Run
import Felidae.Ledger.Frame
import Felidae.Ledger.Registers
import Felidae.Reference

/-!
# What a transaction has no authority over

A transaction writes to the vote queues only, in any state and whether it succeeds or fails: an
observation to the oracle queue, a reconfiguration to the admin queue. The config and the canonical
state are changed by what the end of a block promotes, and by nothing else in a block.
-/

namespace Felidae

open Exec

section Host

variable [Host]

/-- The state outside the vote queues is the same in two stores. -/
structure SameOutsideQueues (s t : Store) : Prop where
  canonical : Table.canonical.entries t = Table.canonical.entries s
  config : Table.config.entries t = Table.config.entries s
  chainId : Table.chainId.entries t = Table.chainId.entries s
  blockHeight : Table.blockHeight.entries t = Table.blockHeight.entries s
  blockTime : Table.blockTime.entries t = Table.blockTime.entries s
  blockTimes : Table.blocktime.entries t = Table.blocktime.entries s
  appHashes : Table.apphash.entries t = Table.apphash.entries s
  validators : Table.validator.entries t = Table.validator.entries s
  /-- The canonical substore has a non-verifiable part as well. -/
  canonicalIndex : ∀ key, t.nonverifiable[Substore.canonical.prefixedBytes key]?
    = s.nonverifiable[Substore.canonical.prefixedBytes key]?

/-! ## Transactions -/

omit [Host] in
/-- The non-verifiable part of the canonical substore is no part of a queue. -/
theorem QueueId.not_ownsIndex_canonical (q : QueueId) (key : Bytes) :
    ¬q.OwnsIndex (Substore.canonical.prefixedBytes key) := by
  have hvote : ¬(IndexTable.vote q).head <+: toUtf8 (Substore.canonical.display ++ ['/']) ∧
      ¬toUtf8 (Substore.canonical.display ++ ['/']) <+: (IndexTable.vote q).head := by
    cases q <;> decide
  have hpending : ¬(IndexTable.pending q).head <+: toUtf8 (Substore.canonical.display ++ ['/']) ∧
      ¬toUtf8 (Substore.canonical.display ++ ['/']) <+: (IndexTable.pending q).head := by
    cases q <;> decide
  rintro (h | h)
  · exact not_prefix_of_heads hvote.1 hvote.2 h
  · exact not_prefix_of_heads hpending.1 hpending.2 h

theorem sameOutsideQueues_deliverTx (orders : ℕ → IterOrder) (txBytes : Bytes) (s : Store) :
    SameOutsideQueues s (State.deliverTx orders txBytes s).2 where
  canonical := spared_deliverTx rfl orders txBytes s
  config := spared_deliverTx rfl orders txBytes s
  chainId := spared_deliverTx rfl orders txBytes s
  blockHeight := spared_deliverTx rfl orders txBytes s
  blockTime := spared_deliverTx rfl orders txBytes s
  blockTimes := spared_deliverTx rfl orders txBytes s
  appHashes := spared_deliverTx rfl orders txBytes s
  validators := spared_deliverTx rfl orders txBytes s
  canonicalIndex key := by
    let entry (s : Store) := s.nonverifiable[Substore.canonical.prefixedBytes key]?
    exact keeps_deliverTx (f := entry) orders txBytes (fun _ _ action _ order s ↦
      QueueId.nonverifiable_of_outside_eq (confines_applyAction order action s)
        (QueueId.not_ownsIndex_canonical _ key)) s

/-- A transaction all of whose actions vote in one queue leaves the other one as it is. -/
theorem sameTables_deliverTx {q q' : QueueId} (hne : q' ≠ q) {txBytes : Bytes}
    (h : ∀ tx, AuthenticatedTx.fromProto txBytes = .ok tx →
      ∀ action ∈ tx.tx.actions, action.queue = q) (orders : ℕ → IterOrder) (s : Store) :
    q'.SameTables s (State.deliverTx orders txBytes s).2 := by
  have hconfines : q.Confines (State.deliverTx orders txBytes) :=
    keeps_deliverTx orders txBytes fun tx htx action haction order ↦
      h tx htx action haction ▸ confines_applyAction order action
  exact hconfines.sameTables hne s

/-! ## Blocks -/

/-- The config that is stored is the one of the first store, or one of those promoted from the state
`u` the transactions have left. -/
def ConfigPromoted (s u t : Store) : Prop :=
  Table.config.entries t = Table.config.entries s ∨
    ∃ queue configs v e, State.adminVoting u = .ok queue ∧
      queue.promotePendingChanges u = (.ok configs, v) ∧ e ∈ configs ∧
      Table.config.entries t [] = some (DomainType.toStored e.2)

/-- What is canonical is what was in the first store, or promoted when the configs have been put in
force. -/
def ObservationsPromoted (s u t : Store) : Prop :=
  ∀ key, Table.canonical.entries t key = Table.canonical.entries s key ∨
    ∃ adminQueue configs v w queue observations x e, State.adminVoting u = .ok adminQueue ∧
      adminQueue.promotePendingChanges u = (.ok configs, v) ∧
      Exec.forEach (fun e : Empty × Config ↦ State.applyConfig e.2) configs v = (.ok (), w) ∧
      State.oracleVoting w = .ok queue ∧
      queue.promotePendingChanges w = (.ok observations, x) ∧ e ∈ observations ∧
      e.1.display = key ∧ Table.canonical.entries t key =
        e.2.hashObserved.hash?.map fun hash ↦ DomainType.toStored (V := Bytes) hash.bytes

omit [Host] in
/-- Updating the canonical hash of a domain changes the entry of that domain only. -/
theorem canonical_updateCanonical (d : PrefixOrderDomain) (o : HashObserved) (key : Str)
    (s : Store) :
    Table.canonical.entries (State.updateCanonical d.toDomain o s).2 key
        = Table.canonical.entries s key ∨
      d.display = key ∧ Table.canonical.entries (State.updateCanonical d.toDomain o s).2 key
        = o.hash?.map fun hash ↦ DomainType.toStored (V := Bytes) hash.bytes := by
  by_cases hd : d.display = key
  · subst hd
    refine .inr ⟨rfl, ?_⟩
    cases o with
    | hash hash => exact PrefixMap.getElem?_insert_self _ _ _
    | notFound => exact PrefixMap.getElem?_erase_self _ _
  · have hne : Table.canonical.head ++ d.display ≠ Table.canonical.head ++ key := fun heq ↦
      hd (List.append_cancel_left heq)
    refine .inl ?_
    cases o with
    | hash hash => exact PrefixMap.getElem?_insert_of_ne hne
    | notFound => exact PrefixMap.getElem?_erase_of_ne hne

/-- The end of a block puts a promoted config in force, if anything. -/
theorem configPromoted_endBlock (u : Store) : ConfigPromoted u u (State.endBlock u).2 := by
  rw [State.endBlock]
  rcases hqueue : State.adminVoting u with e | queue
  · rw [Exec.read_bind_of_error hqueue]
    exact .inl rfl
  have hpromote := spared_promotePendingChanges (τ := .config) rfl (base_adminVoting hqueue) u
  rw [Exec.read_bind_of_ok hqueue, Exec.bind_apply]
  rcases hconfigs : queue.promotePendingChanges u with ⟨e | configs, v⟩ <;>
    rw [hconfigs] at hpromote
  · exact .inl hpromote
  -- the observations are promoted without looking at the config's table
  have hrest := bind_of_keeps (f := Table.config.entries)
    (Exec.forEach (fun e : Empty × Config ↦ State.applyConfig e.2) configs)
    (fun _ ↦ spared_promoteObservations rfl (by decide)) v
  have hloop := forEach_cases (ε := Fault) (f := Table.config.entries)
    (P := fun e entries ↦ entries [] = some (DomainType.toStored e.2))
    (x := fun e ↦ State.applyConfig e.2) (fun e s ↦ ?_) configs v
  · rw [← hrest] at hloop
    rcases hloop with hsame | ⟨e, he, hentry⟩
    · exact .inl (hsame.trans hpromote)
    · exact .inr ⟨queue, configs, v, e, hqueue, hconfigs, he, hentry⟩
  · rw [State.applyConfig]
    rcases hcurrent : State.config s with e | current
    · rw [Exec.read_bind_of_error hcurrent]
      exact .inl rfl
    · rw [Exec.read_bind_of_ok hcurrent]
      by_cases hversion : e.2.version ≤ current.version
      · rw [if_pos hversion]
        exact .inl rfl
      · rw [if_neg hversion]
        exact .inr (PrefixMap.getElem?_insert_self _ _ _)

/-- The end of a block changes what is canonical for the domains of promoted observations, if
anything. -/
theorem observationsPromoted_endBlock (u : Store) :
    ObservationsPromoted u u (State.endBlock u).2 := by
  intro key
  rw [State.endBlock]
  rcases hadmin : State.adminVoting u with e | adminQueue
  · rw [Exec.read_bind_of_error hadmin]
    exact .inl rfl
  have hv := congrFun (spared_promotePendingChanges (τ := .canonical) rfl
    (base_adminVoting hadmin) u) key
  rw [Exec.read_bind_of_ok hadmin, Exec.bind_apply]
  rcases hconfigs : adminQueue.promotePendingChanges u with ⟨e | configs, v⟩ <;>
    rw [hconfigs] at hv
  · exact .inl hv
  have hw := congrFun (keeps_forEach (f := Table.canonical.entries) (l := configs)
    (fun e _ ↦ spared_applyConfig (by decide) e.2) v) key
  simp only
  rw [Exec.bind_apply]
  rcases happly : Exec.forEach (fun e : Empty × Config ↦ State.applyConfig e.2) configs v with
    ⟨e | ⟨⟩, w⟩ <;> rw [happly] at hw
  · exact .inl (hw.trans hv)
  simp only
  rcases hqueue : State.oracleVoting w with e | queue
  · rw [Exec.read_bind_of_error hqueue]
    exact .inl (hw.trans hv)
  have hx := congrFun (spared_promotePendingChanges (τ := .canonical) rfl
    (base_oracleVoting hqueue) w) key
  rw [Exec.read_bind_of_ok hqueue, Exec.bind_apply]
  rcases hobservations : queue.promotePendingChanges w with ⟨e | observations, x⟩ <;>
    rw [hobservations] at hx
  · exact .inl (hx.trans (hw.trans hv))
  -- only the last loop writes canonical entries, each round that of its own domain
  have hrest := bind_of_keeps (f := fun s ↦ Table.canonical.entries s key)
    (Exec.forEach (fun e : PrefixOrderDomain × OracleVoteValue ↦
      State.updateCanonical e.1.toDomain e.2.hashObserved) observations)
    (fun _ ↦ keeps_read State.activeValidators) x
  have hloop := forEach_cases (ε := Fault) (f := fun s ↦ Table.canonical.entries s key)
    (P := fun (e : PrefixOrderDomain × OracleVoteValue) entry ↦ e.1.display = key ∧
      entry = e.2.hashObserved.hash?.map fun hash ↦ DomainType.toStored (V := Bytes) hash.bytes)
    (x := fun e ↦ State.updateCanonical e.1.toDomain e.2.hashObserved)
    (fun e s ↦ canonical_updateCanonical e.1 e.2.hashObserved key s) observations x
  rw [← hrest] at hloop
  rcases hloop with hsame | ⟨e, he, hkey, hentry⟩
  · exact .inl (hsame.trans (hx.trans (hw.trans hv)))
  · exact .inr ⟨adminQueue, configs, v, w, queue, observations, x, e, rfl, hconfigs, happly,
      hqueue, hobservations, he, hkey, hentry⟩

/-- A block ends where it got to: before the transactions, before the promotions, or after them. -/
theorem handleFinalizeBlock_cases (orders : ℕ → ℕ → IterOrder) (request : FinalizeBlock)
    (s : Store) :
    (State.handleFinalizeBlock orders request s).2 = State.begunBlock request s ∨
    (State.handleFinalizeBlock orders request s).2 = State.executedBlock orders request s ∨
    (State.handleFinalizeBlock orders request s).2
      = (State.endBlock (State.executedBlock orders request s)).2 := by
  rw [State.executedBlock, State.begunBlock, State.handleFinalizeBlock, Exec.bind_apply,
    Exec.bind_apply]
  rcases State.recordPrevious s with ⟨e | ⟨⟩, r⟩
  · exact .inl rfl
  simp only
  rw [Exec.bind_apply, State.finalizeBlock, Exec.bind_apply]
  rcases State.beginBlock request r with ⟨e | ⟨⟩, t⟩
  · exact .inl rfl
  simp only
  rw [Exec.bind_apply]
  rcases State.execTxs orders request.txs t with ⟨e | results, u⟩
  · exact .inr (.inl rfl)
  simp only
  rw [Exec.bind_apply]
  rcases State.endBlock u with ⟨e | updates, v⟩ <;> exact .inr (.inr rfl)

/-- What neither the start of a block nor a transaction writes is as it was when the promotions
start. -/
theorem entries_executedBlock {τ : Table} (hτ : τ.queued = false) (hheight : τ ≠ .blockHeight)
    (htime : τ ≠ .blockTime) (htimes : τ ≠ .blocktime) (hhash : τ ≠ .apphash)
    (orders : ℕ → ℕ → IterOrder) (request : FinalizeBlock) (s : Store) :
    τ.entries (State.begunBlock request s) = τ.entries s ∧
      τ.entries (State.executedBlock orders request s) = τ.entries s := by
  have hbegun : τ.entries (State.begunBlock request s) = τ.entries s :=
    ((spared_recordPrevious hhash).bind fun _ ↦ spared_beginBlock hτ hheight htime htimes request) s
  exact ⟨hbegun, (spared_execTxs hτ request.txs orders _).trans hbegun⟩

theorem configPromoted_handleFinalizeBlock (orders : ℕ → ℕ → IterOrder) (request : FinalizeBlock)
    (s : Store) : ConfigPromoted s (State.executedBlock orders request s)
      (State.handleFinalizeBlock orders request s).2 := by
  obtain ⟨hbegun, hexecuted⟩ := entries_executedBlock (τ := .config) rfl (by decide) (by decide)
    (by decide) (by decide) orders request s
  rcases handleFinalizeBlock_cases orders request s with h | h | h <;> rw [h]
  · exact .inl hbegun
  · exact .inl hexecuted
  · exact (configPromoted_endBlock _).imp (·.trans hexecuted) id

theorem observationsPromoted_handleFinalizeBlock (orders : ℕ → ℕ → IterOrder)
    (request : FinalizeBlock) (s : Store) :
    ObservationsPromoted s (State.executedBlock orders request s)
      (State.handleFinalizeBlock orders request s).2 := by
  obtain ⟨hbegun, hexecuted⟩ := entries_executedBlock (τ := .canonical) rfl (by decide) (by decide)
    (by decide) (by decide) orders request s
  rcases handleFinalizeBlock_cases orders request s with h | h | h <;> rw [h] <;> intro key
  · exact .inl (congrFun hbegun key)
  · exact .inl (congrFun hexecuted key)
  · exact (observationsPromoted_endBlock _ key).imp (·.trans (congrFun hexecuted key)) id

/-- Separation of authority, in every state: a transaction leaves everything outside the queues as
it is, and the queue that it has no action for; what is canonical and the config in force change
in a block only by promotion at its end. -/
theorem State.authority_separated (s : Store) :
    (∀ orders txBytes, SameOutsideQueues s (deliverTx orders txBytes s).2 ∧
      ∀ q q' : QueueId, q' ≠ q → (∀ tx, AuthenticatedTx.fromProto txBytes = .ok tx →
        ∀ action ∈ tx.tx.actions, action.queue = q) →
        q'.SameTables s (deliverTx orders txBytes s).2) ∧
    ∀ orders request,
      ConfigPromoted s (executedBlock orders request s)
        (handleFinalizeBlock orders request s).2 ∧
      ObservationsPromoted s (executedBlock orders request s)
        (handleFinalizeBlock orders request s).2 :=
  ⟨fun orders txBytes ↦ ⟨sameOutsideQueues_deliverTx orders txBytes s,
      fun _ _ hne hqueue ↦ sameTables_deliverTx hne hqueue orders s⟩,
    fun orders request ↦ ⟨configPromoted_handleFinalizeBlock orders request s,
      observationsPromoted_handleFinalizeBlock orders request s⟩⟩

end Host

namespace Reference

/-- An admin has voted for another config. -/
def proposing : List FinalizeBlock := [blockAt 2 20 [shrinkByBob], blockAt 1 10 [found]]

/-- The observation is accepted, while there is one vote in the admin queue. -/
def observes (s : Store) : Bool :=
  (State.deliverTx (fun _ ↦ listed) observeByAlice.bytes s).1.toOption.isSome &&
    ((QueueId.admin.queue State.defaultConfig).votesForKey Empty.mk s).toOption.any
      fun votes ↦ votes.length = 1

/-- An observation that is accepted leaves the vote in the admin queue where it is. -/
theorem sameTables_observeByAlice : ∃ s,
    (State.deliverTx (fun _ ↦ listed) observeByAlice.bytes s).1 = .ok () ∧
    (∃ vote, StoredVote .admin s vote) ∧
    SameOutsideQueues s (State.deliverTx (fun _ ↦ listed) observeByAlice.bytes s).2 ∧
    QueueId.admin.SameTables s (State.deliverTx (fun _ ↦ listed) observeByAlice.bytes s).2 := by
  obtain ⟨_, s, -, htest⟩ := exists_run_of_any genesis listed proposing
    (fun r ↦ observes (State.begunBlock (blockAt 3 30 []) r.2)) (by decide +kernel)
  obtain ⟨haccepted, hvotes⟩ := Bool.and_eq_true_iff.mp htest
  obtain ⟨⟨⟩, hok⟩ := Option.isSome_iff_exists.mp haccepted
  obtain ⟨votes, hread, hlength⟩ := (Option.any_eq_true ..).mp hvotes
  obtain ⟨vote, rfl⟩ := List.length_eq_one_iff.mp (of_decide_eq_true hlength)
  have hqueue : (AuthenticatedTx.fromProto observeByAlice.bytes).toOption.all fun tx ↦
      decide (∀ action ∈ tx.tx.actions, action.queue = .oracle) := by decide +kernel
  obtain ⟨houtside, hsame⟩ := (State.authority_separated
    (State.begunBlock (blockAt 3 30 []) s)).1 (fun _ ↦ listed) observeByAlice.bytes
  refine ⟨_, except_toOption_eq_some.mp hok,
    ⟨vote, fun c ↦ ⟨_, ?_, List.mem_singleton_self _⟩⟩, houtside,
    hsame .oracle .admin (by decide) fun tx htx ↦ ?_⟩
  · obtain ⟨⟩ := vote.key
    exact except_toOption_eq_some.mp hread
  · rw [htx] at hqueue
    exact of_decide_eq_true hqueue

end Reference

end Felidae
