import Mathlib.Data.List.Forall2
import Felidae.Chain.Refine
import Felidae.Reference

/-!
# Two levels of one chain

The chain keeps its state in texts and bytes: keys with delimiters, hex digits and timestamps in
them, an index beside every table. What it does with them is what the ledger does with functions.
Each moment of a run is a step of the ledger, and whatever a handler or a query can read of a store
that a run passes through is what the ledger says it is.
-/

namespace Felidae

section Host

variable [Host]

/-- All reads of the store give what the ledger holds. -/
structure Ledger.ReadFrom (L : Ledger) (s : Store) : Prop where
  config : State.config s = .ok L.config
  chainId : L.chainId.id ≠ [] → State.chainId s = .ok L.chainId
  height : State.blockHeight s
    = okOr L.height (.corrupt "block height not found in state; is the state initialized?")
  time : State.blockTime s
    = okOr L.time (.corrupt "block time not found in state; is the state initialized?")
  timeOfBlock : ∀ height, State.timeOfBlock height s
    = okOr (L.blockTimes height) (.reject "block time not found in state")
  previousAppHash : ∀ height, State.previousAppHash height s
    = okOr (L.appHashes height) (.reject "app hash not found in state")
  canonicalHash : ∀ d : PrefixOrderDomain, State.canonicalHash d.toDomain s = .ok (L.canonical d)
  votes : ∀ (q : QueueId) (k : q.Key), ∃ es : List (Bytes × Second × q.Value),
    (q.queue L.config).votesForKey k s = .ok (es.map (q.readEntry k)) ∧
      (∀ e, e ∈ es ↔ (L.queue q).votes k e.1 = some e.2) ∧ es.Nodup
  pending : ∀ (q : QueueId) (k : q.Key), (q.queue L.config).pendingForKey k s
    = .ok (((L.queue q).pending k).map Prod.snd)

/-- The moment of the ledger is what is read of the moment of the store. -/
structure ReadsAs (m : Moment Store Event) (M : Moment Ledger Event) : Prop where
  event : m.event = M.event
  before : M.before.ReadFrom m.before
  after : M.after.ReadFrom m.after

variable [LawfulHost] {s : Store} {L : Ledger}

theorem Represents.readFrom (h : Represents s L) (hL : L.Sound) : L.ReadFrom s where
  config := h.config
  chainId := h.chainId
  height := h.blockHeight
  time := h.blockTime
  timeOfBlock := h.timeOfBlock
  previousAppHash := h.previousAppHash
  canonicalHash := h.canonicalHash
  votes := fun q k ↦ h.votesForKey hL q L.config k
  pending := fun q k ↦ h.pendingForKey hL q L.config k

/-- Every run is a run of the ledger: moment by moment, with the same events, and with everything
that can be read. -/
theorem Run.refines {genesis : InitChain} {requests : List FinalizeBlock}
    {ms : List (Moment Store Event)} (hrun : Run genesis requests ms s) :
    ∃ h L, LedgerHistory h L ∧ L.ReadFrom s ∧ List.Forall₂ ReadsAs ms h := by
  obtain ⟨h, L, hshown⟩ := hrun.exists_shown
  refine ⟨h, L, hshown.history, hshown.represents.readFrom hshown.history.sound, ?_⟩
  -- a ledger is only read back if it is sound, and every ledger of a history is
  have hsound : ∀ M ∈ h, M.before.Sound ∧ M.after.Sound :=
    fun M hM ↦ hshown.history.sound_of_mem hM
  have hpaired := ((List.forall₂_and_left _ _).mpr ⟨hsound, hshown.moments.flip⟩).flip
  refine hpaired.imp fun m M hmM ↦ ?_
  obtain ⟨⟨hbefore, hafter⟩, hshows⟩ := hmM
  exact ⟨hshows.event, hshows.before.readFrom hbefore, hshows.after.readFrom hafter⟩

end Host

namespace Reference

theorem refines_enrolling : ∃ ms s, Run genesis enrolling ms s ∧
    ∃ h L, LedgerHistory h L ∧ L.ReadFrom s ∧ List.Forall₂ ReadsAs ms h := by
  obtain ⟨ms, s, -, hrun⟩ := exists_run
    (by decide +kernel : (Run.exec genesis (inOrder listed enrolling)).isSome)
  exact ⟨ms, s, hrun, hrun.refines⟩

end Reference

end Felidae
