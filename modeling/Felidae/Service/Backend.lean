import Felidae.Foundation.CopyOnWrite
import Felidae.Foundation.Exec
import Felidae.Store

/-!
# The state backend of a node

`crate::Store`: a storage with its latest snapshot, a working delta over a snapshot, and the batch
that is staged between `prepare_commit` and `commit`. The contents of the storage are a parameter:
the node keeps typed values in it, and the light client raw bytes.
-/

namespace Felidae

universe u v w

/-- The changes of a delta, and the root hash of the state they lead to. -/
structure StagedWriteBatch (δ : Type v) (ρ : Type w) where
  changes : δ
  rootHash : ρ

/-- `crate::Store`, the mutable state backend. -/
structure Backend (σ : Type u) (δ : Type v) (ρ : Type w) where
  /-- The latest snapshot of the storage. -/
  storage : σ
  /-- The in-memory mutable state, yet to be applied to the storage. -/
  state : Delta σ δ
  /-- The batch which gets prepared in FinalizeBlock and committed in Commit. -/
  stagedBatch : Option (StagedWriteBatch δ ρ)

namespace Backend

variable {σ : Type u} {δ : Type v} {ρ : Type w} [CopyOnWrite σ δ] {α : Type}

/-- `Store::new`, over a storage with the given contents. -/
def new (storage : σ) : Backend σ δ ρ := ⟨storage, .new storage, none⟩

/-- Run a computation on the working state. -/
def onState (c : Exec σ Fault α) : Exec (Backend σ δ ρ) Fault α := fun b ↦
  let result := c b.state.view
  (result.1, { b with state := b.state.write result.2 })

/-- Prepare the commit to get the root hash, and stage the changes of the working state, which
starts anew over the latest snapshot. -/
def prepareCommit (root : σ → ρ) : Exec (Backend σ δ ρ) Fault ρ := fun b ↦
  let batch : StagedWriteBatch δ ρ := ⟨b.state.written, root b.state.view⟩
  (.ok batch.rootHash, { b with state := .new b.storage, stagedBatch := some batch })

/-- Commit the staged batch to the storage, and update the working state to the new snapshot. -/
def commit : Exec (Backend σ δ ρ) Fault Unit := fun b ↦
  match b.stagedBatch with
  | none =>
    (.error (.reject
      "no staged batch to commit - prepare_commit must be called before commit"), b)
  | some batch => (.ok (), .new (overlay b.storage batch.changes))

/-- Create a logical fork of the store. -/
def fork (b : Backend σ δ ρ) : Backend σ δ ρ := { b with stagedBatch := none }

theorem commit_of_staged {b : Backend σ δ ρ} {batch : StagedWriteBatch δ ρ}
    (h : b.stagedBatch = some batch) :
    commit b = (.ok (), .new (overlay b.storage batch.changes)) := by
  rw [commit, h]

theorem onState_eq_ok {c : Exec σ Fault α} {a : α} {b b' : Backend σ δ ρ} :
    onState c b = (.ok a, b') ↔
      ∃ t, c b.state.view = (.ok a, t) ∧ b' = { b with state := b.state.write t } := by
  rw [onState]
  constructor
  · intro h
    obtain ⟨ha, rfl⟩ := Prod.mk.inj h
    exact ⟨_, Prod.ext ha rfl, rfl⟩
  · rintro ⟨t, hc, rfl⟩
    rw [hc]

end Backend

/-! ## The node -/

/-- The changes of the verifiable part and of the index. -/
abbrev Store.Changes : Type :=
  List (Str × Option Proto.Stored) × List (Bytes × Option Proto.Stored)

instance : CopyOnWrite Store Store.Changes where
  unchanged := ([], [])
  overlay s d := ⟨overlay s.verifiable d.1, overlay s.nonverifiable d.2⟩
  changes s t := (changes s.verifiable t.verifiable, changes s.nonverifiable t.nonverifiable)
  overlay_unchanged _ := rfl
  overlay_changes s t := by rw [overlay_changes, overlay_changes]

/-- The backend of a node. -/
abbrev NodeStore : Type := Backend Store Store.Changes AppHash

end Felidae
