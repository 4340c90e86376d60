import Felidae.Ledger.Basic
import Felidae.Proto.Stored
import Felidae.Publish.Leaves

/-!
# The raw contents of a store

A snapshot of the store holds the encodings of its values. Every key is in one of the two
substores, and determines as what kind of message its value is stored.
-/

namespace Felidae

open Std (ExtTreeMap)

/-- The raw contents of the verifiable part of a store. -/
def Store.snapshot (s : Store) : Snapshot := s.verifiable.map fun _ v ↦ v.encode

theorem Store.getElem?_snapshot (s : Store) (key : Str) :
    s.snapshot[key]? = s.verifiable[key]?.map Proto.Stored.encode := ExtTreeMap.getElem?_map

/-- The substore of a table. -/
def Table.substore : Table → Substore
  | canonical => .canonical
  | _ => .internal

/-- A key is in one substore only. -/
theorem Substore.eq_of_prefix {substore substore' : Substore} {key : Str}
    (h : substore.prefixed [] <+: key) (h' : substore'.prefixed [] <+: key) :
    substore = substore' := by
  have hprefix := List.prefix_or_prefix_of_prefix h h'
  cases substore <;> cases substore' <;> first | rfl | exact absurd hprefix (by decide)

theorem Table.substore_prefix_head (τ : Table) : τ.substore.prefixed [] <+: τ.head := by
  have hall : ∀ τ ∈ all, τ.substore.prefixed [] <+: τ.head := by decide
  exact hall τ τ.mem_all

/-- As what the values of a queue are stored. -/
def QueueId.kind : QueueId → Proto.Stored.Kind
  | admin => .config
  | oracle => .voteValue

/-- As what the values of a table are stored. -/
def Table.kind : Table → Proto.Stored.Kind
  | config => .config
  | chainId => .string
  | blockHeight | validator => .uint64
  | blockTime | blocktime => .timestamp
  | apphash | canonical => .bytes
  | vote q | pending q => q.kind

variable [Host] {s t : Store} {L M : Ledger}

theorem QueueId.kind_toStored (q : QueueId) (v : q.Value) :
    (DomainType.toStored v).kind = q.kind := by
  cases q <;> rfl

theorem Ledger.kind_of_view {k : Key} {v : Proto.Stored} (h : L.view k = some v) :
    v.kind = k.table.kind := by
  cases k with
  | config | chainId => exact Option.some.inj h ▸ rfl
  | vote q | pending q =>
    obtain ⟨w, -, rfl⟩ := Option.map_eq_some_iff.mp h
    exact q.kind_toStored w
  | _ =>
    obtain ⟨w, -, rfl⟩ := Option.map_eq_some_iff.mp h
    rfl

namespace Represents

/-- The snapshot holds the encodings of what the ledger holds. -/
theorem getElem?_snapshot (h : Represents s L) (k : Key) :
    s.snapshot[k.text]? = (L.view k).map Proto.Stored.encode := by
  rw [s.getElem?_snapshot, ← h.verifiable.get k]
  rfl

theorem exists_key (h : Represents s L) {key : Str} {value : Bytes}
    (hget : s.snapshot[key]? = some value) : ∃ k : Key, key = k.text := by
  rw [s.getElem?_snapshot, Option.map_eq_some_iff] at hget
  obtain ⟨v, hv, -⟩ := hget
  exact h.verifiable.covered key v hv (List.nil_prefix)

theorem substore_prefix_text (k : Key) : k.table.substore.prefixed [] <+: k.text :=
  k.table.substore_prefix_head.trans (List.prefix_append _ _)

/-- Two snapshots hold the same under a key exactly if the ledgers do. -/
theorem getElem?_snapshot_eq_iff (h : Represents s L) (h' : Represents t M) (k : Key) :
    s.snapshot[k.text]? = t.snapshot[k.text]? ↔ L.view k = M.view k := by
  rw [h.getElem?_snapshot, h'.getElem?_snapshot]
  constructor
  · intro heq
    rcases hv : L.view k with _ | v <;> rcases hw : M.view k with _ | w <;> rw [hv, hw] at heq
    · cases heq
    · cases heq
    · rw [Proto.Stored.eq_of_encode_eq
        ((Ledger.kind_of_view hv).trans (Ledger.kind_of_view hw).symm) (Option.some.inj heq)]
  · exact fun heq ↦ by rw [heq]

end Represents

end Felidae
