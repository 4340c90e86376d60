import Felidae.Foundation.Bytes
import Felidae.Service.Backend

/-!
# Published leaves

A node publishes the canonical substore as a list of leaves, with the root hash of the substore, the
app hash, and a proof that the last leaf is in it. The values are the raw bytes of a snapshot: the
publisher and the light client do not decode them.
-/

namespace Felidae

/-- The raw contents of a store, under prefixed keys. -/
abbrev Snapshot : Type := PrefixMap Char Bytes

/-- The contents of a substore, under its own keys. -/
def Substore.entries (substore : Substore) (s : Snapshot) : List (Str × Bytes) :=
  (s.scan (substore.prefixed [])).filterMap fun e ↦
    (Substore.unprefix substore e.1).map fun key ↦ (key, e.2)

namespace Substore

variable {substore : Substore} {s t : Snapshot} {key : Str} {value : Bytes}

theorem prefixed_injective (substore : Substore) : Function.Injective substore.prefixed :=
  fun _ _ h ↦ (List.cons.inj (List.append_cancel_left h)).2

/-- The keys of a substore are the keys below its name. -/
theorem prefixed_nil_prefix_iff :
    substore.prefixed [] <+: key ↔ ∃ k, key = substore.prefixed k := by
  constructor
  · rintro ⟨k, rfl⟩
    exact ⟨k, by simp [prefixed]⟩
  · rintro ⟨k, rfl⟩
    exact (List.prefix_append_right_inj _).mpr (List.prefix_append ['/'] k)

theorem mem_entries : (key, value) ∈ substore.entries s ↔
    s[substore.prefixed key]? = some value := by
  rw [entries, List.mem_filterMap]
  constructor
  · rintro ⟨⟨k, v⟩, hmem, heq⟩
    obtain ⟨key', hunprefix, heq⟩ := Option.map_eq_some_iff.mp heq
    obtain ⟨rfl, rfl⟩ := Prod.mk.inj heq
    rw [← eq_prefixed_of_unprefix hunprefix]
    exact (PrefixMap.mem_scan.mp hmem).1
  · intro hget
    refine ⟨(substore.prefixed key, value),
      PrefixMap.mem_scan.mpr ⟨hget, prefixed_nil_prefix_iff.mpr ⟨key, rfl⟩⟩, ?_⟩
    rw [unprefix_prefixed, Option.map_some]

theorem entries_congr (h : ∀ k, s[substore.prefixed k]? = t[substore.prefixed k]?) :
    substore.entries s = substore.entries t := by
  rw [entries, entries, PrefixMap.scan_congr fun key hkey ↦ ?_]
  obtain ⟨k, rfl⟩ := prefixed_nil_prefix_iff.mp hkey
  exact h k

end Substore

/-- The crates that hash trees and prove what is in them: `jmt`, `ics23` and `cnidarium`, with
prost's codec of the values that are decoded. -/
class MerkleTree where
  /-- A `CommitmentProof`. -/
  CommitmentProof : Type
  decodeProof : Bytes → Except String CommitmentProof
  encodeProof : CommitmentProof → Bytes
  /-- The root hash of a substore with the given contents. -/
  rootHash : List (Str × Bytes) → Bytes
  /-- The root hash of a snapshot. -/
  appHash : Snapshot → Bytes
  /-- `Snapshot::get_with_proof` -/
  getWithProof : Snapshot → Str → Except String (List CommitmentProof)
  /-- `MerkleProof::verify_membership` under the specs of the tree: the proofs, the root, the path
  and the value. -/
  verifyMembership : List CommitmentProof → Bytes → List Str → Bytes → Except String Unit
  /-- `Height::decode` -/
  decodeHeight : Bytes → Except String Height

/-- What the light client relies on: tree roots have no collisions, and an accepted proof shows that
the value is in the canonical substore. -/
class LawfulMerkleTree [MerkleTree] : Prop where
  rootHash_injective : Function.Injective MerkleTree.rootHash
  mem_of_verifyMembership : ∀ {proofs : List MerkleTree.CommitmentProof} {s : Snapshot}
    {key : Str} {value : Bytes},
    MerkleTree.verifyMembership proofs (MerkleTree.appHash s) ["canonical".toList, key] value
      = .ok () → (key, value) ∈ Substore.canonical.entries s

namespace Publish

structure MerkleProofInfo where
  representativeKey : Str
  proofBytes : List Str
  deriving DecidableEq

structure Proof where
  canonicalRootHash : Str
  appHash : Str
  merkleProof : Option MerkleProofInfo
  deriving DecidableEq

structure CanonicalLeavesResponse where
  blockHeight : ℕ
  /-- Keys, and values in hexadecimal digits. -/
  leaves : List (Str × Str)
  proof : Proof
  deriving DecidableEq

/-- The leaves of a snapshot: the keys with the name of the substore, and the values. -/
def exportLeaves (s : Snapshot) : List (Str × Str) :=
  (s.scan (Substore.canonical.prefixed [])).map fun e ↦ (e.1, hexEncode e.2)

/-- `canonical_leaves`. A proof that cannot be made is left out. -/
def canonicalLeaves [MerkleTree] (s : Snapshot) : Except Fault CanonicalLeavesResponse := do
  let blockHeightBytes ← okOr s[Substore.internal.prefixed "current/block_height".toList]?
    (.reject "block height not found in state")
  let blockHeight ← (MerkleTree.decodeHeight blockHeightBytes).mapError fun e ↦
    .reject s!"failed to decode block height: {e}"
  let leaves := exportLeaves s
  let merkleProof := (leaves.getLast?.map Prod.fst).bind fun key ↦
    (MerkleTree.getWithProof s key).toOption.map fun proofs ↦
      ⟨key, proofs.map fun proof ↦ hexEncode (MerkleTree.encodeProof proof)⟩
  return {
    blockHeight := blockHeight.value
    leaves := leaves
    proof := {
      canonicalRootHash := hexEncode (MerkleTree.rootHash (Substore.canonical.entries s))
      appHash := hexEncode (MerkleTree.appHash s)
      merkleProof := merkleProof } }

end Publish

end Felidae
