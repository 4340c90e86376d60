import Felidae.Publish.Leaves

/-!
# Comparing the state of two nodes

What `debug compare-state` does with the storage of two nodes after a chain halt: both are dumped,
key by key, and every difference is reported.
-/

namespace Felidae

/-- The storage of a node: its version, and the latest snapshot. -/
structure Storage where
  latestVersion : UInt64
  latestSnapshot : Snapshot

structure StorageDump where
  version : UInt64
  internalRoot : Str
  canonicalRoot : Str
  keys : Snapshot

/-- What is reported of two dumps. -/
structure StateDiff where
  versionMismatch : Bool
  internalRootMismatch : Bool
  canonicalRootMismatch : Bool
  onlyA : List Str
  onlyB : List Str
  valueMismatch : List Str

section Dump

variable [MerkleTree]

/-- Load a storage and dump both substores. -/
def loadAndDump (storage : Storage) : StorageDump where
  version := storage.latestVersion
  internalRoot :=
    hexEncode (MerkleTree.rootHash (Substore.internal.entries storage.latestSnapshot))
  canonicalRoot :=
    hexEncode (MerkleTree.rootHash (Substore.canonical.entries storage.latestSnapshot))
  keys := (∅ : Snapshot).insertAll (["internal/", "canonical/"].flatMap fun head ↦
    storage.latestSnapshot.scan head.toList)

end Dump

/-- The keys of the first dump that are missing in the second. -/
def keysOnlyIn (a b : StorageDump) : List Str := a.keys.keys.filter fun k ↦ !b.keys.contains k

/-- The comparison that `run_impl` prints. -/
def compareDumps (a b : StorageDump) : StateDiff where
  versionMismatch := a.version ≠ b.version
  internalRootMismatch := a.internalRoot ≠ b.internalRoot
  canonicalRootMismatch := a.canonicalRoot ≠ b.canonicalRoot
  onlyA := keysOnlyIn a b
  onlyB := keysOnlyIn b a
  valueMismatch := a.keys.keys.filter fun k ↦ b.keys.contains k && a.keys[k]? != b.keys[k]?

/-- `debug compare-state` -/
def compareState [MerkleTree] (a b : Storage) : StateDiff :=
  compareDumps (loadAndDump a) (loadAndDump b)

end Felidae
