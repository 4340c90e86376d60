import Felidae.Publish.Leaves
import Felidae.Publish.LightBlock

/-!
# Reconstructing the canonical tree

The light client rebuilds the canonical substore from the published leaves in a store of its own,
and compares the root hash with the published one. Then it verifies the published proof for one
of the leaves against the app hash.
-/

namespace Felidae

/-- The store of the light client. -/
abbrev RawStore : Type := Backend Snapshot (List (Str × Option Bytes)) Bytes

/-- `Store::put_raw` -/
def Backend.putRaw (prefixedKey : Str) (value : Bytes) : Exec RawStore Fault Unit :=
  onState (Exec.modify fun s ↦ s.insert prefixedKey value)

namespace Publish

/-- One pass of the loop over the leaves. -/
def putLeaf (leaf : Str × Str) : Exec RawStore Fault Unit := do
  let valueBytes ← Exec.read fun _ ↦ okOr (hexDecode leaf.2)
    (.reject s!"failed to decode hex value for key {String.ofList leaf.1}")
  Backend.putRaw leaf.1 valueBytes

/-- Insert all leaves into the canonical substore. -/
def putLeaves (leaves : List (Str × Str)) : Exec RawStore Fault Unit :=
  Exec.forEach putLeaf leaves

/-- Rebuild the tree from the leaves. -/
def rebuild (leaves : List (Str × Str)) : Exec RawStore Fault Unit := do
  putLeaves leaves
  Backend.commit

variable [MerkleTree]

/-- The published root hash has to be the one of the rebuilt tree. -/
def checkRoot (response : CanonicalLeavesResponse) (rootHash : Bytes) : Except Fault Unit :=
  bailIf (hexEncode rootHash ≠ response.proof.canonicalRootHash)
    (s!"canonical root hash mismatch: reconstructed {String.ofList (hexEncode rootHash)} != "
      ++ s!"expected {String.ofList response.proof.canonicalRootHash}")

/-- Decode the proof bytes. -/
def decodeProofs (proofBytes : List Str) : Except Fault (List MerkleTree.CommitmentProof) :=
  collect (fun proofHex ↦ do
    let proofBytes ← okOr (hexDecode proofHex) (.reject "failed to decode proof hex")
    (MerkleTree.decodeProof proofBytes).mapError fun e ↦
      .reject s!"failed to decode CommitmentProof: {e}") proofBytes

/-- The value of the representative leaf: the first one with its key, and empty if it does not
decode. -/
def proofValue (leaves : List (Str × Str)) (representativeKey : Str) : Except Fault Bytes :=
  okOr ((leaves.find? fun leaf ↦ leaf.1 = representativeKey).map fun leaf ↦
      (hexDecode leaf.2).getD [])
    (.reject s!"representative key {String.ofList representativeKey} not found in leaves")

/-- The published proof has to show that the representative leaf is in the app hash. -/
def checkProof (response : CanonicalLeavesResponse) : Except Fault Unit := do
  let appHashBytes ← okOr (hexDecode response.proof.appHash)
    (.reject "failed to decode app_hash")
  match response.proof.merkleProof with
  | none => throw (.reject
      "No Merkle proof available - cannot verify canonical_root_hash inclusion in AppHash")
  | some info => do
    let proofs ← decodeProofs info.proofBytes
    if 2 ≤ proofs.length then do
      let value ← proofValue response.leaves info.representativeKey
      let canonicalKey ← okOr (stripPrefix "canonical/".toList info.representativeKey) (.reject
        (s!"representative key {String.ofList info.representativeKey} doesn't start with "
          ++ "'canonical/'"))
      (MerkleTree.verifyMembership proofs appHashBytes ["canonical".toList, canonicalKey]
        value).mapError fun e ↦ .reject
          s!"Failed to verify Merkle proof (canonical_root_hash in AppHash): {e}"
    else throw (.reject
      s!"Merkle proof should have at least 2 parts, got {proofs.length}")

/-- The checks on the response after the tree is rebuilt. -/
def checkResponse (response : CanonicalLeavesResponse) (rootHash : Bytes) :
    Except Fault Unit := do
  checkRoot response rootHash
  checkProof response

/-- `reconstruct` once the app hash has been compared: over a store that is empty at first. -/
def reconstructTree (response : CanonicalLeavesResponse) : Exec RawStore Fault Unit := do
  rebuild response.leaves
  Exec.read fun b ↦
    checkResponse response (MerkleTree.rootHash (Substore.canonical.entries b.storage))

/-- `reconstruct`, once the leaves have been fetched: the light blocks first, and then the tree. -/
def reconstruct [Tendermint] (response : CanonicalLeavesResponse) (answers : List Answer) :
    Except Fault Unit := do
  let _ ← (checkAppHash response.blockHeight response.proof.appHash answers).1
  (reconstructTree response (.new ∅)).1

end Publish

end Felidae
