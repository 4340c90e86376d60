import Felidae.Properties.Rebuild

/-!
# What the published leaves are bound to

The light client compares the root hash of the leaves with a root hash the server sent, and has one
leaf proven against the app hash. Nothing compares the root hash that was sent with the app hash: it
is bound to the chain only if the server sends the right one.
-/

namespace Felidae.Publish

/-- The leaves are exactly the canonical substore. -/
def ExportsCanonical (s : Snapshot) (pairs : List (Str × Bytes)) : Prop :=
  ∀ key value, (key, value) ∈ pairs ↔
    ∃ k, key = Substore.canonical.prefixed k ∧ (k, value) ∈ Substore.canonical.entries s

/-- The response is pinned to the canonical substore: it has its root hash, and leaves of that
substore only, under each key one value. -/
structure PinsCanonical [MerkleTree] (s : Snapshot) (response : CanonicalLeavesResponse)
    (pairs : List (Str × Bytes)) : Prop where
  root : response.proof.canonicalRootHash
    = hexEncode (MerkleTree.rootHash (Substore.canonical.entries s))
  canonical : ∀ pair ∈ pairs, Substore.canonical.prefixed [] <+: pair.1
  consistent : ∀ key a b, (key, a) ∈ pairs → (key, b) ∈ pairs → a = b

/-- The entries of the substore say the same as its name and the snapshot. -/
theorem ExportsCanonical.mem_iff {s : Snapshot} {pairs : List (Str × Bytes)}
    (h : ExportsCanonical s pairs) {k : Str} {value : Bytes} :
    (Substore.canonical.prefixed k, value) ∈ pairs ↔
      (k, value) ∈ Substore.canonical.entries s := by
  rw [h]
  refine ⟨?_, fun hk ↦ ⟨k, rfl, hk⟩⟩
  rintro ⟨k', hk', hmem⟩
  rwa [Substore.prefixed_injective _ hk']

/-! ## What the checks establish -/

theorem checkRoot_iff {response : CanonicalLeavesResponse} {rootHash : Bytes} :
    checkRoot response rootHash = .ok () ↔
      hexEncode rootHash = response.proof.canonicalRootHash :=
  (decides_bailIf _ _).iff.trans not_not

section Checks

variable [MerkleTree] {s : Snapshot} {response : CanonicalLeavesResponse}
  {pairs : List (Str × Bytes)}

/-- The proof is for the value of a leaf, under a key of the canonical substore. -/
theorem checkProof_eq_ok {root : Bytes} (hroot : hexDecode response.proof.appHash = some root)
    (h : checkProof response = .ok ()) : ∃ proofs key leaf, leaf ∈ response.leaves ∧
      leaf.1 = Substore.canonical.prefixed key ∧
      MerkleTree.verifyMembership proofs root ["canonical".toList, key]
        ((hexDecode leaf.2).getD []) = .ok () := by
  rw [checkProof, hroot, okOr_some, except_ok_bind] at h
  rcases hproof : response.proof.merkleProof with _ | info
  · rw [hproof] at h
    cases h
  · rw [hproof] at h
    obtain ⟨proofs, hproofs, h⟩ := except_bind_eq_ok.mp h
    by_cases hlength : 2 ≤ proofs.length
    · rw [if_pos hlength] at h
      obtain ⟨value, hvalue, h⟩ := except_bind_eq_ok.mp h
      obtain ⟨key, hkey, h⟩ := except_bind_eq_ok.mp h
      -- the proof is for a key of the canonical substore that is itself among the leaves
      have hrepresentative : stripPrefix "canonical/".toList info.representativeKey = some key := by
        rcases hstrip : stripPrefix "canonical/".toList info.representativeKey with _ | key'
        · rw [hstrip] at hkey
          cases hkey
        · rw [hstrip] at hkey
          rw [Except.ok.inj hkey]
      rw [proofValue] at hvalue
      rcases hfind : response.leaves.find? fun leaf ↦ leaf.1 = info.representativeKey
        with _ | leaf
      · rw [hfind] at hvalue
        cases hvalue
      · rw [hfind] at hvalue
        have hleaf : leaf.1 = info.representativeKey := of_decide_eq_true (List.find?_some hfind :)
        refine ⟨proofs, key, leaf, List.mem_of_find?_eq_some hfind, ?_, ?_⟩
        · rw [hleaf, eq_append_of_stripPrefix hrepresentative]
          rfl
        · obtain rfl := Except.ok.inj hvalue
          rcases hverify : MerkleTree.verifyMembership proofs root ["canonical".toList, key]
            ((hexDecode leaf.2).getD []) with e | ⟨⟩
          · rw [hverify] at h
            cases h
          · rfl
    · rw [if_neg hlength] at h
      cases h

/-- The checks bind one leaf: it is in the canonical substore. -/
theorem exists_mem_of_checkProof [LawfulMerkleTree] (hleaves : Decodes response.leaves pairs)
    (htrusted : hexDecode response.proof.appHash = some (MerkleTree.appHash s))
    (h : checkProof response = .ok ()) : ∃ key value,
      (Substore.canonical.prefixed key, value) ∈ pairs ∧
        (key, value) ∈ Substore.canonical.entries s := by
  obtain ⟨proofs, key, leaf, hleaf, hkey, hverify⟩ := checkProof_eq_ok htrusted h
  obtain ⟨pair, hpair, hpairkey, hvalue⟩ := exists_of_mem_forall₂ hleaves hleaf
  rw [hvalue] at hverify
  exact ⟨key, pair.2, by rw [← hkey, hpairkey]; exact hpair,
    LawfulMerkleTree.mem_of_verifyMembership hverify⟩

/-- If all checks pass on a response with a trusted app hash, then one of its leaves is in the
canonical substore; and the leaves are exactly the canonical substore if and only if the response is
pinned to it. -/
theorem exportsCanonical_iff [LawfulMerkleTree] (hleaves : Decodes response.leaves pairs)
    (htrusted : hexDecode response.proof.appHash = some (MerkleTree.appHash s))
    (hchecks : checkResponse response (MerkleTree.rootHash
      (Substore.canonical.entries ((∅ : Snapshot).insertAll pairs))) = .ok ()) :
    (∃ key value, (Substore.canonical.prefixed key, value) ∈ pairs ∧
      (key, value) ∈ Substore.canonical.entries s) ∧
    (ExportsCanonical s pairs ↔ PinsCanonical s response pairs) := by
  obtain ⟨⟨⟩, hroot, hproof⟩ := except_bind_eq_ok.mp hchecks
  have hroot := checkRoot_iff.mp hroot
  refine ⟨exists_mem_of_checkProof hleaves htrusted hproof, fun hexports ↦ ?_, ?_⟩
  · have hconsistent : ∀ key a b, (key, a) ∈ pairs → (key, b) ∈ pairs → a = b := by
      intro key a b ha hb
      obtain ⟨k, rfl, hka⟩ := (hexports key a).mp ha
      have hkb := hexports.mem_iff.mp hb
      exact Option.some.inj ((Substore.mem_entries.mp hka).symm.trans (Substore.mem_entries.mp hkb))
    refine ⟨?_, fun pair hpair ↦ ?_, hconsistent⟩
    · rw [← hroot, Substore.entries_congr fun k ↦ Option.ext fun value ↦ ?_]
      rw [PrefixMap.getElem?_insertAll_iff hconsistent, hexports.mem_iff, Substore.mem_entries]
    · obtain ⟨k, hk, -⟩ := (hexports pair.1 pair.2).mp hpair
      exact Substore.prefixed_nil_prefix_iff.mpr ⟨k, hk⟩
  · rintro ⟨hpinned, hcanonical, hconsistent⟩ key value
    -- the root that was checked is the root of the snapshot, so the entries agree
    have hentries := LawfulMerkleTree.rootHash_injective
      (hexEncode_injective (hroot.trans hpinned))
    have hmem : ∀ {k}, (Substore.canonical.prefixed k, value) ∈ pairs ↔
        (k, value) ∈ Substore.canonical.entries s := by
      intro k
      rw [← hentries, Substore.mem_entries, PrefixMap.getElem?_insertAll_iff hconsistent]
    constructor
    · intro hpair
      obtain ⟨k, rfl⟩ := Substore.prefixed_nil_prefix_iff.mp (hcanonical _ hpair)
      exact ⟨k, rfl, hmem.mp hpair⟩
    · rintro ⟨k, rfl, hk⟩
      exact hmem.mpr hk

end Checks

end Felidae.Publish

namespace Felidae.Reference

open Publish

/-- The proof for the second domain, in digits. -/
def exampleOrgProof : MerkleProofInfo :=
  ⟨Substore.canonical.prefixed exampleOrg.1, membership.1.map hexEncode⟩

/-- What the node publishes. -/
def published : CanonicalLeavesResponse where
  blockHeight := 2
  leaves := exportLeaves snapshot
  proof := ⟨hexEncode canonicalRoot, hexEncode snapshotRoot, some exampleOrgProof⟩

/-- The first domain is left out, and the root hash is the one of the leaves that remain. -/
def shortened : CanonicalLeavesResponse where
  blockHeight := 2
  leaves := [(Substore.canonical.prefixed exampleOrg.1, hexEncode exampleOrg.2)]
  proof := ⟨hexEncode exampleOrgRoot, hexEncode snapshotRoot, some exampleOrgProof⟩

/-- All checks pass on a response that leaves a domain out. -/
theorem not_exportsCanonical_shortened : ∃ pairs, Decodes shortened.leaves pairs ∧
    hexDecode shortened.proof.appHash = some (MerkleTree.appHash snapshot) ∧
    checkResponse shortened (MerkleTree.rootHash
      (Substore.canonical.entries ((∅ : Snapshot).insertAll pairs))) = .ok () ∧
    ¬ExportsCanonical snapshot pairs := by
  refine ⟨[(Substore.canonical.prefixed exampleOrg.1, exampleOrg.2)],
    .cons ⟨rfl, hexDecode_hexEncode _⟩ .nil, by decide +kernel, by decide +kernel,
    fun hexports ↦ ?_⟩
  have hmem : (Substore.canonical.prefixed exampleCom.1, exampleCom.2) ∈
      [(Substore.canonical.prefixed exampleOrg.1, exampleOrg.2)] :=
    (hexports _ _).mpr ⟨_, rfl, by decide +kernel⟩
  exact absurd hmem (by decide +kernel)

theorem exportsCanonical_published : canonicalLeaves snapshot = .ok published ∧
    ExportsCanonical snapshot (snapshot.scan (Substore.canonical.prefixed [])) := by
  refine ⟨by decide +kernel, ?_⟩
  have hpinned : PinsCanonical snapshot published
      (snapshot.scan (Substore.canonical.prefixed [])) := by
    refine ⟨by decide +kernel, fun pair hpair ↦ (PrefixMap.mem_scan.mp hpair).2, ?_⟩
    intro key a b ha hb
    exact Option.some.inj
      ((PrefixMap.mem_scan.mp ha).1.symm.trans (PrefixMap.mem_scan.mp hb).1)
  exact (exportsCanonical_iff (decodes_exportLeaves snapshot) (by decide +kernel)
    (by decide +kernel)).2.mpr hpinned

end Felidae.Reference
