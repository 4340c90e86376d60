import Mathlib.Data.List.Sort
import Mathlib.Logic.Encodable.Basic
import Mathlib.Logic.Equiv.List
import Felidae.Publish.Leaves
import Felidae.Publish.LightBlock
import Felidae.Reference

/-!
# Reference publications

An instance of `MerkleTree` for the snapshot of a chain with two enrolled domains: with the root
hashes of its trees, and with the proof that one of the domains is enrolled. And an instance of
`Tendermint` for the first block of a chain with one validator: with the hash of its header, and
with the signature of the validator.
-/

namespace Felidae.Reference

/-- A hash that was observed, as it is stored. -/
def stored (hash : ℕ) : Bytes := [10, 32] ++ bytesOf 32 hash

def exampleCom : Str × Bytes := (".com.example".toList, stored
  0x21c00c8f3cfe40a95a5c7f353e41a7718eceeeca139fc446be7b8d752720aa97)

def exampleOrg : Str × Bytes := (".org.example".toList, stored
  0x0997e49cb808d510de88eee3a22a8b5c5ca5b097dffe8ba9273a1c0842a5f5cf)

/-- The chain is at height 2, and two domains are enrolled. -/
def snapshot : Snapshot :=
  .ofList [(Substore.canonical.prefixed exampleCom.1, exampleCom.2),
    (Substore.canonical.prefixed exampleOrg.1, exampleOrg.2),
    (Substore.internal.prefixed "current/block_height".toList, [8, 2])]

/-! ## Hashes -/

/-- The root hash of the canonical substore. -/
def canonicalRoot : Bytes := bytesOf 32
  0x1b91cea0f741f046afff3480d3c8f9a56e855de762450fcc3214b3e5c7b5c4c5

/-- The root hash of a substore with the second domain only. -/
def exampleOrgRoot : Bytes := bytesOf 32
  0x5f6ce3469612a5300fab5dc3936e3dc67f0d78a4aa2e8315238953f951cd669d

def snapshotRoot : Bytes := bytesOf 32
  0x2620d4f089405bf973379a873df55cab7fe6724bb62bd450074a8bf646109398

/-- The proof that the second domain is in the canonical substore. -/
def existsInCanonical : Bytes :=
  bytesOf 40 0x0a7f0a0c2e6f72672e6578616d706c6512220a200997e49cb808d510de88eee3a22a8b5c5ca5b097
    ++ bytesOf 40 0xdffe8ba9273a1c0842a5f5cf1a150801100118012a0d4a4d543a3a4c6561664e6f64652234080112
    ++ bytesOf 40 0x304a4d543a3a496e74726e616c4e6f64653899b475ed59fa036fc4d53cb2e751a6241cbf192c33a0
    ++ bytesOf 9 0xe173c7e980a2633142

/-- The proof that the canonical substore is in the snapshot. -/
def existsInSnapshot : Bytes :=
  bytesOf 40 0x0aec010a0963616e6f6e6963616c12201b91cea0f741f046afff3480d3c8f9a56e855de762450fcc
    ++ bytesOf 40 0x3214b3e5c7b5c4c51a150801100118012a0d4a4d543a3a4c6561664e6f64652236080112104a4d54
    ++ bytesOf 40 0x3a3a496e74726e616c4e6f64651a20bc1c06fb6027a5527a68d7e1efdef55a6c3a3b445fac3bb1fe
    ++ bytesOf 40 0x55c8c5669bd6f12236080112104a4d543a3a496e74726e616c4e6f64651a205350415253455f4d45
    ++ bytesOf 40 0x524b4c455f504c414345484f4c4445525f484153485f5f2236080112104a4d543a3a496e74726e61
    ++ bytesOf 39 0x6c4e6f64651a205350415253455f4d45524b4c455f504c414345484f4c4445525f484153485f5f

/-- Zeros that tell the contents of a substore, more of them than a hash has bytes. -/
def zerosOf (entries : List (Str × Bytes)) : Bytes :=
  .replicate (33 + Encodable.encode
    (entries.map fun e ↦ (e.1.map Char.toNat, e.2.map UInt8.toNat))) 0

theorem zerosOf_injective : Function.Injective zerosOf := by
  intro l l' h
  have hlen := congrArg List.length h
  rw [zerosOf, zerosOf, List.length_replicate, List.length_replicate] at hlen
  have hmap := Encodable.encode_injective (Nat.add_left_cancel hlen)
  refine (List.map_injective_iff.mpr fun a b hab ↦ ?_) hmap
  obtain ⟨hkey, hvalue⟩ := Prod.mk.inj hab
  exact Prod.ext (List.map_injective_iff.mpr (fun _ _ ↦ Char.toNat_inj.mp) hkey)
    (List.map_injective_iff.mpr (fun _ _ ↦ UInt8.toNat_inj.mp) hvalue)

theorem zerosOf_ne {hash : Bytes} (h : hash.length = 32) (l : List (Str × Bytes)) :
    zerosOf l ≠ hash := by
  rintro rfl
  rw [zerosOf, List.length_replicate] at h
  omega

/-- The root hashes of substores. -/
def rootHash : List (Str × Bytes) → Bytes :=
  tabulate [([exampleCom, exampleOrg], canonicalRoot), ([exampleOrg], exampleOrgRoot)] zerosOf

/-- The root hashes of snapshots. -/
def appHashOf (s : Snapshot) : Bytes := tabulate [(snapshot.toList, snapshotRoot)] zerosOf s.toList

theorem rootHash_injective : Function.Injective rootHash := by
  refine tabulate_injective zerosOf_injective (by decide +kernel) fun l hl ↦ ?_
  simp only [List.map_cons, List.map_nil, List.mem_cons, List.not_mem_nil, or_false] at hl
  rcases hl with hl | hl <;> exact zerosOf_ne (by decide +kernel) l hl

theorem appHashOf_injective : Function.Injective appHashOf := by
  intro s t h
  refine Std.ExtTreeMap.toList_inj.mp (tabulate_injective zerosOf_injective (by decide +kernel)
    (fun l hl ↦ ?_) h)
  rw [List.map_singleton, List.mem_singleton] at hl
  exact zerosOf_ne (by decide +kernel) l hl

/-! ## Proofs -/

/-- The only proof that is known here. -/
def membership : List Bytes × Bytes × List Str × Bytes :=
  ([existsInCanonical, existsInSnapshot], snapshotRoot,
    ["canonical".toList, exampleOrg.1], exampleOrg.2)

def verifyMembership (proofs : List Bytes) (root : Bytes) (path : List Str) (value : Bytes) :
    Except String Unit :=
  if (proofs, root, path, value) = membership then .ok ()
  else .error "failed to verify membership"

theorem mem_of_verifyMembership {proofs : List Bytes} {s : Snapshot} {key : Str} {value : Bytes}
    (h : verifyMembership proofs (appHashOf s) ["canonical".toList, key] value = .ok ()) :
    (key, value) ∈ Substore.canonical.entries s := by
  rw [verifyMembership] at h
  split at h
  next hknown =>
    simp only [membership, Prod.mk.injEq, List.cons.injEq, true_and, and_true] at hknown
    obtain ⟨-, hroot, rfl, rfl⟩ := hknown
    have hsnapshot : appHashOf snapshot = snapshotRoot := by decide +kernel
    obtain rfl := appHashOf_injective (hroot.trans hsnapshot.symm)
    decide +kernel
  next => cases h

scoped instance : MerkleTree where
  CommitmentProof := Bytes
  decodeProof := .ok
  encodeProof proof := proof
  rootHash := rootHash
  appHash := appHashOf
  getWithProof s key :=
    if s.toList = snapshot.toList ∧ key = Substore.canonical.prefixed exampleOrg.1 then
      .ok membership.1
    else .error "no proof for key"
  verifyMembership := verifyMembership
  decodeHeight
    | [8, height] => .ok ⟨height.toNat % 128, by omega⟩
    | _ => .error "failed to decode Protobuf message"

scoped instance : LawfulMerkleTree where
  rootHash_injective := rootHash_injective
  mem_of_verifyMembership := mem_of_verifyMembership

/-! ## A signed block -/

def signerKey : Bytes := bytesOf 32
  0x56451ee05fdd095b212a098b74fd0903de7c62a6471525d8bed10eacd64b555b

def signerAddress : Bytes := bytesOf 20
  0xe3c725d25f95a4e125a624e8a59a079728e8eba5

def signer : Publish.Validator := ⟨signerAddress, .ed25519 signerKey, power⟩

def firstAppHash : Bytes := bytesOf 32
  0xa65f816c3ab7c83cd8ff7e4266117574ec7b64d2be570233c656f1062aecdcf6

/-- The other fields of the first header, as they are hashed. -/
def firstFields : Bytes :=
  bytesOf 40 0x02080b090a0766656c69646165020814021200220a20e3b0c44298fc1c149afbf4c8996fb92427ae
    ++ bytesOf 40 0x41e4649b934ca495991b7852b855220a20e3b0c44298fc1c149afbf4c8996fb92427ae41e4649b93
    ++ bytesOf 40 0x4ca495991b7852b855220a208a805f56dc9040f1366eb577fd876f38744cdb324bfa6d8864cd671e
    ++ bytesOf 40 0x21e4686c220a208a805f56dc9040f1366eb577fd876f38744cdb324bfa6d8864cd671e21e4686c22
    ++ bytesOf 40 0x0a20048091bc7ddc283f77bfbf91d73c44da58c3df8a9cbc867405d8b7f3daada22f220a20e3b0c4
    ++ bytesOf 40 0x4298fc1c149afbf4c8996fb92427ae41e4649b934ca495991b7852b855220a20e3b0c44298fc1c14
    ++ bytesOf 24 0x9afbf4c8996fb92427ae41e4649b934ca495991b7852b855

def firstHeader : Publish.Header := ⟨firstHeight, firstAppHash, signerAddress, firstFields⟩

/-- The hash of the first header. -/
def firstHash : Bytes := bytesOf 32
  0xc79b1b6a85a04203fb50096b9f505f172ad6fb878e76fc3d69d5b60cdd41c3e7

def firstPartSetHeader : Bytes :=
  bytesOf 36 0x08011220d13a12070497076c7c92262098986e58f4bd3ac345eda9a67d4e28afb85d46e6

def firstSignature : Bytes :=
  bytesOf 40 0x126f9e459978dda567f41a287f4939a0e88d16f4b4dd3ace19cc309e01133b7fd7e268f6a413ab3f
    ++ bytesOf 24 0xdcc429b43bfba3d96c6bad8622c0898f0c1a138cb521fe05

/-- What the validator signs. -/
def firstSignBytes : Bytes :=
  bytesOf 40 0x62080211010000000000000022480a20c79b1b6a85a04203fb50096b9f505f172ad6fb878e76fc3d
    ++ bytesOf 40 0x69d5b60cdd41c3e7122408011220d13a12070497076c7c92262098986e58f4bd3ac345eda9a67d4e
    ++ bytesOf 19 0x28afb85d46e62a020819320766656c69646165

def firstCommit : Publish.Commit where
  height := firstHeight
  round := 0
  blockId := ⟨firstHash, firstPartSetHeader⟩
  signatures := [.commit (timeAt 25) (some firstSignature)]

/-- The validators with the highest power first, and the sum of their powers, if it is within the
limit. -/
def newSet (validators : List Publish.Validator) (proposer : Option Publish.Validator) :
    Option Publish.ValidatorSet :=
  if h : (validators.map fun v ↦ v.power.value).sum ≤ Publish.maxTotalVotingPower then
    some ⟨validators.insertionSort fun v w ↦ w.power.value < v.power.value ∨
      w.power.value = v.power.value ∧ compare v.address w.address ≠ .gt, proposer,
      ⟨_, h.trans (by decide)⟩⟩
  else none

theorem newSet_eq_some {validators : List Publish.Validator} {proposer : Option Publish.Validator}
    {set : Publish.ValidatorSet} (h : newSet validators proposer = some set) :
    set.validators.Perm validators ∧
      set.totalVotingPower.value = (validators.map fun v ↦ v.power.value).sum ∧
      set.totalVotingPower.value ≤ Publish.maxTotalVotingPower := by
  obtain ⟨hle, hset⟩ := Option.dite_none_right_eq_some.mp h
  obtain rfl := Option.some.inj hset
  exact ⟨List.perm_insertionSort _ validators, rfl, hle⟩

/-- The characters of a chain id. -/
def parseChainId (s : Str) : Except String ChainId :=
  if s ≠ [] ∧ s.length ≤ 50 ∧ s.all fun c ↦ c.isAlphanum || c = '-' || c = '_' || c = '.' then
    .ok ⟨s⟩
  else .error "invalid chain id"

scoped instance : Publish.Tendermint where
  headerHash := tabulate [(firstHeader, firstHash)] fun _ ↦ []
  newSet := newSet
  parseChainId := parseChainId
  toSignableBytes vote chainId :=
    if (vote.height.value, vote.round, vote.blockId, vote.timestamp, chainId.id)
        = (1, 0, firstCommit.blockId, timeAt 25, "felidae".toList) then .ok firstSignBytes
    else .error "unknown vote"
  verify publicKey message signature :=
    if (publicKey, message, signature) = (signer.pubKey, firstSignBytes, firstSignature) then .ok ()
    else .error "signature verification failed"

scoped instance : Publish.LawfulTendermint where
  perm_of_newSet h := (newSet_eq_some h).1
  total_of_newSet h := (newSet_eq_some h).2.1
  total_le_of_newSet h := (newSet_eq_some h).2.2

end Felidae.Reference
