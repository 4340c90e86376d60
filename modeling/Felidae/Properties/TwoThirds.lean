import Mathlib.Algebra.Order.BigOperators.Group.List
import Felidae.Publish.Reference

/-!
# When a light block is verified

A light block is verified exactly if its commit belongs to its header and is signed by more than two
thirds of the voting power. The sums are computed in 64 bits with a sign and the threshold is
rounded down; but a validator set has an eighth of the largest sum at most, so nothing wraps around.
-/

namespace Felidae.Publish

variable [Tendermint]

/-! ## Signatures -/

/-- The signature of a validator over the precommit for the block is valid. -/
def SignatureValid (commit : Commit) (chainId : Str) (idx : ℕ) (validator : Validator)
    (timestamp : Time) (signatureBytes : Bytes) : Prop :=
  idx < 2147483648 ∧ ∃ id signBytes, Tendermint.parseChainId chainId = .ok id ∧
    Tendermint.toSignableBytes ⟨commit.height, commit.round, commit.blockId, timestamp,
      validator.address, idx, signatureBytes⟩ id = .ok signBytes ∧
    Tendermint.verify validator.pubKey signBytes signatureBytes = .ok ()

variable {validators : List Validator} {commit : Commit} {chainId : Str}

theorem verifySignature_eq_ok {idx : ℕ} {validator : Validator} {timestamp : Time}
    {signatureBytes : Bytes} :
    verifySignature commit chainId idx validator timestamp signatureBytes = .ok () ↔
      SignatureValid commit chainId idx validator timestamp signatureBytes := by
  rw [verifySignature, SignatureValid]
  by_cases hidx : 2147483648 ≤ idx
  · rw [if_pos hidx]
    exact iff_of_false (by rintro ⟨⟩) fun h ↦ absurd h.1 (Nat.not_lt.mpr hidx)
  · rw [if_neg hidx]
    constructor
    · intro h
      obtain ⟨id, hid, h⟩ := except_bind_eq_ok.mp h
      obtain ⟨signBytes, hbytes, h⟩ := except_bind_eq_ok.mp h
      exact ⟨Nat.lt_of_not_le hidx, id, signBytes, mapError_eq_ok.mp hid, mapError_eq_ok.mp hbytes,
        mapError_eq_ok.mp h⟩
    · rintro ⟨-, id, signBytes, hid, hbytes, h⟩
      exact except_bind_eq_ok.mpr ⟨id, mapError_eq_ok.mpr hid,
        except_bind_eq_ok.mpr ⟨signBytes, mapError_eq_ok.mpr hbytes, mapError_eq_ok.mpr h⟩⟩

/-- A slot for the block holds a signature of the validator at the same index. -/
def SlotValid (validators : List Validator) (commit : Commit) (chainId : Str)
    (slot : CommitSig × ℕ) : Prop :=
  match slot.1 with
  | .absent | .nil => True
  | .commit timestamp signature => ∃ validator signatureBytes,
    validators[slot.2]? = some validator ∧ signature = some signatureBytes ∧
      SignatureValid commit chainId slot.2 validator timestamp signatureBytes

/-- The voting power behind a slot: the one of its validator, if the slot is for the block. -/
def slotPower (validators : List Validator) (slot : CommitSig × ℕ) : ℕ :=
  match slot.1, validators[slot.2]? with
  | .commit _ _, some validator => validator.power.value
  | _, _ => 0

/-- The voting power of the validators that have signed for the block. -/
def signedPower (validators : List Validator) (commit : Commit) : ℕ :=
  (commit.signatures.zipIdx.map (slotPower validators)).sum

/-- One pass of the loop: the slot has to be valid, and its power is added. -/
theorem tallySignature_eq_ok {tallied t : ℤ} {slot : CommitSig × ℕ}
    (hslot : slot.2 < validators.length) (hpos : 0 ≤ tallied)
    (hfits : tallied + slotPower validators slot ≤ 9223372036854775807) :
    tallySignature validators commit chainId tallied slot = .ok t ↔
      SlotValid validators commit chainId slot ∧ t = tallied + slotPower validators slot := by
  obtain ⟨sig, idx⟩ := slot
  have hget : validators[idx]? = some validators[idx] := List.getElem?_eq_getElem hslot
  rw [tallySignature, hget, okOr_some, except_ok_bind]
  cases sig with
  -- such a slot is skipped
  | absent | nil =>
    simp [SlotValid, slotPower, eq_comm, pure, Except.pure]
  | commit timestamp signature =>
    have hpower : slotPower validators (.commit timestamp signature, idx)
        = validators[idx].power.value := by rw [slotPower, hget]
    rw [hpower] at hfits ⊢
    have hadd : wrapI64 (tallied + wrapI64 validators[idx].power.value)
        = tallied + validators[idx].power.value := by
      rw [wrapI64_of_le (n := validators[idx].power.value) (by omega) (by omega),
        wrapI64_of_le (by omega) hfits]
    cases signature with
    | none => exact iff_of_false (by rintro ⟨⟩) (by rintro ⟨⟨_, _, _, ⟨⟩, _⟩, _⟩)
    | some signatureBytes =>
      constructor
      · intro h
        obtain ⟨bytes, hbytes, h⟩ := except_bind_eq_ok.mp h
        obtain rfl := Except.ok.inj hbytes
        obtain ⟨⟨⟩, hverify, hsum⟩ := except_bind_eq_ok.mp h
        rw [← Except.ok.inj hsum]
        exact ⟨⟨_, _, hget, rfl, verifySignature_eq_ok.mp hverify⟩, hadd⟩
      · rintro ⟨⟨validator, bytes, hvalidator, hbytes, hvalid⟩, rfl⟩
        obtain rfl := Option.some.inj hbytes
        obtain rfl := Option.some.inj (hget.symm.trans hvalidator)
        refine except_bind_eq_ok.mpr ⟨_, rfl, except_bind_eq_ok.mpr
          ⟨(), verifySignature_eq_ok.mpr hvalid, congrArg _ hadd⟩⟩

/-- The loop over the signatures. -/
theorem foldlM_tallySignature_eq_ok {slots : List (CommitSig × ℕ)}
    (hslots : ∀ slot ∈ slots, slot.2 < validators.length) :
    ∀ (tallied t : ℤ), 0 ≤ tallied →
      tallied + (slots.map (slotPower validators)).sum ≤ 9223372036854775807 →
      (slots.foldlM (tallySignature validators commit chainId) tallied = .ok t ↔
        (∀ slot ∈ slots, SlotValid validators commit chainId slot) ∧
          t = tallied + (slots.map (slotPower validators)).sum) := by
  induction slots with
  | nil =>
    intro tallied t _ _
    simp [eq_comm, pure, Except.pure]
  | cons slot slots ih =>
    intro tallied t hpos hfits
    rw [List.map_cons, List.sum_cons, Nat.cast_add, ← add_assoc] at hfits ⊢
    rw [List.foldlM_cons, except_bind_eq_ok, List.forall_mem_cons]
    have hslot (t' : ℤ) : tallySignature validators commit chainId tallied slot = .ok t' ↔ _ :=
      tallySignature_eq_ok (hslots slot List.mem_cons_self) hpos (by omega)
    have hrest (t' : ℤ) := ih (fun x hx ↦ hslots x (List.mem_cons_of_mem _ hx))
      (tallied + slotPower validators slot) t' (by omega) hfits
    constructor
    · rintro ⟨t', ht', h⟩
      obtain ⟨hvalid, rfl⟩ := (hslot t').mp ht'
      obtain ⟨hvalids, rfl⟩ := (hrest _).mp h
      exact ⟨⟨hvalid, hvalids⟩, rfl⟩
    · rintro ⟨⟨hvalid, hvalids⟩, rfl⟩
      exact ⟨_, (hslot _).mpr ⟨hvalid, rfl⟩, (hrest _).mpr ⟨hvalids, rfl⟩⟩

/-! ## Light blocks -/

omit [Tendermint] in
/-- At most all validators have signed. -/
theorem signedPower_le (h : validators.length = commit.signatures.length) :
    signedPower validators commit ≤ (validators.map fun v ↦ v.power.value).sum := by
  let power : ℕ → ℕ := fun idx ↦ (validators[idx]?).elim 0 fun v ↦ v.power.value
  have hslot : ∀ slot ∈ commit.signatures.zipIdx, slotPower validators slot ≤ power slot.2 := by
    rintro ⟨sig, idx⟩ -
    cases sig <;> simp only [slotPower, power, Nat.zero_le]
    rcases validators[idx]? with _ | v <;> simp
  have hall : (List.range validators.length).map power
      = validators.map fun v ↦ v.power.value := by
    refine List.ext_getElem (by simp) fun idx h₁ h₂ ↦ ?_
    simp only [List.length_map, List.length_range] at h₁
    simp [power, h₁]
  calc signedPower validators commit
      ≤ (commit.signatures.zipIdx.map fun slot ↦ power slot.2).sum := List.sum_le_sum hslot
    _ = ((List.range commit.signatures.length).map power).sum := by
      rw [List.range_eq_range', ← List.zipIdx_map_snd, List.map_map]
      rfl
    _ = (validators.map fun v ↦ v.power.value).sum := by rw [← h, hall]

/-- The commit belongs to the header, every slot for the block is validly signed, and the
validators that have signed have more than two thirds of the voting power. -/
structure TwoThirdsSigned (signedHeader : SignedHeader) (set : ValidatorSet) (chainId : Str) :
    Prop where
  slots : set.validators.length = signedHeader.commit.signatures.length
  height : signedHeader.header.height = signedHeader.commit.height
  hash : Tendermint.headerHash signedHeader.header = signedHeader.commit.blockId.hash
  valid : ∀ slot ∈ signedHeader.commit.signatures.zipIdx,
    SlotValid set.validators signedHeader.commit chainId slot
  power : 2 * set.totalVotingPower.value < 3 * signedPower set.validators signedHeader.commit

omit [Tendermint] in
/-- The threshold is two thirds of the total voting power, rounded down. -/
theorem threshold_eq {total : ℕ} (h : total ≤ maxTotalVotingPower) :
    (wrapI64 (wrapI64 total * 2)).tdiv 3 = total * 2 / 3 := by
  rw [maxTotalVotingPower] at h
  rw [wrapI64_of_le (n := total) (by omega) (by omega), wrapI64_of_le (by omega) (by omega),
    Int.tdiv_eq_ediv_of_nonneg (by omega)]

/-- The tally stays within the total voting power of the set. -/
theorem tally_eq_ok {set : ValidatorSet}
    (htotal : set.totalVotingPower.value = (set.validators.map fun v ↦ v.power.value).sum)
    (hslots : set.validators.length = commit.signatures.length) {t : ℤ} :
    commit.signatures.zipIdx.foldlM (tallySignature set.validators commit chainId) 0 = .ok t ↔
      (∀ slot ∈ commit.signatures.zipIdx, SlotValid set.validators commit chainId slot) ∧
        t = signedPower set.validators commit := by
  have hle := signedPower_le hslots
  have hmax := set.totalVotingPower.le
  rw [htotal] at hmax
  have hindex : ∀ slot ∈ commit.signatures.zipIdx, slot.2 < set.validators.length :=
    fun slot hslot ↦ by
      obtain ⟨-, hlt, -⟩ := List.mem_zipIdx hslot
      omega
  rw [foldlM_tallySignature_eq_ok hindex _ _ le_rfl
    (by rw [zero_add]; exact_mod_cast hle.trans hmax), zero_add]
  rfl

/-- A light block is verified exactly if it is signed by two thirds, if its validator set has the
sum of the powers for its total, within the limit. -/
theorem verifyLightBlock_eq_ok {signedHeader : SignedHeader} {set : ValidatorSet}
    (htotal : set.totalVotingPower.value = (set.validators.map fun v ↦ v.power.value).sum)
    (hle : set.totalVotingPower.value ≤ maxTotalVotingPower) :
    verifyLightBlock signedHeader set chainId = .ok () ↔
      TwoThirdsSigned signedHeader set chainId := by
  have hbail : ∀ {P : Prop} [Decidable P] {m : String}, bailIf (¬P) m = .ok () ↔ P := fun {P} _ m ↦
    (decides_bailIf _ _).iff.trans not_not
  simp only [verifyLightBlock, except_bind_eq_ok, hbail, threshold_eq hle]
  constructor
  · rintro ⟨⟨⟩, hslots, ⟨⟩, hheight, ⟨⟩, hhash, tallied, htallied, hpower⟩
    obtain ⟨hvalid, rfl⟩ := (tally_eq_ok htotal hslots).mp htallied
    have hpower := not_le.mp ((decides_bailIf _ _).iff.mp hpower)
    exact ⟨hslots, hheight, hhash, hvalid, by omega⟩
  · rintro ⟨hslots, hheight, hhash, hvalid, hpower⟩
    refine ⟨(), hslots, (), hheight, (), hhash, _, (tally_eq_ok htotal hslots).mpr ⟨hvalid, rfl⟩,
      (decides_bailIf _ _).iff.mpr ?_⟩
    omega

section Set

variable [LawfulTendermint] {proposer : Option Validator} {set : ValidatorSet}

/-- The total voting power of a set that was made is that of its validators. -/
theorem total_of_newSet (hset : Tendermint.newSet validators proposer = some set) :
    set.totalVotingPower.value = (set.validators.map fun v ↦ v.power.value).sum :=
  (LawfulTendermint.total_of_newSet hset).trans
    ((LawfulTendermint.perm_of_newSet hset).map fun v ↦ v.power.value).sum_eq.symm

/-- For every validator set that can be made, a light block is verified exactly if its commit
belongs to its header, every slot for the block is validly signed, and three times the voting power
of those slots is more than twice the total voting power. -/
theorem verifyLightBlock_ok_iff (hset : Tendermint.newSet validators proposer = some set)
    (signedHeader : SignedHeader) (chainId : Str) :
    verifyLightBlock signedHeader set chainId = .ok () ↔
      TwoThirdsSigned signedHeader set chainId :=
  verifyLightBlock_eq_ok (total_of_newSet hset) (LawfulTendermint.total_le_of_newSet hset)

end Set

end Felidae.Publish

namespace Felidae.Reference

open Publish

/-- The first header with its commit. -/
def firstSigned : SignedHeader := ⟨firstHeader, firstCommit⟩

/-- The validator of the first header has signed it, and has all the voting power. -/
theorem verifyLightBlock_ok_iff_first : ∃ set,
    Tendermint.newSet [signer] (some signer) = some set ∧
    verifyLightBlock firstSigned set "felidae".toList = .ok () ∧
    (verifyLightBlock firstSigned set "felidae".toList = .ok () ↔
      TwoThirdsSigned firstSigned set "felidae".toList) := by
  have hset : Tendermint.newSet [signer] (some signer) = some ⟨[signer], some signer, power⟩ := by
    decide +kernel
  exact ⟨_, hset, by decide +kernel, verifyLightBlock_ok_iff hset _ _⟩

end Felidae.Reference
