import Felidae.Properties.TwoThirds

/-!
# Which header the light client trusts

The light block of the response's height is verified, and the app hash is compared with the one of
the next height, whose light block is never verified. So the header that is trusted is a verified
one only if the node answers both requests with the same header.
-/

namespace Felidae.Publish

/-! ## What the client has read -/

/-- The header a node answers with. -/
def Answer.header? : Answer → Option Header
  | .commit (.ok signedHeader) => some signedHeader.header
  | _ => none

/-- The headers among the answers of a node. -/
def headers (answers : List Answer) : List Header := answers.filterMap Answer.header?

@[simp] theorem headers_append (l l' : List Answer) : headers (l ++ l') = headers l ++ headers l' :=
  List.filterMap_append

/-- The computation takes answers from the front, also if it fails; if it succeeds, `P` holds of its
result and of what it has taken. -/
def Reads {α : Type} (x : Exec (List Answer) Fault α) (P : α → List Answer → Prop) : Prop :=
  ∀ answers, ∃ consumed, answers = consumed ++ (x answers).2 ∧
    ∀ a, (x answers).1 = .ok a → P a consumed

section Reads

variable {α β : Type} {x : Exec (List Answer) Fault α} {P Q : α → List Answer → Prop}

theorem Reads.mono (hx : Reads x P) (h : ∀ a c, P a c → Q a c) : Reads x Q := fun answers ↦ by
  obtain ⟨consumed, hconsumed, hP⟩ := hx answers
  exact ⟨consumed, hconsumed, fun a ha ↦ h a consumed (hP a ha)⟩

/-- What is read first is followed by what is read then. -/
theorem Reads.bind {f : α → Exec (List Answer) Fault β} {R : α → β → List Answer → Prop}
    (hx : Reads x P) (hf : ∀ a, Reads (f a) (R a)) :
    Reads (x >>= f) fun b c ↦ ∃ a c₁ c₂, c = c₁ ++ c₂ ∧ P a c₁ ∧ R a b c₂ := by
  intro answers
  obtain ⟨c₁, hc₁, hP⟩ := hx answers
  rcases hxa : x answers with ⟨e | a, rest⟩ <;> rw [hxa] at hc₁ hP
  · rw [Exec.bind_of_error hxa]
    exact ⟨c₁, hc₁, fun b hb ↦ by cases hb⟩
  · rw [Exec.bind_of_ok hxa]
    obtain ⟨c₂, hc₂, hR⟩ := hf a rest
    refine ⟨c₁ ++ c₂, ?_, fun b hb ↦ ⟨a, c₁, c₂, rfl, hP a rfl, hR b hb⟩⟩
    rw [List.append_assoc, ← hc₂]
    exact hc₁

theorem reads_read (r : Except Fault α) :
    Reads (Exec.read fun _ ↦ r) fun a c ↦ c = [] ∧ r = .ok a :=
  fun _ ↦ ⟨[], rfl, fun _ ha ↦ ⟨rfl, ha⟩⟩

theorem reads_pure (a : α) :
    Reads (pure a : Exec (List Answer) Fault α) fun a' c ↦ c = [] ∧ a' = a :=
  fun _ ↦ ⟨[], rfl, fun _ ha ↦ ⟨rfl, (Except.ok.inj ha).symm⟩⟩

end Reads

theorem reads_askStatus : Reads askStatus fun _ c ↦ headers c = [] := by
  intro answers
  rw [askStatus.eq_def]
  split
  next result answers => exact ⟨[.status result], rfl, fun _ _ ↦ rfl⟩
  next => exact ⟨[], rfl, fun _ _ ↦ rfl⟩

theorem reads_askValidators :
    Reads askValidators fun vs c ↦ headers c = [] ∧ .validators (.ok vs) ∈ c := by
  intro answers
  rw [askValidators.eq_def]
  split
  next result answers =>
    refine ⟨[.validators result], rfl, fun vs hvs ↦ ⟨rfl, ?_⟩⟩
    cases result with
    | error e => cases hvs
    | ok vs' =>
      obtain rfl := Except.ok.inj hvs
      exact List.mem_singleton_self _
  next => exact ⟨[], rfl, fun _ hvs ↦ by cases hvs⟩

/-- Of the answers to the requests for a commit only the last one is a header. -/
theorem reads_awaitCommit (height : Height) :
    Reads (awaitCommit height) fun signedHeader c ↦ headers c = [signedHeader.header] := by
  intro answers
  induction answers with
  | nil => exact ⟨[], rfl, fun _ h ↦ by cases h⟩
  | cons answer answers ih =>
    cases answer with
    | timeout => exact ⟨[.timeout], rfl, fun _ h ↦ by cases h⟩
    | commit result =>
      cases result with
      | ok signedHeader =>
        exact ⟨[.commit (.ok signedHeader)], rfl, fun _ h ↦ by rw [← Except.ok.inj h]; rfl⟩
      | error e =>
        obtain ⟨consumed, hconsumed, hheaders⟩ := ih
        exact ⟨.commit (.error e) :: consumed, congrArg (_ :: ·) hconsumed, hheaders⟩
    | status | validators => exact ⟨[], rfl, fun _ h ↦ by cases h⟩

/-! ## What the client compares and verifies -/

section Fetched

variable [Tendermint]

/-- The validator set of a light block is made of the validators that were answered. -/
def Fetched (lightBlock : LightBlock) (c : List Answer) : Prop :=
  ∃ vs proposer, Answer.validators (.ok vs) ∈ c ∧
    Tendermint.newSet vs proposer = some lightBlock.validatorSet

/-- One header is fetched, the one of the light block. -/
theorem reads_fetchLightBlockAtHeight (height : ℕ) :
    Reads (fetchLightBlockAtHeight height) fun r c ↦
      headers c = [r.1.signedHeader.header] ∧ Fetched r.1 c := by
  refine ((reads_read _).bind fun h ↦ reads_askStatus.bind fun status ↦
    (reads_awaitCommit h).bind fun signedHeader ↦ reads_askValidators.bind fun vs ↦
    (reads_read _).bind fun set ↦ reads_pure _).mono ?_
  rintro r _ ⟨h, _, _, rfl, ⟨rfl, -⟩, status, c₁, _, rfl, hc₁, signedHeader, c₂, _, rfl, hc₂,
    vs, c₃, _, rfl, ⟨hc₃, hvs⟩, set, _, _, rfl, ⟨rfl, hset⟩, rfl, rfl⟩
  exact ⟨by simp [hc₁, hc₂, hc₃], vs, _, by simp [hvs], okOr_eq_ok.mp hset⟩

/-- The header whose app hash is compared is the last one fetched. -/
theorem reads_pollNext (blockHeight : ℕ) (proofAppHash : Str) (attempts : ℕ) :
    Reads (pollNext blockHeight proofAppHash attempts) fun next c ↦
      (∃ hs, headers c = hs ++ [next.signedHeader.header]) ∧
        compareAppHash blockHeight proofAppHash next = .ok () := by
  induction attempts with
  | zero => exact fun _ ↦ ⟨[], rfl, fun _ h ↦ by cases h⟩
  | succ attempts ih =>
    intro answers
    obtain ⟨c, hc, hfetched⟩ := reads_fetchLightBlockAtHeight (blockHeight + 1) answers
    rcases hx : fetchLightBlockAtHeight (blockHeight + 1) answers
      with ⟨e | ⟨next, status⟩, rest⟩ <;>
      rw [hx] at hc hfetched <;> simp only [pollNext, hx]
    · cases e with
      | panic message => exact ⟨c, hc, fun _ h ↦ by cases h⟩
      | reject message | corrupt message =>
        obtain ⟨c', hc', hnext⟩ := ih rest
        refine ⟨c ++ c', ?_, fun next h ↦ ?_⟩
        · rw [List.append_assoc, ← hc']
          exact hc
        · obtain ⟨⟨hs, hhs⟩, hcompare⟩ := hnext next h
          exact ⟨⟨headers c ++ hs, by rw [headers_append, hhs, List.append_assoc]⟩, hcompare⟩
    · refine ⟨c, hc, fun next' h ↦ ?_⟩
      obtain ⟨⟨⟩, hcompare, rfl⟩ := except_map_eq_ok.mp h
      exact ⟨⟨[], (hfetched _ rfl).1⟩, hcompare⟩

theorem reads_fetchNext (latestHeight blockHeight : ℕ) (proofAppHash : Str) :
    Reads (fetchNext latestHeight blockHeight proofAppHash) fun next c ↦
      (∃ hs, headers c = hs ++ [next.signedHeader.header]) ∧
        compareAppHash blockHeight proofAppHash next = .ok () := by
  rw [fetchNext]
  split
  · exact reads_pollNext _ _ _
  · refine ((reads_fetchLightBlockAtHeight (blockHeight + 1)).bind fun fetched ↦
      reads_read _).mono ?_
    rintro next _ ⟨fetched, c, _, rfl, ⟨hc, -⟩, rfl, hmap⟩
    obtain ⟨⟨⟩, hcompare, rfl⟩ := except_map_eq_ok.mp hmap
    exact ⟨⟨[], by simpa using hc⟩, hcompare⟩

/-- The first header fetched is the one that is verified, and the last one the one whose app hash is
compared. -/
theorem reads_checkAppHash (blockHeight : ℕ) (proofAppHash : Str) :
    Reads (checkAppHash blockHeight proofAppHash) fun comparison c ↦
      ∃ lightBlock chainId hs, comparison.verified = [(blockHeight, lightBlock, chainId)] ∧
        headers c = lightBlock.signedHeader.header ::
          (hs ++ [comparison.compared.signedHeader.header]) ∧
        Fetched lightBlock c ∧
        verifyLightBlock lightBlock.signedHeader lightBlock.validatorSet chainId = .ok () ∧
        compareAppHash blockHeight proofAppHash comparison.compared = .ok () := by
  refine ((reads_fetchLightBlockAtHeight blockHeight).bind fun fetched ↦
    (reads_read _).bind fun _ ↦ (reads_fetchNext fetched.2.latestBlockHeight.value _ _).bind
      fun next ↦ reads_pure _).mono ?_
  rintro comparison _ ⟨⟨lightBlock, status⟩, c₁, _, rfl, ⟨hc₁, vs, proposer, hvs, hset⟩,
    ⟨⟩, _, _, rfl, ⟨rfl, hverify⟩, next, c₂, _, rfl, ⟨⟨hs, hc₂⟩, hcompare⟩, rfl, rfl⟩
  refine ⟨lightBlock, _, hs, rfl, by simp [hc₁, hc₂], ⟨vs, proposer, ?_, hset⟩, hverify, hcompare⟩
  exact List.mem_append_left _ hvs

/-- A header is trusted: it was verified, for its own height, with signatures of more than two
thirds of the voting power of the validators that were fetched. -/
def Trusted (comparison : Comparison) (c : List Answer) (header : Header) : Prop :=
  ∃ lightBlock chainId, (header.height.value, lightBlock, chainId) ∈ comparison.verified ∧
    lightBlock.signedHeader.header = header ∧
    verifyLightBlock lightBlock.signedHeader lightBlock.validatorSet chainId = .ok () ∧
    ∃ vs, Answer.validators (.ok vs) ∈ c ∧ lightBlock.validatorSet.validators.Perm vs ∧
      2 * (vs.map fun v ↦ v.power.value).sum
        < 3 * signedPower lightBlock.validatorSet.validators lightBlock.signedHeader.commit

/-- When the app hash has been compared, its header is trusted only if the node gave the same header
for both heights. -/
theorem checkAppHash_trusted_iff [LawfulTendermint] {blockHeight : ℕ} {proofAppHash : Str}
    {answers rest : List Answer} {comparison : Comparison}
    (h : checkAppHash blockHeight proofAppHash answers = (.ok comparison, rest)) :
    ∃ consumed first hs last, answers = consumed ++ rest ∧
      headers consumed = first :: (hs ++ [last]) ∧
      comparison.compared.signedHeader.header = last ∧
      hexDecode proofAppHash = some last.appHash ∧
      (Trusted comparison consumed last ↔ last = first ∧ first.height.value = blockHeight) := by
  obtain ⟨consumed, hconsumed, hreads⟩ := reads_checkAppHash blockHeight proofAppHash answers
  rw [h] at hconsumed hreads
  obtain ⟨lightBlock, chainId, hs, hverified, hheaders, ⟨vs, proposer, hvs, hset⟩, hverify,
    hcompare⟩ := hreads comparison rfl
  obtain ⟨bytes, hbytes, hcompare⟩ := except_bind_eq_ok.mp hcompare
  have happHash := not_not.mp ((decides_bailIf _ _).iff.mp hcompare)
  refine ⟨consumed, _, hs, _, hconsumed, hheaders, rfl, ?_, ?_⟩
  · rw [okOr_eq_ok.mp hbytes, happHash]
  · constructor
    · rintro ⟨lightBlock', chainId', hmem, hheader, -⟩
      rw [hverified, List.mem_singleton, Prod.mk.injEq, Prod.mk.injEq] at hmem
      obtain ⟨hheight, rfl, -⟩ := hmem
      exact ⟨hheader.symm, hheader ▸ hheight⟩
    · rintro ⟨hsame, hheight⟩
      have hperm := LawfulTendermint.perm_of_newSet hset
      have hpower := ((verifyLightBlock_eq_ok (total_of_newSet hset)
        (LawfulTendermint.total_le_of_newSet hset)).mp hverify).power
      rw [LawfulTendermint.total_of_newSet hset] at hpower
      refine ⟨lightBlock, chainId, ?_, hsame.symm, hverify, vs, hvs, hperm, hpower⟩
      rw [hverified, hsame, hheight]
      exact List.mem_singleton_self _

end Fetched

end Felidae.Publish

namespace Felidae.Reference

open Publish

/-- A header nobody has signed: the one slot of its commit is absent. -/
def otherSigned : SignedHeader :=
  ⟨⟨⟨2, by decide⟩, bytesOf 32 1, signerAddress, []⟩,
    ⟨⟨2, by decide⟩, 0, ⟨[], []⟩, [.absent]⟩⟩

/-- A node answers the requests for the light blocks of heights 1 and 2. -/
def answersWith (next : SignedHeader) : List Answer :=
  [.status (.ok ⟨⟨"felidae".toList⟩, ⟨2, by decide⟩⟩), .commit (.ok firstSigned),
    .validators (.ok [signer]), .status (.ok ⟨⟨"felidae".toList⟩, ⟨2, by decide⟩⟩),
    .commit (.ok next), .validators (.ok [signer])]

/-- A comparison whose result passes a test. -/
theorem exists_checkAppHash (proofAppHash : Str) (answers : List Answer)
    (P : Comparison × List Answer → Bool)
    (h : (match checkAppHash 1 proofAppHash answers with
      | (.ok comparison, rest) => P (comparison, rest)
      | (.error _, _) => false) = true) :
    ∃ comparison rest, checkAppHash 1 proofAppHash answers = (.ok comparison, rest) ∧
      P (comparison, rest) = true := by
  rcases hx : checkAppHash 1 proofAppHash answers with ⟨e | comparison, rest⟩ <;> rw [hx] at h
  · cases h
  · exact ⟨comparison, rest, rfl, h⟩

/-- A node that gives the header of height 1 twice. -/
theorem checkAppHash_trusted_iff_first : ∃ comparison rest,
    checkAppHash 1 (hexEncode firstAppHash) (answersWith firstSigned) = (.ok comparison, rest) ∧
    ∃ consumed first hs last, answersWith firstSigned = consumed ++ rest ∧
      headers consumed = first :: (hs ++ [last]) ∧
      comparison.compared.signedHeader.header = last ∧
      hexDecode (hexEncode firstAppHash) = some last.appHash ∧
      (Trusted comparison consumed last ↔ last = first ∧ first.height.value = 1) := by
  obtain ⟨comparison, rest, h, -⟩ := exists_checkAppHash (hexEncode firstAppHash)
    (answersWith firstSigned) (fun _ ↦ true) (by decide +kernel)
  exact ⟨comparison, rest, h, checkAppHash_trusted_iff h⟩

/-- A header nobody has signed passes the comparison. -/
theorem not_trusted_other : ∃ comparison,
    checkAppHash 1 (hexEncode otherSigned.header.appHash) (answersWith otherSigned)
      = (.ok comparison, []) ∧
    comparison.compared.signedHeader.header = otherSigned.header ∧
    ¬Trusted comparison (answersWith otherSigned) otherSigned.header := by
  obtain ⟨comparison, rest, h, hP⟩ := exists_checkAppHash (hexEncode otherSigned.header.appHash)
    (answersWith otherSigned) (fun r ↦ r.2.isEmpty &&
      decide (r.1.compared.signedHeader.header = otherSigned.header) &&
      r.1.verified.all fun e ↦ decide (e.1 = 1)) (by decide +kernel)
  simp only [Bool.and_eq_true, List.isEmpty_iff, decide_eq_true_eq, List.all_eq_true] at hP
  obtain ⟨⟨rfl, hcompared⟩, hverified⟩ := hP
  refine ⟨comparison, h, hcompared, ?_⟩
  rintro ⟨lightBlock, chainId, hmem, -⟩
  have hheight : otherSigned.header.height.value = 1 := hverified _ hmem
  exact absurd hheight (by decide)

end Felidae.Reference
