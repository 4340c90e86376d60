import Felidae.Chain.Refine
import Felidae.Reference

/-!
# Tombstoning

`tombstone_validator` looks for the active validator with the address of the evidence, and logs
what it finds. Nothing writes a validator's power after the genesis, so the validators that are
active once are active in every later state, with the same power, and are reported with it.
-/

namespace Felidae

section Host

variable [Host]

/-- The validator is among the active ones. -/
def State.Active (pubKey : PublicKey) (s : Store) : Prop :=
  ∃ us, activeValidators s = .ok us ∧ ∃ u ∈ us, u.pubKey = pubKey

/-- What the evidence against a validator should come to in its block, with the given response and
the state it leaves. -/
structure State.Tombstoned (pubKey : PublicKey) (response : FinalizeBlockResponse) (t : Store) :
    Prop where
  inactive : ¬Active pubKey t
  reported : ∃ u ∈ response.validatorUpdates, u.pubKey = pubKey ∧ u.power.value = 0

/-- The updates of a block are the active validators of the state it leaves. -/
theorem State.activeValidators_of_response {orders : ℕ → ℕ → IterOrder} {request : FinalizeBlock}
    {response : FinalizeBlockResponse} {s t : Store}
    (h : handleFinalizeBlock orders request s = (.ok response, t)) :
    activeValidators t = .ok response.validatorUpdates := by
  obtain ⟨_, _, -, h⟩ := Exec.bind_eq_ok.mp h
  obtain ⟨response', _, hfinalize, h⟩ := Exec.bind_eq_ok.mp h
  obtain ⟨_, _, hhash, h⟩ := Exec.bind_eq_ok.mp h
  obtain ⟨hresponse, rfl⟩ := Prod.mk.inj h
  obtain ⟨-, rfl⟩ := Prod.mk.inj hhash
  obtain rfl := Except.ok.inj hresponse
  obtain ⟨_, _, -, h⟩ := Exec.bind_eq_ok.mp hfinalize
  obtain ⟨_, _, -, h⟩ := Exec.bind_eq_ok.mp h
  obtain ⟨us, _, hend, h⟩ := Exec.bind_eq_ok.mp h
  obtain ⟨hresponse, rfl⟩ := Prod.mk.inj h
  obtain rfl := Except.ok.inj hresponse
  obtain ⟨_, _, -, h⟩ := Exec.bind_eq_ok.mp hend
  obtain ⟨_, _, -, h⟩ := Exec.bind_eq_ok.mp h
  obtain ⟨_, _, -, h⟩ := Exec.bind_eq_ok.mp h
  obtain ⟨_, _, -, h⟩ := Exec.bind_eq_ok.mp h
  obtain ⟨_, _, -, h⟩ := Exec.bind_eq_ok.mp h
  obtain ⟨_, _, -, h⟩ := Exec.bind_eq_ok.mp h
  obtain ⟨hread, rfl⟩ := Prod.mk.inj h
  exact hread

end Host

section Runs

variable [Host] [LawfulHost] {genesis : InitChain}

/-- The stores of two ledgers with the same validators have the same active validators. -/
theorem Represents.active_congr {s t : Store} {L L' : Ledger} (h : Represents s L)
    (h' : Represents t L') (hvalidators : L'.validators = L.validators) {pubKey : PublicKey}
    (hactive : State.Active pubKey s) : State.Active pubKey t := by
  obtain ⟨us, hus, u, hu, rfl⟩ := hactive
  obtain ⟨us', hus'⟩ := h'.activeValidators.mpr (show L'.Seated by
    rw [Ledger.Seated, hvalidators]
    exact h.activeValidators.mp ⟨us, hus⟩)
  refine ⟨us', hus', u, (h'.mem_activeValidators hus').mpr ?_, rfl⟩
  rw [hvalidators]
  exact (h.mem_activeValidators hus).mp hu

/-- The powers of the genesis are never written again. -/
theorem Run.validatorPower {requests : List FinalizeBlock} {ms : List (Moment Store Event)}
    {s : Store} (hrun : Run genesis requests ms s) {response : InitChainResponse} {s₀ : Store}
    (hinit : State.initChain genesis Store.empty = (.ok response, s₀)) (pubKey : Bytes) :
    Store.get Power .internal (State.validatorKey pubKey) s
      = Store.get Power .internal (State.validatorKey pubKey) s₀ := by
  induction hrun with
  | start hinit' => rw [(Prod.mk.inj (hinit'.symm.trans hinit)).2]
  | block orders hrun htime hfinalize ih =>
    obtain ⟨h, L, hshown⟩ := hrun.exists_shown
    obtain ⟨h', L', hshown', -, hvalidators⟩ := hshown.block htime hfinalize
    rw [hshown'.represents.validatorPower, hvalidators, ← hshown.represents.validatorPower, ih]

/-- All runs from a genesis end with the same active validators. -/
theorem Run.active {requests requests' : List FinalizeBlock} {ms ms' : List (Moment Store Event)}
    {s s' : Store} (hrun : Run genesis requests ms s) (hrun' : Run genesis requests' ms' s')
    {pubKey : PublicKey} (hactive : State.Active pubKey s) : State.Active pubKey s' := by
  obtain ⟨h, L, -, -, hs⟩ := hrun.exists_shown
  obtain ⟨h', L', -, -, hs'⟩ := hrun'.exists_shown
  have hinit : ∃ response s₀, State.initChain genesis Store.empty = (.ok response, s₀) := by
    clear hrun' hs hs' hactive
    induction hrun with
    | start hinit => exact ⟨_, _, hinit⟩
    | block _ _ _ _ ih => exact ih
  obtain ⟨response, s₀, hinit⟩ := hinit
  refine hs.active_congr hs' (funext fun key ↦ ?_) hactive
  have hpower := hs.validatorPower key
  rw [hrun.validatorPower hinit, ← hrun'.validatorPower hinit, hs'.validatorPower] at hpower
  exact Except.ok.inj hpower

/-- No validator is ever tombstoned. Those that are active are reported with their power by every
block, and are active in the state the block leaves and in all later ones; so the evidence of a
block only comes to what it should if it names no active validator. -/
theorem Run.tombstones_iff_none_named {requests : List FinalizeBlock}
    {ms : List (Moment Store Event)} {s t : Store} (hrun : Run genesis requests ms s)
    {orders : ℕ → ℕ → IterOrder} {request : FinalizeBlock} {response : FinalizeBlockResponse}
    (htime : State.InTime request s)
    (hfinalize : State.handleFinalizeBlock orders request s = (.ok response, t)) :
    ((∀ pubKey, State.Active pubKey s → State.validatorAddress pubKey ∈ request.misbehavior →
        State.Tombstoned pubKey response t ∧ ∀ newer ms' s',
          Run genesis (newer ++ request :: requests) ms' s' → ¬State.Active pubKey s') ↔
      ∀ pubKey, State.Active pubKey s → State.validatorAddress pubKey ∉ request.misbehavior) ∧
    (∀ u ∈ response.validatorUpdates, 0 < u.power.value) ∧
    ∀ pubKey, State.Active pubKey s → (∃ u ∈ response.validatorUpdates, u.pubKey = pubKey) ∧
      State.Active pubKey t ∧ ∀ newer ms' s',
        Run genesis (newer ++ request :: requests) ms' s' → State.Active pubKey s' := by
  have hrun' := hrun.block orders htime hfinalize
  obtain ⟨h, L, -, -, ht⟩ := hrun'.exists_shown
  have hupdates := State.activeValidators_of_response hfinalize
  have hstays : ∀ pubKey, State.Active pubKey s → State.Active pubKey t :=
    fun _ hactive ↦ hrun.active hrun' hactive
  refine ⟨⟨fun hall pubKey hactive hnamed ↦ ?_, fun hnone pubKey hactive hnamed ↦ ?_⟩,
    fun u hu ↦ ?_, fun pubKey hactive ↦ ⟨?_, hstays pubKey hactive, fun _ _ _ hlater ↦
      hrun.active hlater hactive⟩⟩
  · exact (hall pubKey hactive hnamed).1.inactive (hstays pubKey hactive)
  · exact absurd hnamed (hnone pubKey hactive)
  · obtain ⟨_, -, hpos, -⟩ := (ht.mem_activeValidators hupdates).mp hu
    exact hpos
  · obtain ⟨us, hus, hu⟩ := hstays pubKey hactive
    rwa [Except.ok.inj (hupdates.symm.trans hus)]

end Runs

namespace Reference

/-- A block with evidence against the only validator, by its address. -/
def evidence : FinalizeBlock :=
  { blockAt 1 10 [] with
    misbehavior := [bytesOf 20 0x86a18e5c26fd0a8e29427dbd6e935afcfd5142fd] }

/-- The validator of the genesis, as its update names it. -/
def validator : PublicKey := .ed25519 validatorKey

/-- The state after the genesis. -/
def afterGenesis : Store := (State.initChain genesis Store.empty).2

theorem run_afterGenesis : Run genesis [] [] afterGenesis := by
  have hok : (State.initChain genesis Store.empty).1.toOption.isSome := by decide +kernel
  rcases hinit : State.initChain genesis Store.empty with ⟨e | response, s⟩
  · rw [hinit] at hok
    cases hok
  · have hs : afterGenesis = s := congrArg Prod.snd hinit
    exact hs ▸ .start hinit

theorem active_of_toOption {s : Store} {u : Update}
    (h : (State.activeValidators s).toOption = some [u]) : State.Active u.pubKey s :=
  ⟨[u], except_toOption_eq_some.mp h, u, List.mem_singleton_self u, rfl⟩

/-- The block with the evidence can be finalized. -/
theorem exists_evidence_response : ∃ response t,
    State.handleFinalizeBlock (fun _ _ ↦ listed) evidence afterGenesis = (.ok response, t) := by
  have hok : (State.handleFinalizeBlock (fun _ _ ↦ listed) evidence
      afterGenesis).1.toOption.isSome := by decide +kernel
  rcases h : State.handleFinalizeBlock (fun _ _ ↦ listed) evidence afterGenesis with
    ⟨e | response, t⟩
  · rw [h] at hok
    cases hok
  · exact ⟨response, t, rfl⟩

theorem active_validator : State.Active validator afterGenesis :=
  active_of_toOption (u := ⟨validator, ⟨10, by decide⟩⟩) (by decide +kernel)

/-- Evidence names the address of the only validator, which stays active. -/
theorem not_tombstoned_validator : ∃ response t,
    State.handleFinalizeBlock (fun _ _ ↦ listed) evidence afterGenesis = (.ok response, t) ∧
      Run genesis [] [] afterGenesis ∧ State.Active validator afterGenesis ∧
      State.validatorAddress validator ∈ evidence.misbehavior ∧
      ¬State.Tombstoned validator response t := by
  obtain ⟨response, t, h⟩ := exists_evidence_response
  refine ⟨response, t, h, run_afterGenesis, active_validator, by decide +kernel,
    fun htombstoned ↦ htombstoned.inactive ?_⟩
  have ht : (State.handleFinalizeBlock (fun _ _ ↦ listed) evidence afterGenesis).2 = t :=
    congrArg Prod.snd h
  rw [← ht]
  exact active_of_toOption (u := ⟨validator, ⟨10, by decide⟩⟩) (by decide +kernel)

theorem tombstones_iff_evidence : ∃ response t,
    State.handleFinalizeBlock (fun _ _ ↦ listed) evidence afterGenesis = (.ok response, t) ∧
    ((∀ pubKey, State.Active pubKey afterGenesis →
        State.validatorAddress pubKey ∈ evidence.misbehavior →
        State.Tombstoned pubKey response t ∧ ∀ newer ms' s',
          Run genesis (newer ++ [evidence]) ms' s' → ¬State.Active pubKey s') ↔
      ∀ pubKey, State.Active pubKey afterGenesis →
        State.validatorAddress pubKey ∉ evidence.misbehavior) := by
  obtain ⟨response, t, h⟩ := exists_evidence_response
  exact ⟨response, t, h, (Run.tombstones_iff_none_named run_afterGenesis (by decide +kernel) h).1⟩

end Reference

end Felidae
