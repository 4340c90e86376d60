import Felidae.Ledger.Blocks

/-!
# The genesis ledger

A successful `init_chain` leaves the ledger of the genesis config and validators, with nothing
queued and nothing canonical.
-/

open Classical

namespace Felidae

/-- The ledger before the first block. -/
def Ledger.genesis (chainId : ChainId) (config : Config) (validators : Bytes → Option Power) :
    Ledger where
  chainId := chainId
  written := config
  height := none
  time := none
  blockTimes := fun _ ↦ none
  appHashes := fun _ ↦ none
  validators := validators
  queue := fun _ ↦ ⟨fun _ _ ↦ none, fun _ _ _ ↦ none, fun _ ↦ none⟩
  canonical := fun _ ↦ none

theorem Ledger.Sound.genesis [Host] (chainId : ChainId) (config : Config)
    (validators : Bytes → Option Power) : (Ledger.genesis chainId config validators).Sound where
  vote_clean := fun _ _ _ _ h ↦ by cases h
  pending_clean := fun _ _ _ h ↦ by cases h
  vote_fits := fun _ _ _ _ h ↦ by cases h
  indexed := fun _ _ _ _ _ h ↦ by cases h

/-- The empty store holds nothing. -/
theorem Laid.empty [Host] : Laid Store.empty (fun _ ↦ none) fun _ ↦ none where
  verifiable := Region.empty fun _ _ h ↦ by cases Std.ExtTreeMap.getElem?_empty.symm.trans h
  nonverifiable := Region.empty fun _ _ h ↦ by cases Std.ExtTreeMap.getElem?_empty.symm.trans h

variable [Host] [LawfulHost] {s t : Store} {L : Ledger}

/-- A validator is declared unless it has been. -/
theorem Represents.declareValidator (h : Represents s L) {v : Update}
    (hok : State.declareValidator v s = (.ok (), t)) :
    Represents t { L with
      validators := Function.update L.validators v.pubKey.toBytes (some v.power) } := by
  have hget := Laid.get_clean (V := Power) (k := .validator v.pubKey.toBytes) h (rfl :
    Substore.internal.prefixed
    (State.validatorKey v.pubKey.toBytes) = Key.text (.validator v.pubKey.toBytes)) rfl
    fun p _ ↦ p.clean
  rw [State.declareValidator, Exec.read_bind_of_ok hget] at hok
  rcases hdeclared : L.validators v.pubKey.toBytes with _ | p
  · rw [hdeclared] at hok
    obtain rfl := (Prod.mk.inj hok).2
    refine (Laid.put (V := Power) (k := .validator v.pubKey.toBytes) h rfl v.power).congr ?_ rfl
    funext k
    cases k with
    | validator pubKey =>
      by_cases hk : pubKey = v.pubKey.toBytes
      · subst hk
        simp [Ledger.view]
      · simp [Ledger.view, hk]
    | _ => simp [Ledger.view]
  · rw [hdeclared] at hok
    cases (Prod.mk.inj hok).1

/-- The validators of the ledger are those that were declared. -/
theorem Represents.declareValidators : ∀ {vs : List Update} {s : Store} {L : Ledger},
    Represents s L → Exec.forEach State.declareValidator vs s = (.ok (), t) →
      ∃ validators, Represents t { L with validators := validators } ∧
        ∀ pubKey p, validators pubKey = some p →
          L.validators pubKey = some p ∨ ∃ v ∈ vs, v.pubKey.toBytes = pubKey ∧ v.power = p
  | [], s, L, h, hok => by
    obtain rfl := (Prod.mk.inj hok).2
    exact ⟨L.validators, h, fun _ _ hp ↦ .inl hp⟩
  | v :: vs, s, L, h, hok => by
    obtain ⟨_, r, hone, hrest⟩ := Exec.bind_eq_ok.mp hok
    obtain ⟨validators, ht, hvalidators⟩ := (h.declareValidator hone).declareValidators hrest
    refine ⟨validators, ht, fun pubKey p hp ↦ ?_⟩
    rcases hvalidators pubKey p hp with hp | ⟨w, hw, hpub, hpow⟩
    · by_cases hk : pubKey = v.pubKey.toBytes
      · subst hk
        have hpow := (Function.update_self ..).symm.trans hp
        exact .inr ⟨v, List.mem_cons_self, rfl, Option.some.inj hpow⟩
      · exact .inl ((Function.update_of_ne hk _ _).symm.trans hp)
    · exact .inr ⟨w, List.mem_cons_of_mem _ hw, hpub, hpow⟩

/-- `init_chain` leaves a genesis ledger. -/
theorem Represents.initChain {request : InitChain} {response : InitChainResponse}
    (hok : State.initChain request Store.empty = (.ok response, t)) :
    ∃ config validators, Represents t (Ledger.genesis ⟨request.chainId⟩ config validators) ∧
      State.initialConfig request.appStateBytes = .ok config ∧
      ∀ pubKey p, validators pubKey = some p →
        ∃ v ∈ request.validators, v.pubKey.toBytes = pubKey ∧ v.power = p := by
  have hnone : ∀ s : Store, Laid s (fun _ ↦ none) (fun _ ↦ none) →
      ∃ e, State.chainId s = .error e := by
    intro s hs
    rw [State.chainId, Laid.get (k := .chainId) hs rfl]
    exact ⟨_, rfl⟩
  obtain ⟨e, he⟩ := hnone _ Laid.empty
  by_cases hheight : request.initialHeight.value ≠ 1
  · rw [State.initChain] at hok
    simp only [if_pos hheight] at hok
    cases (Prod.mk.inj hok).1
  · rw [State.initChain] at hok
    simp only [if_neg hheight] at hok
    obtain ⟨_, s₁, hchain, hok⟩ := Exec.bind_eq_ok.mp hok
    obtain ⟨config, s₂, hread, hok⟩ := Exec.bind_eq_ok.mp hok
    obtain ⟨_, s₃, hset, hok⟩ := Exec.bind_eq_ok.mp hok
    obtain ⟨_, s₄, hdeclare, hok⟩ := Exec.bind_eq_ok.mp hok
    obtain rfl := (Prod.mk.inj hok).2
    obtain ⟨hconfig, rfl⟩ := Prod.mk.inj hread
    obtain rfl := (Prod.mk.inj hset).2
    rw [State.setChainId, he] at hchain
    obtain rfl := (Prod.mk.inj hchain).2
    have hchainId := Laid.empty.put (k := .chainId) (rfl : Substore.internal.prefixed
      "parameters/chain_id".toList
      = Key.text .chainId) (⟨request.chainId⟩ : ChainId)
    have hlaid := hchainId.put (k := .config) (rfl : Substore.internal.prefixed
      "parameters/config".toList
      = Key.text .config) config
    have hgenesis : Represents _ (Ledger.genesis ⟨request.chainId⟩ config fun _ ↦ none) :=
      hlaid.congr (by funext k; cases k <;> simp [Ledger.view, Ledger.genesis, heldAt])
        (by funext k; cases k <;> simp [Ledger.indexView, Ledger.genesis, heldAt])
    obtain ⟨validators, ht, hvalidators⟩ := Represents.declareValidators hgenesis hdeclare
    refine ⟨config, validators, ht, hconfig, fun pubKey p hp ↦ ?_⟩
    rcases hvalidators pubKey p hp with hp | hv
    · cases hp
    · exact hv

end Felidae
