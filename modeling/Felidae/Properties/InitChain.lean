import Felidae.Reference
import Felidae.State.Abci

/-!
# Failures of `init_chain`

`init_chain` writes the chain id, the config and the validators one after another to the working
state, with steps that can fail in between, and nothing is undone. Only a wrong initial height is
found before the first write. After any other failure the chain id is there, and `set_chain_id`
refuses to set it again: the working state never takes another `InitChain`.
-/

namespace Felidae

namespace State

/-- The store with validators added, each under its key. -/
def declared (validators : List Update) (s : Store) : Store :=
  validators.foldl (fun s v ↦ s.put .internal (validatorKey v.pubKey.toBytes) v.power) s

/-- The keys of validators differ from those of the parameters. -/
theorem validatorKey_ne (pubKey : Bytes) {key : Str} (h : key.head? = some 'p') :
    validatorKey pubKey ≠ key := by
  rintro rfl
  cases h

theorem validatorKey_injective : Function.Injective validatorKey := fun _ _ h ↦
  hexEncode_injective (List.append_cancel_left h)

/-- Reads at other keys do not see the validators added. -/
theorem get_declared_of_ne (V : Type) [DomainType V] {key : Str} : ∀ {vs : List Update} {s : Store},
    (∀ v ∈ vs, validatorKey v.pubKey.toBytes ≠ key) →
      Store.get V .internal key (declared vs s) = Store.get V .internal key s
  | [], _, _ => rfl
  | v :: vs, s, h => by
    rw [declared, List.foldl_cons, ← declared,
      get_declared_of_ne V fun w hw ↦ h w (List.mem_cons_of_mem v hw),
      Store.get_put_of_ne (h v List.mem_cons_self)]

/-- A validator that is not there yet is declared. -/
theorem declareValidator_of_none {v : Update} {s : Store}
    (h : Store.get Power .internal (validatorKey v.pubKey.toBytes) s = .ok none) :
    declareValidator v s = (.ok (), declared [v] s) := by
  rw [declareValidator, Exec.read_bind_of_ok h]
  rfl

/-- A validator that cannot be declared leaves the store as it is. -/
theorem declareValidator_eq_error {v : Update} {e : Fault} {s t : Store}
    (h : declareValidator v s = (.error e, t)) :
    t = s ∧ Store.get Power .internal (validatorKey v.pubKey.toBytes) s ≠ .ok none := by
  rcases hget : Store.get Power .internal (validatorKey v.pubKey.toBytes) s with e' | _ | p
  · rw [declareValidator, Exec.read_bind_of_error hget] at h
    exact ⟨(Prod.mk.inj h).2.symm, nofun⟩
  · rw [declareValidator_of_none hget] at h
    cases (Prod.mk.inj h).1
  · rw [declareValidator, Exec.read_bind_of_ok hget] at h
    exact ⟨(Prod.mk.inj h).2.symm, nofun⟩

/-- Validators that are all declared were not there before, nor twice in the list. -/
theorem forEach_declareValidator : ∀ {vs : List Update} {s t : Store},
    Exec.forEach declareValidator vs s = (.ok (), t) → t = declared vs s ∧
      (∀ v ∈ vs, Store.get Power .internal (validatorKey v.pubKey.toBytes) s = .ok none) ∧
      (vs.map fun v ↦ v.pubKey.toBytes).Nodup
  | [], _, _, h => ⟨(Prod.mk.inj h).2.symm, nofun, List.nodup_nil⟩
  | v :: vs, s, t, h => by
    obtain ⟨_, r, hv, hvs⟩ := Exec.bind_eq_ok.mp h
    have hnone : Store.get Power .internal (validatorKey v.pubKey.toBytes) s = .ok none := by
      rcases hget : Store.get Power .internal (validatorKey v.pubKey.toBytes) s with e | _ | p
      · rw [declareValidator, Exec.read_bind_of_error hget] at hv
        cases (Prod.mk.inj hv).1
      · rfl
      · rw [declareValidator, Exec.read_bind_of_ok hget] at hv
        cases (Prod.mk.inj hv).1
    rw [declareValidator_of_none hnone] at hv
    obtain rfl := (Prod.mk.inj hv).2
    obtain ⟨rfl, habsent, hnodup⟩ := forEach_declareValidator hvs
    -- What the first validator wrote would have been found by a second one with its key.
    have hkey : ∀ w ∈ vs, w.pubKey.toBytes ≠ v.pubKey.toBytes := by
      intro w hw heq
      have hfound := habsent w hw
      rw [heq, declared, List.foldl_cons, List.foldl_nil,
        Store.get_put_self (Power.clean v.power)] at hfound
      cases hfound
    refine ⟨rfl, List.forall_mem_cons.mpr ⟨hnone, fun w hw ↦ ?_⟩, List.nodup_cons.mpr ⟨?_, hnodup⟩⟩
    · rw [← habsent w hw]
      exact (get_declared_of_ne Power fun u hu ↦ List.mem_singleton.mp hu ▸
        validatorKey_injective.ne (hkey w hw).symm).symm
    · intro hmem
      obtain ⟨w, hw, heq⟩ := List.mem_map.mp hmem
      exact hkey w hw heq

/-- A list of validators fails at the first that repeats a key, and those before it stay. -/
theorem forEach_declareValidator_eq_error {vs : List Update} {e : Fault} {s t : Store}
    (hs : ∀ pubKey, Store.get Power .internal (validatorKey pubKey) s = .ok none)
    (h : Exec.forEach declareValidator vs s = (.error e, t)) :
    ∃ done v rest, vs = done ++ v :: rest ∧ t = declared done s ∧
      (done.map fun v ↦ v.pubKey.toBytes).Nodup ∧
      v.pubKey.toBytes ∈ done.map fun v ↦ v.pubKey.toBytes := by
  obtain ⟨done, v, rest, r, rfl, hdone, hv⟩ := Exec.forEach_eq_error h
  obtain ⟨rfl, hget⟩ := declareValidator_eq_error hv
  obtain ⟨rfl, -, hnodup⟩ := forEach_declareValidator hdone
  refine ⟨done, v, rest, rfl, rfl, hnodup, by_contra fun hnew ↦ hget ?_⟩
  rw [get_declared_of_ne, hs]
  exact fun w hw ↦ validatorKey_injective.ne fun heq ↦ hnew (List.mem_map.mpr ⟨w, hw, heq⟩)

/-! ## What is left -/

theorem get_empty (V : Type) [DomainType V] (substore : Substore) (key : Str) :
    Store.get V substore key Store.empty = .ok none := by
  rw [Store.get, show Store.empty.verifiable[substore.prefixed key]? = none from
    Std.ExtTreeMap.getElem?_empty]

/-- The store of a chain of which only the id is known. -/
def named (request : InitChain) : Store :=
  Store.empty.put .internal "parameters/chain_id".toList (⟨request.chainId⟩ : ChainId)

variable [Host]

/-- The working states that a failed request can leave of a fresh one. -/
inductive LeftBehind (request : InitChain) : Store → Prop
  | nothing (hheight : request.initialHeight.value ≠ 1) : LeftBehind request Store.empty
  | chainId {e : Fault} (hheight : request.initialHeight.value = 1)
      (hconfig : initialConfig request.appStateBytes = .error e) :
      LeftBehind request (named request)
  | validators {config : Config} {done rest : List Update} {v : Update}
      (hheight : request.initialHeight.value = 1)
      (hconfig : initialConfig request.appStateBytes = .ok config)
      (hvalidators : request.validators = done ++ v :: rest)
      (hdone : (done.map fun v ↦ v.pubKey.toBytes).Nodup)
      (hrepeated : v.pubKey.toBytes ∈ done.map fun v ↦ v.pubKey.toBytes) :
      LeftBehind request
        (declared done ((named request).put .internal "parameters/config".toList config))

/-- `init_chain` on a fresh store, past the check of the height. -/
theorem initChain_empty {request : InitChain} (hheight : request.initialHeight.value = 1) :
    initChain request Store.empty
      = (do
          let config ← Exec.read fun _ ↦ initialConfig request.appStateBytes
          setConfig config
          Exec.forEach declareValidator request.validators
          return ⟨request.consensusParams, request.validators,
            Host.sha256 (Host.encodeInitChain request)⟩ : Command InitChainResponse)
          (named request) := by
  have hset : setChainId ⟨request.chainId⟩ Store.empty = (.ok (), named request) := by
    rw [setChainId, chainId, get_empty]
    rfl
  rw [initChain]
  simp only [hheight, ne_eq, not_true_eq_false, if_false]
  exact Exec.bind_of_ok hset

/-- What a failed request leaves of a fresh store. -/
theorem leftBehind_of_initChain {request : InitChain} {e : Fault} {t : Store}
    (hfail : initChain request Store.empty = (.error e, t)) : LeftBehind request t := by
  by_cases hheight : request.initialHeight.value = 1
  · rw [initChain_empty hheight] at hfail
    rcases hconfig : initialConfig request.appStateBytes with e' | config
    · rw [Exec.read_bind_of_error (g := fun _ ↦ initialConfig request.appStateBytes) hconfig]
        at hfail
      obtain rfl := (Prod.mk.inj hfail).2
      exact .chainId hheight hconfig
    · rw [Exec.read_bind_of_ok (g := fun _ ↦ initialConfig request.appStateBytes) hconfig,
        setConfig, Exec.modify_bind] at hfail
      have hnew : ∀ pubKey, Store.get Power .internal (validatorKey pubKey)
          ((named request).put .internal "parameters/config".toList config) = .ok none := by
        intro pubKey
        rw [Store.get_put_of_ne (validatorKey_ne pubKey rfl).symm, named,
          Store.get_put_of_ne (validatorKey_ne pubKey rfl).symm, get_empty]
      rcases hloop : Exec.forEach declareValidator request.validators
        ((named request).put .internal "parameters/config".toList config) with ⟨e' | ⟨⟩, r⟩
      · rw [Exec.bind_of_error hloop] at hfail
        obtain rfl := (Prod.mk.inj hfail).2
        obtain ⟨done, v, rest, hvalidators, rfl, hdone, hrepeated⟩ :=
          forEach_declareValidator_eq_error hnew hloop
        exact .validators hheight hconfig hvalidators hdone hrepeated
      · rw [Exec.bind_of_ok hloop] at hfail
        cases (Prod.mk.inj hfail).1
  · rw [initChain] at hfail
    simp only [ne_eq, hheight, not_false_eq_true, if_true] at hfail
    obtain rfl := (Prod.mk.inj hfail).2
    exact .nothing hheight

/-- A chain id that was left behind is found. -/
theorem LeftBehind.chainId_eq {request : InitChain} {t : Store} (h : LeftBehind request t)
    (hheight : request.initialHeight.value = 1) (hid : request.chainId ≠ []) :
    State.chainId t = .ok ⟨request.chainId⟩ := by
  have hnamed : Store.get ChainId .internal "parameters/chain_id".toList (named request)
      = .ok (some ⟨request.chainId⟩) := Store.get_put_self (ChainId.clean hid) _ _ _
  have hget : Store.get ChainId .internal "parameters/chain_id".toList t
      = .ok (some ⟨request.chainId⟩) := by
    cases h with
    | nothing hother => exact absurd hheight hother
    | chainId => exact hnamed
    | validators =>
      rw [get_declared_of_ne ChainId fun v _ ↦ validatorKey_ne v.pubKey.toBytes rfl,
        Store.get_put_of_ne (by decide), hnamed]
  rw [State.chainId, hget]
  rfl

/-- No request is taken where there is a chain id. -/
theorem initChain_of_chainId {s : Store} {id : ChainId} (h : chainId s = .ok id)
    (request : InitChain) : ∃ e, initChain request s = (.error e, s) := by
  rw [initChain]
  by_cases hheight : request.initialHeight.value = 1
  · simp only [hheight, ne_eq, not_true_eq_false, if_false]
    have hset : setChainId ⟨request.chainId⟩ s
        = (.error (.reject "chain ID is already set; cannot set it again"), s) := by
      rw [setChainId, h]
    exact ⟨_, Exec.bind_of_error hset⟩
  · simp only [ne_eq, hheight, not_false_eq_true, if_true]
    exact ⟨_, rfl⟩

/-- A chain id that does not decode is overwritten. -/
theorem initChain_named {request later : InitChain} (hid : request.chainId = [])
    (hheight : later.initialHeight.value = 1) :
    initChain later (named request) = initChain later Store.empty := by
  have hundecoded : Store.get ChainId .internal "parameters/chain_id".toList (named request)
      = .error (ParseError.corrupt ⟨"felidae_types::transaction::ChainId", String.ofList []⟩) := by
    rw [Store.get, named, Store.put, PrefixMap.getElem?_insert_self]
    change ((ChainId.ofText request.chainId).mapError ParseError.corrupt).map some = _
    rw [hid]
    rfl
  have hset : setChainId ⟨later.chainId⟩ (named request) = (.ok (), named later) := by
    rw [setChainId, State.chainId, hundecoded, except_error_bind, named, Store.put_put, named]
  rw [initChain_empty hheight, initChain]
  simp only [hheight, ne_eq, not_true_eq_false, if_false]
  exact Exec.bind_of_ok hset

/-- A failed `init_chain` leaves a fresh store as it was if the initial height is wrong. Else it
leaves the chain id, and after a repeated validator also the config and the validators before it;
and unless the chain id is empty, no later request is taken by what is left. -/
theorem initChain_failure_stays {request : InitChain} {e : Fault} {t : Store}
    (hfail : initChain request Store.empty = (.error e, t)) :
    LeftBehind request t ∧
    (request.initialHeight.value = 1 → request.chainId ≠ [] →
      ∀ later, ∃ e', initChain later t = (.error e', t)) ∧
    ((request.initialHeight.value ≠ 1 ∨
        request.chainId = [] ∧ ∃ e', initialConfig request.appStateBytes = .error e') →
      ∀ later, later.initialHeight.value = 1 →
        initChain later t = initChain later Store.empty) := by
  have hleft := leftBehind_of_initChain hfail
  refine ⟨hleft, fun hheight hid ↦ initChain_of_chainId (hleft.chainId_eq hheight hid),
    fun hclean later hlater ↦ ?_⟩
  cases hleft with
  | nothing => rfl
  | chainId hheight =>
    rcases hclean with hwrong | ⟨hid, -⟩
    · exact absurd hheight hwrong
    · exact initChain_named hid hlater
  | validators hheight hconfig =>
    rcases hclean with hwrong | ⟨-, e', herror⟩
    · exact absurd hheight hwrong
    · cases hconfig.symm.trans herror

end State

namespace Reference

/-- A genesis that names its validator twice. -/
def repeated : InitChain :=
  { genesis with validators := genesis.validators ++ genesis.validators }

/-- The genesis with two copies of its validator fails, and after it the genesis itself, which a
fresh store takes. -/
theorem not_initChain_clean : ¬∀ (request later : InitChain) (e : Fault)
    (response : InitChainResponse) (s t : Store),
    State.initChain request Store.empty = (.error e, t) →
      State.initChain later Store.empty = (.ok response, s) →
        t = Store.empty ∧ State.initChain later t = (.ok response, s) := by
  intro hall
  have hfails : (State.initChain repeated Store.empty).1.toOption.isSome = false := by
    decide +kernel
  have hworks : (State.initChain genesis Store.empty).1.toOption.isSome := by decide +kernel
  have hrefused : (State.initChain genesis
      (State.initChain repeated Store.empty).2).1.toOption.isSome = false := by decide +kernel
  rcases hrequest : State.initChain repeated Store.empty with ⟨e | response, t⟩
  · rcases hlater : State.initChain genesis Store.empty with ⟨e' | response, s⟩
    · rw [hlater] at hworks
      cases hworks
    · rw [hrequest, (hall _ _ _ _ _ _ hrequest hlater).2] at hrefused
      cases hrefused
  · rw [hrequest] at hfails
    cases hfails

/-- What the repeated validator leaves. -/
theorem initChain_failure_stays_repeated : ∃ e t,
    State.initChain repeated Store.empty = (.error e, t) ∧ State.LeftBehind repeated t ∧
      ∀ later, ∃ e', State.initChain later t = (.error e', t) := by
  have hfails : (State.initChain repeated Store.empty).1.toOption.isSome = false := by
    decide +kernel
  rcases hrequest : State.initChain repeated Store.empty with ⟨e | response, t⟩
  · have hleft := State.initChain_failure_stays hrequest
    exact ⟨e, t, rfl, hleft.1, hleft.2.1 rfl (by decide)⟩
  · rw [hrequest] at hfails
    cases hfails

end Reference

end Felidae
