import Felidae.Foundation.History
import Felidae.Ledger.Frame
import Felidae.Service.Abci

/-!
# Sessions

What the consensus engine may send: `InitChain` once, then `FinalizeBlock` and `Commit` for each
height, and any number of the other requests between any two of them. A session is a history of
these exchanges. The abstract side is `Applied`: the genesis and then the blocks, one after the
other, on a single store that is never forked or staged. A session keeps to it in every phase.
-/

namespace Felidae

/-! ## Exchanges -/

/-- How far the engine has come. Height 0 is committed when the chain has been initialized. -/
inductive Phase where
  | fresh
  | committed (height : ℕ)
  | finalized (height : ℕ)
  deriving DecidableEq

/-- A request and what came of it, with the orders in which the tallies were iterated. -/
structure Exchange where
  orders : ℕ → ℕ → IterOrder
  request : Request
  result : Except Fault Response

/-- The requests that come at any time. -/
def Request.Aside : Request → Prop
  | .initChain _ | .finalizeBlock _ | .commit => False
  | _ => True

instance : DecidablePred Request.Aside
  | .initChain _ | .finalizeBlock _ | .commit => isFalse id
  | .echo _ | .flush | .info | .checkTx _ | .query | .listSnapshots | .offerSnapshot
  | .loadSnapshotChunk | .applySnapshotChunk | .prepareProposal _ _ | .processProposal
  | .extendVote | .verifyVoteExtension _ => isTrue trivial

/-- The exchanges that are possible, and the backend they leave. The session does not go on after
a genesis or a block that fails. -/
inductive Serves [Host] : Phase × NodeStore → Exchange → Phase × NodeStore → Prop where
  | initChain {b b' : NodeStore} {orders : ℕ → ℕ → IterOrder} {genesis : InitChain}
      {response : Response}
      (hcall : Service.call orders (.initChain genesis) b = (.ok response, b')) :
      Serves (.fresh, b) ⟨orders, .initChain genesis, .ok response⟩ (.committed 0, b')
  | finalizeBlock {b b' : NodeStore} {orders : ℕ → ℕ → IterOrder} {request : FinalizeBlock}
      {response : Response} {height : ℕ} (hheight : request.height.value = height + 1)
      (hcall : Service.call orders (.finalizeBlock request) b = (.ok response, b')) :
      Serves (.committed height, b) ⟨orders, .finalizeBlock request, .ok response⟩
        (.finalized (height + 1), b')
  | commit {b b' : NodeStore} {orders : ℕ → ℕ → IterOrder} {result : Except Fault Response}
      {height : ℕ} (hcall : Service.call orders .commit b = (result, b')) :
      Serves (.finalized height, b) ⟨orders, .commit, result⟩ (.committed height, b')
  | aside {b b' : NodeStore} {orders : ℕ → ℕ → IterOrder} {request : Request}
      {result : Except Fault Response} {phase : Phase} (haside : request.Aside)
      (hcall : Service.call orders request b = (result, b')) :
      Serves (phase, b) ⟨orders, request, result⟩ (phase, b')

/-- A session with a node whose storage is empty at first. -/
abbrev Session [Host] : List (Moment (Phase × NodeStore) Exchange) → Phase × NodeStore → Prop :=
  History (fun s ↦ s = (.fresh, .new Store.empty)) Serves

/-- A block that was finalized, and the response. -/
structure Block where
  orders : ℕ → ℕ → IterOrder
  request : FinalizeBlock
  response : FinalizeBlockResponse

/-- The genesis of an exchange that initializes the chain. -/
def Exchange.genesis? : Exchange → Option InitChain
  | ⟨_, .initChain genesis, .ok _⟩ => some genesis
  | _ => none

/-- The block of an exchange that finalizes one. -/
def Exchange.block? : Exchange → Option Block
  | ⟨orders, .finalizeBlock request, .ok (.finalizeBlock response)⟩ =>
    some ⟨orders, request, response⟩
  | _ => none

/-- The app hash that an exchange commits. -/
def Exchange.committed? : Exchange → Option AppHash
  | ⟨_, .commit, .ok (.commit data)⟩ => some data
  | _ => none

section Exchanges

variable {σ : Type} (h : List (Moment σ Exchange))

/-- The geneses from which the chain was initialized in a session. -/
def geneses : List InitChain := h.filterMap fun m ↦ m.event.genesis?

/-- The blocks finalized in a session, the last one first. -/
def blocks : List Block := h.filterMap fun m ↦ m.event.block?

/-- The app hashes committed in a session, the last one first. -/
def commits : List AppHash := h.filterMap fun m ↦ m.event.committed?

theorem filterMap_cons_eq {α β : Type*} (f : α → Option β) (a : α) (l : List α) :
    (a :: l).filterMap f = (f a).toList ++ l.filterMap f := by
  rcases ha : f a with _ | b
  · exact List.filterMap_cons_none ha
  · exact List.filterMap_cons_some ha

end Exchanges

/-! ## The abstract chain -/

/-- The genesis and then the blocks, the last one first and numbered from 1, are applied to the
empty store. -/
inductive Applied [Host] (genesis : InitChain) : List Block → Store → Prop where
  | start {response : InitChainResponse} {s : Store}
      (hinit : State.initChain genesis Store.empty = (.ok response, s)) : Applied genesis [] s
  | block {older : List Block} {s t : Store} {block : Block} (happlied : Applied genesis older s)
      (hheight : block.request.height.value = older.length + 1)
      (hfinalize : State.handleFinalizeBlock block.orders block.request s
        = (.ok block.response, t)) : Applied genesis (block :: older) t

/-- The genesis and then the blocks of the requests, with one order for all tallies; nothing if the
genesis or a block fails, or if the heights do not count up from 1. -/
def Applied.exec [Host] (genesis : InitChain) (order : IterOrder) :
    List FinalizeBlock → Option (List Block × Store)
  | [] =>
    match State.initChain genesis Store.empty with
    | (.ok _, s) => some ([], s)
    | (.error _, _) => none
  | request :: requests =>
    (exec genesis order requests).bind fun (older, s) ↦
      if request.height.value = older.length + 1 then
        match State.handleFinalizeBlock (fun _ _ ↦ order) request s with
        | (.ok response, t) => some (⟨fun _ _ ↦ order, request, response⟩ :: older, t)
        | (.error _, _) => none
      else none

/-- What `exec` applies is applied. -/
theorem Applied.of_exec [Host] {genesis : InitChain} {order : IterOrder} :
    ∀ {requests : List FinalizeBlock} {blocks : List Block} {s : Store},
      exec genesis order requests = some (blocks, s) →
        Applied genesis blocks s ∧ blocks.map Block.request = requests
  | [], blocks, s, h => by
    rw [exec] at h
    rcases hinit : State.initChain genesis Store.empty with ⟨e | response, t⟩ <;>
      simp only [hinit] at h
    · cases h
    · obtain ⟨rfl, rfl⟩ := Prod.mk.inj (Option.some.inj h)
      exact ⟨.start hinit, rfl⟩
  | request :: requests, blocks, s, h => by
    rw [exec] at h
    obtain ⟨⟨older, s'⟩, hrest, h⟩ := Option.bind_eq_some_iff.mp h
    by_cases hheight : request.height.value = older.length + 1 <;>
      simp only [hheight, if_true, if_false] at h
    · rcases hfinalize : State.handleFinalizeBlock (fun _ _ ↦ order) request s' with
        ⟨e | response, t⟩ <;> simp only [hfinalize] at h
      · cases h
      · obtain ⟨rfl, rfl⟩ := Prod.mk.inj (Option.some.inj h)
        obtain ⟨happlied, hrequests⟩ := of_exec hrest
        exact ⟨happlied.block hheight hfinalize, congrArg (request :: ·) hrequests⟩
    · cases h

/-! ## What the requests do to the backend -/

namespace Service

variable [Host] {b b' : NodeStore} {orders : ℕ → ℕ → IterOrder}

/-- Nothing that is requested aside changes the backend. -/
theorem call_of_aside {request : Request} (h : request.Aside) (b : NodeStore) :
    (call orders request b).2 = b := by
  cases request with
  | initChain _ | finalizeBlock _ | commit => exact absurd h id
  | _ => rfl

/-- Nothing is recorded before the first block. -/
theorem recordPrevious_of_lastHeight {s : Store} (h : (lastHeight s).value = 0) :
    State.recordPrevious s = (.ok (), s) := by
  rw [State.recordPrevious]
  rcases hheight : State.blockHeight s with e | height
  · rfl
  · rw [lastHeight, hheight] at h
    exact if_pos h

/-- Before a block: the app hash recorded is the one of the storage, which is what the working state
shows if there is a previous block. -/
theorem recordPrevious_eq_ok
    (hroot : (lastHeight b.state.view).value ≠ 0 → b.storage = b.state.view)
    (h : recordPrevious b = (.ok (), b')) :
    State.recordPrevious b.state.view = (.ok (), b'.state.view) ∧ b'.storage = b.storage ∧
      b'.state.snapshot = b.state.snapshot := by
  rw [recordPrevious,
    Exec.read_bind_of_ok (g := fun b : NodeStore ↦ .ok (lastHeight b.state.view)) rfl] at h
  by_cases hzero : (lastHeight b.state.view).value = 0
  · rw [if_neg (not_not.mpr hzero)] at h
    obtain ⟨-, rfl⟩ := Prod.mk.inj h
    exact ⟨recordPrevious_of_lastHeight hzero, rfl, rfl⟩
  · rw [if_pos hzero, Exec.read_bind_of_ok (g := fun b : NodeStore ↦ .ok (appHash b.storage)) rfl,
      hroot hzero] at h
    obtain ⟨t, hrecord, rfl⟩ := Backend.onState_eq_ok.mp h
    refine ⟨?_, rfl, rfl⟩
    rw [Delta.view_write, ← hrecord, State.recordPrevious]
    rcases hheight : State.blockHeight b.state.view with e | height
    · rw [lastHeight, hheight] at hzero
      exact absurd rfl hzero
    · rw [lastHeight, hheight] at hzero
      exact if_neg hzero

/-- On a working state over the latest snapshot, a block that is finalized is finalized on the
view of the working state, and what it wrote is staged. -/
theorem finalizeBlock_eq_ok {request : FinalizeBlock} {response : FinalizeBlockResponse}
    (hsnapshot : b.state.snapshot = b.storage)
    (hroot : (lastHeight b.state.view).value ≠ 0 → b.storage = b.state.view)
    (h : finalizeBlock orders request b = (.ok response, b')) :
    ∃ t, State.handleFinalizeBlock orders request b.state.view = (.ok response, t) ∧
      b' = ⟨b.storage, .new b.storage, some ⟨changes b.storage t, appHash t⟩⟩ := by
  obtain ⟨_, b₁, hrecord, h⟩ := Exec.bind_eq_ok.mp h
  obtain ⟨response₁, b₂, hrun, h⟩ := Exec.bind_eq_ok.mp h
  obtain ⟨hrecord, hstorage, hsnapshot₁⟩ := recordPrevious_eq_ok hroot hrecord
  obtain ⟨t, hfinalize, rfl⟩ := Backend.onState_eq_ok.mp hrun
  obtain ⟨hresponse, rfl⟩ := Prod.mk.inj h
  refine ⟨t, ?_, ?_⟩
  · rw [State.handleFinalizeBlock, Exec.bind_of_ok hrecord, Exec.bind_of_ok hfinalize,
      ← hresponse, Delta.view_write]
    rfl
  · rw [Delta.view_write, hstorage, Delta.write, hsnapshot₁, hsnapshot]

end Service

/-! ## Sessions keep to the abstract chain -/

section Stands

variable [Host]

/-- How the backend stands to the abstract chain in each phase, given the geneses and the blocks of
the session. The storage is at the last commit, and the genesis is in the working state until the
first block. -/
inductive Stands : List InitChain → List Block → Phase → NodeStore → Prop where
  | fresh : Stands [] [] .fresh (.new Store.empty)
  | initialized {genesis : InitChain} {s : Store} (happlied : Applied genesis [] s) :
      Stands [genesis] [] (.committed 0)
        ⟨Store.empty, (Delta.new Store.empty).write s, none⟩
  | finalized {genesis : InitChain} {older : List Block} {block : Block} {s t : Store}
      (happlied : Applied genesis (block :: older) t) :
      Stands [genesis] (block :: older) (.finalized (older.length + 1))
        ⟨s, .new s, some ⟨changes s t, Service.appHash t⟩⟩
  | committed {genesis : InitChain} {older : List Block} {block : Block} {s : Store}
      (happlied : Applied genesis (block :: older) s) :
      Stands [genesis] (block :: older) (.committed (older.length + 1)) (.new s)

/-- The app hash in the response to a block is the one of the state it leaves. -/
theorem Applied.appHash_eq {genesis : InitChain} {block : Block} {older : List Block} {t : Store}
    (h : Applied genesis (block :: older) t) :
    block.response.appHash = Service.appHash t := by
  cases h with
  | block happlied hheight hfinalize =>
    obtain ⟨_, s₁, -, hfinalize⟩ := Exec.bind_eq_ok.mp hfinalize
    obtain ⟨response, s₂, -, hreturn⟩ := Exec.bind_eq_ok.mp hfinalize
    obtain ⟨hresponse, rfl⟩ := Prod.mk.inj hreturn
    rw [← Except.ok.inj hresponse]
    rfl

/-- No block has been finalized in the state after the genesis. -/
theorem Applied.lastHeight_eq_zero {genesis : InitChain} {s : Store}
    (h : Applied genesis [] s) : (Service.lastHeight s).value = 0 := by
  cases h with
  | @start response s hinit =>
    have hspared := spared_initChain (τ := .blockHeight) (by decide) (by decide) (by decide)
      genesis Store.empty
    rw [hinit] at hspared
    rw [Service.lastHeight, State.blockHeight,
      Table.get_congr hspared Height (List.append_nil (Table.head .blockHeight)).symm]
    rfl

/-- The backend shows the state of the abstract chain before every block. -/
theorem Stands.applied {geneses : List InitChain} {blocks : List Block} {height : ℕ}
    {b : NodeStore} (h : Stands geneses blocks (.committed height) b) :
    ∃ genesis, geneses = [genesis] ∧ Applied genesis blocks b.state.view ∧
      blocks.length = height ∧ b.state.snapshot = b.storage ∧
      ((Service.lastHeight b.state.view).value ≠ 0 → b.storage = b.state.view) := by
  cases h with
  | initialized happlied =>
    refine ⟨_, rfl, ?_, rfl, rfl, ?_⟩
    · rwa [Delta.view_write]
    · rw [Delta.view_write]
      exact fun hne ↦ absurd happlied.lastHeight_eq_zero hne
  | committed happlied =>
    refine ⟨_, rfl, ?_, rfl, rfl, fun _ ↦ ?_⟩
    · rwa [Backend.new, Delta.view_new]
    · rw [Backend.new, Delta.view_new]

/-- What was staged is committed. -/
theorem Stands.commit {gs : List InitChain} {bs : List Block} {height : ℕ} {b : NodeStore}
    (h : Stands gs bs (.finalized height) b) (orders : ℕ → ℕ → IterOrder) :
    ∃ genesis block older t, gs = [genesis] ∧ bs = block :: older ∧ height = older.length + 1 ∧
      Applied genesis (block :: older) t ∧
      Service.call orders .commit b = (.ok (.commit (Service.appHash t)), .new t) := by
  cases h with
  | @finalized genesis older block s t happlied =>
    refine ⟨genesis, block, older, t, rfl, rfl, rfl, happlied, ?_⟩
    rw [Service.call, Exec.bind_of_ok (Backend.commit_of_staged rfl), overlay_changes]
    rfl

/-- Every exchange keeps the session to the abstract chain. -/
theorem Stands.serves {gs : List InitChain} {bs : List Block} {s t : Phase × NodeStore}
    {e : Exchange} (hstands : Stands gs bs s.1 s.2) (hstep : Serves s e t) :
    Stands (e.genesis?.toList ++ gs) (e.block?.toList ++ bs) t.1 t.2 := by
  cases hstep with
  | initChain hcall =>
    cases hstands with
    | fresh =>
      obtain ⟨response, b₁, hserved, hreturn⟩ := Exec.bind_eq_ok.mp hcall
      obtain ⟨s, hinit, rfl⟩ := Backend.onState_eq_ok.mp hserved
      obtain ⟨-, rfl⟩ := Prod.mk.inj hreturn
      exact .initialized (.start hinit)
  | @finalizeBlock b b' orders request response height hheight hcall =>
    obtain ⟨genesis, rfl, happlied, hlength, hsnapshot, hroot⟩ := hstands.applied
    obtain ⟨blockResponse, b₁, hserved, hreturn⟩ := Exec.bind_eq_ok.mp hcall
    obtain ⟨t, hfinalize, rfl⟩ := Service.finalizeBlock_eq_ok hsnapshot hroot hserved
    obtain ⟨hresponse, rfl⟩ := Prod.mk.inj hreturn
    obtain rfl := Except.ok.inj hresponse
    subst hlength
    have hblock : Applied genesis (⟨orders, request, blockResponse⟩ :: bs) t :=
      happlied.block hheight hfinalize
    exact .finalized hblock
  | @commit b b' orders result height hcall =>
    obtain ⟨genesis, block, older, t, rfl, rfl, rfl, happlied, hcommit⟩ := hstands.commit orders
    obtain ⟨rfl, rfl⟩ := Prod.mk.inj (hcommit.symm.trans hcall)
    exact .committed happlied
  | @aside b b' orders request result phase haside hcall =>
    have hkept : b' = b := (congrArg Prod.snd hcall).symm.trans (Service.call_of_aside haside b)
    subst hkept
    cases request with
    | initChain _ | finalizeBlock _ | commit => exact absurd haside id
    | _ => exact hstands

/-- A session keeps to the abstract chain. -/
theorem Session.stands {h : List (Moment (Phase × NodeStore) Exchange)} {s : Phase × NodeStore}
    (hist : Session h s) : Stands (geneses h) (blocks h) s.1 s.2 := by
  induction hist with
  | start hinit =>
    subst hinit
    exact .fresh
  | @next h s t e hist hstep ih =>
    rw [geneses, blocks, filterMap_cons_eq, filterMap_cons_eq]
    exact ih.serves hstep

end Stands

/-! ## Running a session -/

/-- The phase after a request, if the engine may send it. It goes on after a genesis or a block
only if they succeeded. -/
def Phase.next : Phase → Request → Bool → Option Phase
  | .fresh, .initChain _, true => some (.committed 0)
  | .committed height, .finalizeBlock request, true =>
    if request.height.value = height + 1 then some (.finalized (height + 1)) else none
  | .finalized height, .commit, _ => some (.committed height)
  | phase, request, _ => if request.Aside then some phase else none

theorem Serves.of_next [Host] {phase phase' : Phase} {b b' : NodeStore}
    {orders : ℕ → ℕ → IterOrder} {request : Request} {result : Except Fault Response}
    (hcall : Service.call orders request b = (result, b'))
    (hnext : phase.next request result.isOk = some phase') :
    Serves (phase, b) ⟨orders, request, result⟩ (phase', b') := by
  unfold Phase.next at hnext
  split at hnext
  next hok =>
    obtain rfl := Option.some.inj hnext
    rcases result with e | response
    · cases hok
    · exact .initChain hcall
  next hok =>
    rcases result with e | response
    · cases hok
    · split at hnext
      next hheight =>
        obtain rfl := Option.some.inj hnext
        exact .finalizeBlock hheight hcall
      next => cases hnext
  next =>
    obtain rfl := Option.some.inj hnext
    exact .commit hcall
  next =>
    split at hnext
    next haside =>
      obtain rfl := Option.some.inj hnext
      exact .aside haside hcall
    next => cases hnext

/-- The session with the given requests, the last one first; nothing if the engine would not send
them. -/
def Session.exec [Host] (order : IterOrder) :
    List Request → Option (List (Moment (Phase × NodeStore) Exchange) × (Phase × NodeStore))
  | [] => some ([], .fresh, .new Store.empty)
  | request :: requests =>
    (exec order requests).bind fun (h, s) ↦
      let answer := Service.call (fun _ _ ↦ order) request s.2
      (s.1.next request answer.1.isOk).map fun phase ↦
        (⟨s, ⟨fun _ _ ↦ order, request, answer.1⟩, (phase, answer.2)⟩ :: h, (phase, answer.2))

/-- What `exec` runs through is a session. -/
theorem Session.of_exec [Host] {order : IterOrder} :
    ∀ {requests : List Request} {h : List (Moment (Phase × NodeStore) Exchange)}
      {s : Phase × NodeStore}, exec order requests = some (h, s) → Session h s
  | [], h, s, hexec => by
    obtain ⟨rfl, rfl⟩ := Prod.mk.inj (Option.some.inj hexec)
    exact .start rfl
  | request :: requests, h, s, hexec => by
    rw [exec] at hexec
    obtain ⟨⟨h', s'⟩, hrest, hexec⟩ := Option.bind_eq_some_iff.mp hexec
    obtain ⟨phase, hnext, hexec⟩ := Option.map_eq_some_iff.mp hexec
    obtain ⟨rfl, rfl⟩ := Prod.mk.inj hexec
    exact .next (of_exec hrest) (.of_next rfl hnext)

end Felidae
