import Felidae.Chain.Step

/-!
# Runs refine histories

Every run of the chain is shown, moment by moment, by a history of ledgers; and on a store that
represents a ledger of a history, the next block is finalized. The failures of transactions are
caught one by one: none of them is a panic, and with a chain id that can be read back all of them
are rejections of the transaction.
-/

open Classical

namespace Felidae

/-- What the transactions of a block do not change. -/
structure Ledger.SameBlock (L L' : Ledger) : Prop where
  height : L'.height = L.height
  time : L'.time = L.time
  chainId : L'.chainId = L.chainId
  validators : L'.validators = L.validators

theorem Ledger.SameBlock.refl (L : Ledger) : L.SameBlock L := ⟨rfl, rfl, rfl, rfl⟩

theorem Ledger.SameBlock.trans {L₁ L₂ L₃ : Ledger} (h : L₁.SameBlock L₂) (h' : L₂.SameBlock L₃) :
    L₁.SameBlock L₃ :=
  ⟨h'.height.trans h.height, h'.time.trans h.time, h'.chainId.trans h.chainId,
    h'.validators.trans h.validators⟩

theorem Ledger.Casts.sameBlock {L L' : Ledger} {now : Time} {action : Action}
    (h : L.Casts now action L') : L.SameBlock L' := by
  obtain ⟨Q, rfl⟩ := h.frame
  exact ⟨rfl, rfl, rfl, rfl⟩

/-- No step changes the chain id or the validators. -/
theorem Ledger.Step.same [Host] {L L' : Ledger} {e : Event} (h : L.Step e L') :
    L'.chainId = L.chainId ∧ L'.validators = L.validators := by
  cases h with
  | begin _ hbegins => exact ⟨hbegins.chainId, hbegins.validators⟩
  | accept _ _ _ hcasts => exact ⟨hcasts.sameBlock.chainId, hcasts.sameBlock.validators⟩
  | refuse => exact ⟨rfl, rfl⟩
  | finish _ hends => exact ⟨hends.chainId, hends.validators⟩

/-- A failure that the loop over the transactions catches. -/
def Fault.Caught : Fault → Prop
  | .panic _ => False
  | _ => True

theorem Fault.Rejects.caught {e : Fault} (h : e.Rejects) : e.Caught := by
  cases e with
  | reject m => trivial
  | corrupt m | panic m => exact absurd h id

variable [Host]

/-- A history of ledgers. -/
abbrev LedgerHistory : List (Moment Ledger Event) → Ledger → Prop :=
  History Ledger.IsGenesis Ledger.Step

theorem LedgerHistory.sound [LawfulHost] {h : List (Moment Ledger Event)} {L : Ledger}
    (hist : LedgerHistory h L) : L.Sound :=
  hist.invariant (fun _ hinit ↦ hinit.sound) fun _ _ _ hL hstep ↦ hL.step hstep

theorem LedgerHistory.sound_of_mem [LawfulHost] {h : List (Moment Ledger Event)} {L : Ledger}
    (hist : LedgerHistory h L) {m : Moment Ledger Event} (hm : m ∈ h) :
    m.before.Sound ∧ m.after.Sound :=
  hist.invariant_of_mem (fun _ hinit ↦ hinit.sound) (fun _ _ _ hL hstep ↦ hL.step hstep) hm

/-- Height and time are set together. -/
theorem LedgerHistory.exists_height {h : List (Moment Ledger Event)} {L : Ledger}
    (hist : LedgerHistory h L) {now : Time} (htime : L.time = some now) :
    ∃ height, L.height = some height := by
  have hinv : L.time.isSome → L.height.isSome := by
    refine hist.invariant (P := fun L ↦ L.time.isSome → L.height.isSome) ?_ ?_
    · rintro _ ⟨_, _, _, rfl⟩ hsome
      exact hsome
    · intro L e L' ih hstep
      cases hstep with
      | begin _ hbegins =>
        rw [hbegins.height]
        exact fun _ ↦ rfl
      | accept _ _ _ hcasts =>
        obtain ⟨Q, rfl⟩ := hcasts.frame
        exact ih
      | refuse => exact ih
      | finish _ hends =>
        rw [hends.time, hends.height]
        exact ih
  exact Option.isSome_iff_exists.mp (hinv (by rw [htime]; rfl))

/-- The moment of the ledger shows the moment of the store. -/
structure Shows (m : Moment Store Event) (M : Moment Ledger Event) : Prop where
  before : Represents m.before M.before
  event : m.event = M.event
  after : Represents m.after M.after

/-- The moments extend a history that ends in the ledger `L`, within a block, to the store `t`. -/
abbrev Extends (h : List (Moment Ledger Event)) (L : Ledger) (ms : List (Moment Store Event))
    (t : Store) : Prop :=
  ∃ h' L', List.Forall₂ Shows ms h' ∧ LedgerHistory (h' ++ h) L' ∧ Represents t L' ∧ L.SameBlock L'

/-! ## Transactions -/

/-- What is checked before the actions fails with a rejection, if the chain id can be read. -/
theorem Represents.checkTransaction {s : Store} {L : Ledger} (h : Represents s L)
    (tx : AuthenticatedTx) {e : Fault} (he : State.checkTransaction tx s = .error e) :
    e.Caught ∧ (L.chainId.id ≠ [] → e.Rejects) := by
  by_cases hid : L.chainId.id = []
  · refine ⟨?_, fun h ↦ absurd hid h⟩
    have hread : State.chainId s
        = .error (ParseError.corrupt ⟨"felidae_types::transaction::ChainId", ""⟩) := by
      rw [State.chainId, Laid.get (V := ChainId) (k := .chainId) h rfl]
      change (((ChainId.ofText L.chainId.id).mapError ParseError.corrupt).map some >>= _) = _
      rw [hid]
      rfl
    rw [State.checkTransaction, hread] at he
    rw [← Except.error.inj he]
    trivial
  · have hrejects : e.Rejects := by
      rw [State.checkTransaction, h.chainId hid] at he
      exact ((decides_bailIf _ _).bind fun _ ↦ decides_bailIf _ _).expected_of_error he
    exact ⟨hrejects.caught, fun _ ↦ hrejects⟩

variable [LawfulHost]

omit [LawfulHost] in
/-- The actions of an authenticated transaction propose configs that are read back as written. -/
theorem AuthenticatedTx.readable {txBytes : Bytes} {tx : AuthenticatedTx}
    (h : fromProto txBytes = .ok tx) : ∀ action ∈ tx.tx.actions, action.Readable := by
  obtain ⟨p, -, -, hp⟩ := AuthenticatedTx.fromProto_eq_ok.mp h
  rw [Transaction.ofProto, except_bind_eq_ok] at hp
  obtain ⟨actions, hactions, htx⟩ := hp
  intro action haction
  rw [← Except.ok.inj htx] at haction
  obtain ⟨m, -, hm⟩ := exists_of_mem_collect hactions action haction
  rw [Action.ofProto] at hm
  split at hm
  next r hr =>
    obtain ⟨r', hr', rfl⟩ := except_map_eq_ok.mp hm
    exact Config.clean_of_readBack (Reconfigure.readBack_of_ofProto hr')
  next o ho =>
    obtain ⟨o', -, rfl⟩ := except_map_eq_ok.mp hm
    trivial
  next => cases hm

/-- The moments of the actions of a transaction, and how it ends. -/
theorem Represents.applyActions {now : Time} {height : Height} :
    ∀ (actions : List Action) (orders : ℕ → IterOrder) {s : Store} {L : Ledger}
      {h : List (Moment Ledger Event)}, Represents s L → LedgerHistory h L →
      L.height = some height → L.time = some now → (∀ action ∈ actions, action.Readable) →
      ∃ r t, State.applyActions orders actions s = (r, t) ∧
        (∀ e, r = .error e → e.Rejects) ∧ Extends h L (State.actionMoments orders actions s) t
  | [], orders, s, L, h, hs, hist, _, _, _ =>
    ⟨_, s, rfl, fun _ he ↦ (by cases he), [], L, .nil, hist, hs, .refl L⟩
  | action :: actions, orders, s, L, h, hs, hist, hheight, htime, hreadable => by
    have haction := hreadable action List.mem_cons_self
    rcases hs.applyAction hist.sound hheight htime (orders 0) haction with
      ⟨hpermits, r, L₁, hok, hr, hcasts⟩ | ⟨hpermits, e, he, herr⟩
    · have hsame := hcasts.sameBlock
      obtain ⟨result, t, hrest, hrejects, h', L', hshows, hist', ht, hsame'⟩ :=
        Represents.applyActions actions (fun n ↦ orders (n + 1)) hr
          (hist.next (.accept htime haction hpermits hcasts)) (hsame.height.trans hheight)
          (hsame.time.trans htime) fun a ha ↦ hreadable a (List.mem_cons_of_mem _ ha)
      refine ⟨result, t, (Exec.bind_of_ok hok).trans hrest, hrejects,
        h' ++ [⟨L, .act (orders 0) action (.ok ()), L₁⟩], L', ?_, ?_, ht, hsame.trans hsame'⟩
      · rw [State.actionMoments, hok]
        exact List.rel_append hshows (.cons ⟨hs, rfl, hr⟩ .nil)
      · rwa [List.append_assoc]
    · refine ⟨.error e, s, Exec.bind_of_error herr, fun e' he' ↦ Except.error.inj he' ▸ he,
        [⟨L, .act (orders 0) action (.error e), L⟩], L, ?_,
        hist.next (.refuse htime he hpermits), hs, .refl L⟩
      rw [State.actionMoments, herr]
      exact .cons ⟨hs, rfl, hs⟩ .nil

/-- One transaction. -/
theorem Represents.deliverTx {s : Store} {L : Ledger} {h : List (Moment Ledger Event)}
    (hs : Represents s L) (hist : LedgerHistory h L) {height : Height} {now : Time}
    (hheight : L.height = some height) (htime : L.time = some now) (orders : ℕ → IterOrder)
    (txBytes : Bytes) :
    ∃ r t, State.deliverTx orders txBytes s = (r, t) ∧
      (∀ e, r = .error e → e.Caught ∧ (L.chainId.id ≠ [] → e.Rejects)) ∧
      Extends h L (State.txMoments orders txBytes s) t := by
  rw [State.txMoments]
  rcases htx : AuthenticatedTx.fromProto txBytes with e | tx
  · refine ⟨.error e.reject, s, ?_, fun e' he' ↦ ?_, [], L, .nil, hist, hs, .refl L⟩
    · exact Exec.read_bind_of_error (by rw [htx]; rfl)
    · rw [← Except.error.inj he']
      exact ⟨trivial, fun _ ↦ trivial⟩
  · have hdeliver : State.deliverTx orders txBytes s = State.deliverAuthenticatedTx orders tx s :=
      Exec.read_bind_of_ok (by rw [htx]; rfl)
    rw [hdeliver, State.deliverAuthenticatedTx]
    rcases hcheck : State.checkTransaction tx s with e | ⟨⟩ <;> simp only [hcheck]
    · refine ⟨.error e, s, Exec.read_bind_of_error hcheck, fun e' he' ↦ ?_,
        [], L, .nil, hist, hs, .refl L⟩
      rw [← Except.error.inj he']
      exact hs.checkTransaction tx hcheck
    · obtain ⟨r, t, happly, hrejects, hext⟩ := hs.applyActions _ orders hist hheight htime
        (AuthenticatedTx.readable htx)
      exact ⟨r, t, (Exec.read_bind_of_ok hcheck).trans happly,
        fun e he ↦ ⟨(hrejects e he).caught, fun _ ↦ hrejects e he⟩, hext⟩

/-- The loop over the transactions ends, whatever they are. -/
theorem Represents.execTxs {height : Height} {now : Time} :
    ∀ (txs : List Bytes) (orders : ℕ → ℕ → IterOrder) {s : Store} {L : Ledger}
      {h : List (Moment Ledger Event)}, Represents s L → LedgerHistory h L →
      L.height = some height → L.time = some now →
      ∃ results t, State.execTxs orders txs s = (.ok results, t) ∧
        Extends h L (State.txsMoments orders txs s) t
  | [], _, s, L, h, hs, hist, _, _ => ⟨[], s, rfl, [], L, .nil, hist, hs, .refl L⟩
  | txBytes :: txs, orders, s, L, h, hs, hist, hheight, htime => by
    obtain ⟨r, s₁, hdeliver, hcaught, h₁, L₁, hshows, hist₁, hs₁, hsame⟩ :=
      hs.deliverTx hist hheight htime (orders 0) txBytes
    obtain ⟨result, hexec⟩ : ∃ result, State.execTx (orders 0) txBytes s = (.ok result, s₁) := by
      rw [State.execTx, hdeliver]
      rcases r with ⟨m | m | m⟩ | ⟨⟩
      · exact ⟨_, rfl⟩
      · exact ⟨_, rfl⟩
      · exact absurd (hcaught _ rfl).1 id
      · exact ⟨_, rfl⟩
    obtain ⟨results, t, hrest, h₂, L₂, hshows', hist₂, ht, hsame'⟩ :=
      Represents.execTxs txs (fun n ↦ orders (n + 1)) hs₁ hist₁
        (hsame.height.trans hheight) (hsame.time.trans htime)
    refine ⟨result :: results, t, ?_, h₂ ++ h₁, L₂, ?_, ?_, ht, hsame.trans hsame'⟩
    · rw [State.execTxs, Exec.bind_of_ok hexec, Exec.bind_of_ok hrest]
      rfl
    · rw [State.txsMoments, hexec]
      exact List.rel_append hshows' hshows
    · rwa [List.append_assoc]

/-! ## Blocks -/

/-- The next block is finalized, and its moments extend the history. -/
theorem Represents.handleFinalizeBlock {s : Store} {L : Ledger} {h : List (Moment Ledger Event)}
    (hs : Represents s L) (hist : LedgerHistory h L) (hseated : L.Seated)
    (orders : ℕ → ℕ → IterOrder) {request : FinalizeBlock}
    (hmono : ∀ time, L.time = some time → time ≤ request.time) :
    ∃ response t h' L', State.handleFinalizeBlock orders request s = (.ok response, t) ∧
      List.Forall₂ Shows (State.blockMoments orders request s) h' ∧
      LedgerHistory (h' ++ h) L' ∧ Represents t L' ∧ L'.chainId = L.chainId ∧
      L'.validators = L.validators := by
  obtain ⟨s₁, L₁, hbegin, hs₁, hbegins⟩ := hs.beginBlock hseated request
  have hist₁ := hist.next (.begin hmono hbegins)
  obtain ⟨results, s₂, hexec, h₂, L₂, hshows, hist₂, hs₂, hsame⟩ :=
    hs₁.execTxs request.txs orders hist₁ hbegins.height hbegins.time
  have hvalidators : L₂.validators = L.validators := hsame.validators.trans hbegins.validators
  obtain ⟨us, t, L', hend, ht, hends⟩ := hs₂.endBlock hist₂.sound
    (by rw [Ledger.Seated, hvalidators]; exact hseated) (hsame.time.trans hbegins.time)
  have hbegun : State.begunBlock request s = s₁ := congrArg Prod.snd hbegin
  have hexecuted : State.executedBlock orders request s = s₂ := by
    rw [State.executedBlock, hbegun, hexec]
  obtain ⟨_, r, hrecord, hbegin'⟩ := Exec.bind_eq_ok.mp hbegin
  refine ⟨⟨results, us, Host.rootHash t.verifiable⟩, t,
    ⟨L₂, .finish, L'⟩ :: (h₂ ++ [⟨L, .begin request, L₁⟩]), L', ?_, ?_, ?_, ht,
    hends.chainId.trans (hsame.chainId.trans hbegins.chainId), hends.validators.trans hvalidators⟩
  · have hfinalize : State.finalizeBlock orders request r = (.ok ⟨results, us, []⟩, t) := by
      rw [State.finalizeBlock, Exec.bind_of_ok hbegin', Exec.bind_of_ok hexec,
        Exec.bind_of_ok hend]
      rfl
    rw [State.handleFinalizeBlock, Exec.bind_of_ok hrecord, Exec.bind_of_ok hfinalize]
    rfl
  · rw [State.blockMoments, hexecuted, hbegun, hend]
    exact .cons ⟨hs₂, rfl, ht⟩ (List.rel_append hshows (.cons ⟨hs, rfl, hs₁⟩ .nil))
  · rw [List.cons_append, List.append_assoc]
    exact hist₂.next (.finish (hsame.time.trans hbegins.time) hends)

/-- The history `h`, which ends in `L`, shows the moments `ms` of a run that ends in `s`. -/
structure Shown (ms : List (Moment Store Event)) (s : Store) (h : List (Moment Ledger Event))
    (L : Ledger) : Prop where
  moments : List.Forall₂ Shows ms h
  history : LedgerHistory h L
  represents : Represents s L

section

omit [LawfulHost]

variable {ms : List (Moment Store Event)} {s : Store} {h : List (Moment Ledger Event)} {L : Ledger}

/-- Every moment of the run is shown by one of the history. -/
theorem Shown.exists_of_mem (hshown : Shown ms s h L) {m : Moment Store Event} (hm : m ∈ ms) :
    ∃ M ∈ h, Shows m M :=
  exists_of_mem_forall₂ hshown.moments hm

/-- Every moment of the history shows one of the run. -/
theorem Shown.exists_shows (hshown : Shown ms s h L) {M : Moment Ledger Event} (hM : M ∈ h) :
    ∃ m ∈ ms, Shows m M :=
  exists_of_mem_forall₂ hshown.moments.flip hM

end

omit [LawfulHost] in
/-- A block is only finalized if the validators can be listed. -/
theorem State.activeValidators_of_handleFinalizeBlock {orders : ℕ → ℕ → IterOrder}
    {request : FinalizeBlock} {response : FinalizeBlockResponse} {s t : Store}
    (h : State.handleFinalizeBlock orders request s = (.ok response, t)) :
    ∃ r us, State.recordPrevious s = (.ok (), r) ∧ State.activeValidators r = .ok us := by
  obtain ⟨_, r, hrecord, h⟩ := Exec.bind_eq_ok.mp h
  obtain ⟨_, _, hfinalize, -⟩ := Exec.bind_eq_ok.mp h
  obtain ⟨_, _, hbegin, -⟩ := Exec.bind_eq_ok.mp hfinalize
  obtain ⟨_, _, hmark, -⟩ := Exec.bind_eq_ok.mp hbegin
  obtain ⟨us, _, hread, -⟩ := Exec.bind_eq_ok.mp hmark
  exact ⟨r, us, hrecord, (Prod.mk.inj hread).1⟩

section

variable {ms : List (Moment Store Event)} {s t : Store} {h : List (Moment Ledger Event)}
  {L : Ledger} {request : FinalizeBlock}

/-- The validators of a chain that finalizes a block have ed25519 keys. -/
theorem Shown.seated (hshown : Shown ms s h L) {orders : ℕ → ℕ → IterOrder}
    {response : FinalizeBlockResponse}
    (hfinalize : State.handleFinalizeBlock orders request s = (.ok response, t)) : L.Seated := by
  obtain ⟨r, us, hrecord, hus⟩ := State.activeValidators_of_handleFinalizeBlock hfinalize
  obtain ⟨r', root, hrecord', hr⟩ := hshown.represents.recordPrevious
  obtain rfl := (Prod.mk.inj (hrecord.symm.trans hrecord')).2
  exact hr.activeValidators.mp ⟨us, hus⟩

omit [LawfulHost] in
theorem Shown.inTime (hshown : Shown ms s h L) (htime : State.InTime request s) :
    ∀ time, L.time = some time → time ≤ request.time := fun time hL ↦
  htime time (by rw [hshown.represents.blockTime, hL, okOr_some])

end

/-- One more block of a run: its moments extend the history. -/
theorem Shown.block {ms : List (Moment Store Event)} {s t : Store}
    {h : List (Moment Ledger Event)} {L : Ledger} (hshown : Shown ms s h L)
    {orders : ℕ → ℕ → IterOrder} {request : FinalizeBlock} {response : FinalizeBlockResponse}
    (htime : State.InTime request s)
    (hfinalize : State.handleFinalizeBlock orders request s = (.ok response, t)) :
    ∃ h' L', Shown (State.blockMoments orders request s ++ ms) t (h' ++ h) L' ∧
      L'.chainId = L.chainId ∧ L'.validators = L.validators := by
  have hseated := hshown.seated hfinalize
  have hmono := hshown.inTime htime
  obtain ⟨hshows, hist, hs⟩ := hshown
  obtain ⟨response', t', h', L', hok, hshows', hist', ht, hsame⟩ :=
    hs.handleFinalizeBlock hist hseated orders hmono
  obtain rfl := (Prod.mk.inj (hfinalize.symm.trans hok)).2
  exact ⟨h', L', ⟨List.rel_append hshows' hshows, hist', ht⟩, hsame⟩

/-- Every run is shown by a history of ledgers. -/
theorem Run.exists_shown {genesis : InitChain} {requests : List FinalizeBlock}
    {ms : List (Moment Store Event)} {s : Store} (hrun : Run genesis requests ms s) :
    ∃ h L, Shown ms s h L := by
  induction hrun with
  | start hinit =>
    obtain ⟨config, validators, hs, -⟩ := Represents.initChain hinit
    exact ⟨[], _, .nil, .start ⟨_, _, _, rfl⟩, hs⟩
  | block orders hrun htime hfinalize ih =>
    obtain ⟨h, L, hshown⟩ := ih
    obtain ⟨h', L', hshown', -⟩ := hshown.block htime hfinalize
    exact ⟨h' ++ h, L', hshown'⟩

/-- The states a run ends in and passes through, between the actions of a block too. -/
def Visited (ms : List (Moment Store Event)) (s t : Store) : Prop :=
  t = s ∨ ∃ m ∈ ms, t = m.before ∨ t = m.after

omit [LawfulHost] in
/-- Each of them represents a ledger that the history passes through. -/
theorem Shown.exists_upTo {ms : List (Moment Store Event)} {s t : Store}
    {h : List (Moment Ledger Event)} {L : Ledger} (hshown : Shown ms s h L)
    (ht : Visited ms s t) : ∃ older L', older <:+ h ∧ LedgerHistory older L' ∧ Represents t L' := by
  rcases ht with rfl | ⟨m, hm, ht⟩
  · exact ⟨h, L, List.suffix_rfl, hshown.history, hshown.represents⟩
  · obtain ⟨M, hM, hshow⟩ := hshown.exists_of_mem hm
    obtain ⟨newer, older, rfl⟩ := List.append_of_mem hM
    rcases ht with rfl | rfl
    · exact ⟨older, M.before, (List.suffix_cons M older).trans (List.suffix_append _ _),
        hshown.history.split.1, hshow.before⟩
    · exact ⟨M :: older, M.after, List.suffix_append _ _, hshown.history.upTo, hshow.after⟩

/-- Each of them represents a sound ledger. -/
theorem Run.exists_represents {genesis : InitChain} {requests : List FinalizeBlock}
    {ms : List (Moment Store Event)} {s t : Store} (hrun : Run genesis requests ms s)
    (ht : Visited ms s t) : ∃ L, Represents t L ∧ L.Sound := by
  obtain ⟨h, L, hshown⟩ := hrun.exists_shown
  obtain ⟨older, L', -, hist, hs⟩ := hshown.exists_upTo ht
  exact ⟨L', hs, LedgerHistory.sound hist⟩

end Felidae
