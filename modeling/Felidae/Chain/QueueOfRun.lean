import Felidae.Chain.QueueRun
import Felidae.Chain.Refine
import Felidae.Reference

/-!
# The queues of a chain

In a run of the chain both queues are run as `QueueHistory` says: the blocks expire and promote
them, the actions that are accepted cast on them, and nothing else in a block touches their
tables. What holds of every run of a queue therefore holds of both queues in every state of the
chain.
-/

namespace Felidae

open Exec

variable {q : QueueId} {s t : Store}

/-! ## What does not touch the queues -/

/-- The computation writes no table of a queue. -/
structure OffQueues {α : Type} (x : Command α) : Prop where
  spared : ∀ τ : Table, τ.queued = true → τ.Spared x
  index : Keeps Store.nonverifiable x

namespace OffQueues

variable {α β : Type} {x : Command α}

theorem sameTables (h : OffQueues x) (q : QueueId) (s : Store) : q.SameTables s (x s).2 where
  votes := h.spared (.vote q) rfl s
  pending := h.spared (.pending q) rfl s
  voteIndex := funext fun _ ↦ by rw [IndexTable.entries, h.index s]; rfl
  pendingIndex := funext fun _ ↦ by rw [IndexTable.entries, h.index s]; rfl

theorem bind {f : α → Command β} (h : OffQueues x) (hf : ∀ a, OffQueues (f a)) :
    OffQueues (x >>= f) :=
  ⟨fun τ hτ ↦ (h.spared τ hτ).bind fun a ↦ (hf a).spared τ hτ,
    h.index.bind fun a ↦ (hf a).index⟩

theorem read (f : Store → Except Fault α) : OffQueues (Exec.read f) :=
  ⟨fun _ _ ↦ keeps_read f, keeps_read f⟩

theorem forEach {body : β → Command Unit} (l : List β) (h : ∀ b, OffQueues (body b)) :
    OffQueues (Exec.forEach body l) :=
  ⟨fun τ hτ ↦ keeps_forEach fun b _ ↦ (h b).spared τ hτ, keeps_forEach fun b _ ↦ (h b).index⟩

end OffQueues

theorem Table.ne_of_queued {τ τ' : Table} (hτ : τ.queued = true) (hτ' : τ'.queued = false) :
    τ ≠ τ' := by
  rintro rfl
  cases hτ.symm.trans hτ'

theorem QueueId.SameTables.trans {r : Store} (h : q.SameTables s t) (h' : q.SameTables t r) :
    q.SameTables s r :=
  ⟨h'.votes.trans h.votes, h'.pending.trans h.pending, h'.voteIndex.trans h.voteIndex,
    h'.pendingIndex.trans h.pendingIndex⟩

theorem keeps_nonverifiable_put {V : Type} [DomainType V] (substore : Substore) (key : Str)
    (v : V) :
    Keeps Store.nonverifiable (Exec.modify (Store.put substore key v) : Command Unit) := fun _ ↦ rfl

theorem offQueues_recordPrevious [Host] : OffQueues State.recordPrevious where
  spared τ hτ := spared_recordPrevious (Table.ne_of_queued hτ rfl)
  index s := by
    rw [State.recordPrevious]
    split
    · rfl
    · split
      · rfl
      · rw [State.recordAppHash]
        refine (keeps_read _).bind (fun height ↦ ?_) s
        split
        · exact keeps_throw _
        · exact (keeps_read _).bind fun _ ↦ keeps_modify fun _ ↦ rfl

theorem offQueues_setBlockHeight (height : Height) : OffQueues (State.setBlockHeight height) :=
  ⟨fun _ hτ ↦ spared_setBlockHeight (Table.ne_of_queued hτ rfl) height, keeps_modify fun _ ↦ rfl⟩

theorem offQueues_setBlockTime (time : Time) : OffQueues (State.setBlockTime time) :=
  ⟨fun _ hτ ↦ spared_setBlockTime (Table.ne_of_queued hτ rfl) (Table.ne_of_queued hτ rfl) time,
    (keeps_nonverifiable_put _ _ _).bind fun _ ↦ (keeps_read _).bind fun _ ↦
      keeps_nonverifiable_put _ _ _⟩

theorem offQueues_applyConfig (c : Config) : OffQueues (State.applyConfig c) :=
  ⟨fun _ hτ ↦ spared_applyConfig (Table.ne_of_queued hτ rfl) c, (keeps_read _).bind fun current ↦ by
    split
    · exact keeps_pure _
    · exact keeps_modify fun _ ↦ rfl⟩

theorem offQueues_updateCanonical (d : Domain) (o : HashObserved) :
    OffQueues (State.updateCanonical d o) :=
  ⟨fun _ hτ ↦ spared_updateCanonical (Table.ne_of_queued hτ rfl) d o, by
    cases o with
    | hash => exact keeps_modify fun _ ↦ rfl
    | notFound => exact keeps_modify fun _ ↦ rfl⟩

/-! ## Every moment -/

section Moments

variable [Host]

/-- The queue has been run to this store, and the block time has always been one that `T` allows. -/
def Queued (q : QueueId) (T : Time → Prop) (s : Store) : Prop :=
  (∃ ms, QueueHistory q ms s ∧ ∀ m ∈ ms, ∀ now, State.blockTime m.before = .ok now → T now) ∧
    ∀ now, State.blockTime s = .ok now → T now

namespace Queued

variable {T : Time → Prop} {L M : Ledger}

theorem step (h : Queued q T s) {e : QueueEvent q} (hstep : QueueStep q s e t)
    (htime : ∀ now, State.blockTime t = .ok now → T now) : Queued q T t := by
  obtain ⟨⟨ms, hist, hms⟩, hs⟩ := h
  refine ⟨⟨_, hist.next hstep, fun m hm ↦ ?_⟩, htime⟩
  rcases List.mem_cons.mp hm with rfl | hm
  · exact hs
  · exact hms m hm

/-- The rest of the state changes. -/
theorem elsewhere (h : Queued q T s) (hs : Represents s L) (hsame : q.SameTables s t)
    (ht : Represents t M) (hM : M.Sound)
    (hmono : ∀ now, L.time = some now → ∃ now', M.time = some now' ∧ now ≤ now')
    (htime : ∀ now, M.time = some now → T now) : Queued q T t := by
  refine h.step (.elsewhere hsame ⟨M, ht, hM⟩ fun now hnow ↦ ?_) fun now hnow ↦
    htime now (ht.blockTime_eq_ok.mp hnow)
  obtain ⟨now', hnow', hle⟩ := hmono now (hs.blockTime_eq_ok.mp hnow)
  exact ⟨now', ht.blockTime_eq_ok.mpr hnow', hle⟩

/-- The rest of the state changes, and the time does not. -/
theorem elsewhere_of_time_eq (h : Queued q T s) (hs : Represents s L) (hsame : q.SameTables s t)
    (ht : Represents t M) (hM : M.Sound) (htime : M.time = L.time) : Queued q T t :=
  h.elsewhere hs hsame ht hM (fun now hnow ↦ ⟨now, htime.trans hnow, le_refl now.total⟩)
    fun now hnow ↦ h.2 now (hs.blockTime_eq_ok.mpr (htime.symm.trans hnow))

variable [LawfulHost]

/-- A call of either queue is a step of this one, or happens elsewhere. -/
theorem call (h : Queued q T s) (hs : Represents s L) (hL : L.Sound) {q' : QueueId}
    {e : QueueEvent q'} (hstep : QueueStep q' s e t) (hother : ∀ p, p ≠ q' → p.SameTables s t)
    (htime : ∀ M, L.QueueStep q' e M → M.time = L.time) : Queued q T t := by
  obtain ⟨M, hM, ht⟩ := hstep.outcome hs hL
  by_cases hq : q = q'
  · subst hq
    refine h.step hstep fun now hnow ↦ h.2 now (hs.blockTime_eq_ok.mpr ?_)
    rw [← htime M hM]
    exact ht.blockTime_eq_ok.mp hnow
  · exact h.elsewhere_of_time_eq hs (hother q hq) ht (hM.sound hL) (htime M hM)

theorem timeoutExpiredVotes (h : Queued q T s) (hs : Represents s L) (hL : L.Sound) {now : Time}
    (hnow : L.time = some now) (q' : QueueId) :
    Queued q T ((q'.queue L.config).timeoutExpiredVotes s).2 := by
  refine h.call hs hL (.timeoutExpiredVotes hs.config (hs.blockTime_eq_ok.mpr hnow))
    (fun p hp ↦ (confines_timeoutExpiredVotes (q'.base_queue _)).sameTables hp s) fun M hM ↦ ?_
  cases hM with
  | expired => rfl

theorem promotePendingChanges (h : Queued q T s) (hs : Represents s L) (hL : L.Sound)
    {now : Time} (hnow : L.time = some now) (q' : QueueId) :
    Queued q T ((q'.queue L.config).promotePendingChanges s).2 := by
  refine h.call hs hL (.promotePendingChanges hs.config (hs.blockTime_eq_ok.mpr hnow))
    (fun p hp ↦ (confines_promotePendingChanges (q'.base_queue _)).sameTables hp s) fun M hM ↦ ?_
  generalize ((q'.queue L.config).promotePendingChanges s).1 = result at hM
  cases hM with
  | promoted => rfl

theorem cast (h : Queued q T s) (hs : Represents s L) (hL : L.Sound) {now : Time}
    (hnow : L.time = some now) (q' : QueueId) (order : IterOrder) (k : q'.Key) (party : Bytes)
    {v : q'.Value} (hclean : Clean v) (hfits : q'.Fits k v) :
    Queued q T ((q'.queue L.config).cast order ⟨hexEncode party, now, k, v⟩ s).2 := by
  refine h.call hs hL (.cast order k party hs.config (hs.blockTime_eq_ok.mpr hnow) hclean hfits)
    (fun p hp ↦ (confines_cast (q'.base_queue _) _ _).sameTables hp s) fun M hM ↦ ?_
  cases hM with
  | cast _ _ _ hcast =>
    obtain ⟨Q, rfl⟩ := hcast.frame
    rfl

/-- The start of a block: the time moves on, and both queues expire. -/
theorem begin (h : Queued q T s) (hs : Represents s L) (hL : L.Sound) (hseated : L.Seated)
    {request : FinalizeBlock} (hmono : ∀ time, L.time = some time → time ≤ request.time)
    (hT : T request.time) : Queued q T (State.begunBlock request s) := by
  obtain ⟨s₁, root, hrecord, h₁⟩ := hs.recordPrevious
  have hseated₁ : (L.recordRoot root).Seated := hseated
  obtain ⟨us, hus⟩ := h₁.activeValidators.mpr hseated₁
  obtain ⟨s₂, hheight, h₂⟩ := h₁.setBlockHeight request.height
  obtain ⟨s₃, htime, h₃⟩ := h₂.setBlockTime rfl request.time
  have hmark : State.markValidatorsVoted (State.votingValidators request.votes) s₁
      = (.ok (), s₁) := by
    rw [State.markValidatorsVoted, Exec.read_bind_of_ok hus]
    rfl
  have hsame : q.SameTables s s₃ := by
    have hsame₁ := offQueues_recordPrevious.sameTables q s
    have hsame₂ := (offQueues_setBlockHeight request.height).sameTables q s₁
    have hsame₃ := (offQueues_setBlockTime request.time).sameTables q s₂
    rw [hrecord] at hsame₁
    rw [hheight] at hsame₂
    rw [htime] at hsame₃
    exact (hsame₁.trans hsame₂).trans hsame₃
  have hsound₃ : ((L.recordRoot root).setBlock request.height request.time).Sound :=
    ⟨hL.vote_clean, hL.pending_clean, hL.vote_fits, hL.indexed⟩
  have hq₃ : Queued q T s₃ := h.elsewhere hs hsame h₃ hsound₃
    (fun now hnow ↦ ⟨request.time, rfl, hmono now hnow⟩) fun now hnow ↦ by
      rwa [← Option.some.inj (hnow : some request.time = some now)]
  obtain ⟨D, s₄, hexpire, h₄, hD⟩ := h₃.timeoutExpiredVotes .admin rfl
  have hq₄ := hq₃.timeoutExpiredVotes h₃ hsound₃ rfl .admin
  rw [hexpire] at hq₄
  have hq₅ := hq₄.timeoutExpiredVotes h₄ (hsound₃.expire D) rfl .oracle
  rw [State.begunBlock, Exec.bind_of_ok hrecord, State.beginBlock, Exec.bind_of_ok hmark,
    Exec.bind_of_ok (h₁.tombstoneValidators hseated₁ _), Exec.bind_of_ok hheight,
    Exec.bind_of_ok htime, Exec.read_bind_of_ok h₃.adminVoting]
  have hrun := Exec.bind_of_ok (f := fun _ ↦ Exec.read State.oracleVoting >>= fun queue ↦
    queue.timeoutExpiredVotes) hexpire
  rw [Exec.read_bind_of_ok h₄.oracleVoting] at hrun
  exact (congrArg (fun r ↦ Queued q T r.2) hrun).mpr hq₅

/-- An action that is applied: it casts on its queue, or it is refused and changes nothing. -/
theorem act (h : Queued q T s) (hs : Represents s L) (hL : L.Sound) {height : Height} {now : Time}
    (hheight : L.height = some height) (hnow : L.time = some now) (order : IterOrder)
    {action : Action} (hreadable : L.Permits now action → action.Readable) :
    Queued q T (State.applyAction order action s).2 := by
  have htime := hs.blockTime_eq_ok.mpr hnow
  cases action with
  | observe o =>
    change Queued q T (State.observe order o s).2
    rw [State.observe]
    rcases hs.checkBlockstamp hheight hnow o with ⟨-, hok⟩ | ⟨-, e, -, herr⟩
    · rw [Exec.read_bind_of_ok hok, Exec.read_bind_of_ok htime]
      rcases hs.checkSubdomain hL o with ⟨hsub, hok'⟩ | ⟨-, e, -, herr⟩
      · rw [Exec.read_bind_of_ok hok', Exec.read_bind_of_ok hs.oracleVoting]
        exact h.cast hs hL hnow .oracle order (.ofDomain o.observation.domain) o.oracle.identity
          (v := ⟨o.observation.hashObserved, o.observation.zone⟩) (OracleVoteValue.clean _)
          hsub.below
      · rw [Exec.read_bind_of_error herr]
        exact h
    · rw [Exec.read_bind_of_error herr]
      exact h
  | reconfigure r =>
    change Queued q T (State.reconfigure order r s).2
    rw [State.reconfigure]
    rcases hs.checkReconfigure hL hnow r with ⟨hpermits, hok⟩ | ⟨-, e, -, herr⟩
    · rw [Exec.read_bind_of_ok hok, Exec.read_bind_of_ok htime,
        Exec.read_bind_of_ok hs.adminVoting]
      exact h.cast hs hL hnow .admin order Empty.mk r.admin.identity (hreadable hpermits) trivial
    · rw [Exec.read_bind_of_error herr]
      exact h

/-- The end of a block: both queues promote, and what they hand on is written elsewhere. -/
theorem finish (h : Queued q T s) (hs : Represents s L) (hL : L.Sound) (hseated : L.Seated)
    {now : Time} (hnow : L.time = some now) : Queued q T (State.endBlock s).2 := by
  obtain ⟨cs, s₁, s₂, L₂, hconfigs, happly, h₂, hpromotion⟩ := hs.promoteConfig hL hnow
  obtain ⟨es, s₁', hconfigs', h₁, -⟩ := hs.promotePendingChanges hL .admin hnow
  obtain rfl := (Prod.mk.inj (hconfigs.symm.trans hconfigs')).2
  have hnow₂ : L₂.time = some now := hpromotion.time.trans hnow
  have hsound₂ := hpromotion.sound hL
  have hq₁ := h.promotePendingChanges hs hL hnow .admin
  rw [hconfigs] at hq₁
  have hsame := (OffQueues.forEach cs fun e ↦ offQueues_applyConfig e.2).sameTables q s₁
  rw [happly] at hsame
  have hq₂ := hq₁.elsewhere_of_time_eq h₁ hsame h₂ hsound₂ hpromotion.time
  obtain ⟨es', s₃, hpromote, h₃, -⟩ := h₂.promotePendingChanges hsound₂ .oracle hnow₂
  have hq₃ := hq₂.promotePendingChanges h₂ hsound₂ hnow₂ .oracle
  rw [hpromote] at hq₃
  obtain ⟨us, t, L', hend, ht, hends⟩ := hs.endBlock hL hseated hnow
  -- what is left writes what is canonical, and reads the validators
  have hrest : State.endBlock s = (Exec.forEach (fun e ↦
      State.updateCanonical e.1.toDomain e.2.hashObserved) (es'.map Prod.snd) >>=
      fun _ ↦ Exec.read State.activeValidators) s₃ := by
    rw [State.endBlock, Exec.read_bind_of_ok hs.adminVoting]
    refine (Exec.bind_of_ok hconfigs).trans ?_
    rw [Exec.bind_of_ok happly, Exec.read_bind_of_ok h₂.oracleVoting]
    exact Exec.bind_of_ok hpromote
  have hsame' := ((OffQueues.forEach (es'.map Prod.snd) fun e ↦
    offQueues_updateCanonical e.1.toDomain e.2.hashObserved).bind fun _ ↦
      OffQueues.read State.activeValidators).sameTables q s₃
  rw [← hrest, hend] at hsame'
  rw [hend]
  exact hq₃.elsewhere_of_time_eq h₃ hsame' ht (hL.ends hends)
    (hends.time.trans hpromotion.time.symm)

/-- A whole block. -/
theorem block (h : Queued q T s) (hs : Represents s L) {H : List (Moment Ledger Event)}
    (hist : LedgerHistory H L) (hseated : L.Seated) (orders : ℕ → ℕ → IterOrder)
    {request : FinalizeBlock} (hmono : ∀ time, L.time = some time → time ≤ request.time)
    (hT : T request.time) :
    Queued q T (State.endBlock (State.executedBlock orders request s)).2 := by
  obtain ⟨s₁, L₁, hbegin, hs₁, hbegins⟩ := hs.beginBlock hseated request
  have hq₁ := h.begin hs hist.sound hseated hmono hT
  have hbegun : State.begunBlock request s = s₁ := congrArg Prod.snd hbegin
  rw [hbegun] at hq₁
  obtain ⟨results, s₂, hexec, h₂, L₂, hshows, hist₂, hs₂, hsame⟩ :=
    hs₁.execTxs request.txs orders (hist.next (.begin hmono hbegins)) hbegins.height hbegins.time
  have hq₂ : Queued q T s₂ := by
    have hrun := State.execTxs_of_moments (P := Queued q T) request.txs orders hq₁ fun m hm hq ↦ ?_
    · rwa [hexec] at hrun
    · obtain ⟨order, action, hevent, hafter⟩ := State.applies_of_mem_txsMoments hm
      obtain ⟨⟨M, event', M'⟩, hM, hbefore, hevent', -⟩ := exists_of_mem_forall₂ hshows hm
      obtain ⟨newer, older, rfl⟩ := List.append_of_mem hM
      rw [List.append_assoc, List.cons_append] at hist₂
      obtain ⟨hold, hstep⟩ := History.split hist₂
      rw [hafter]
      obtain rfl : Event.act order action _ = event' := hevent.symm.trans hevent'
      generalize (State.applyAction order action m.before).1 = result at hstep
      have hsound := LedgerHistory.sound hold
      cases hstep with
      | accept htime hreadable _ _ =>
        obtain ⟨height, hheight⟩ := LedgerHistory.exists_height hold htime
        exact hq.act hbefore hsound hheight htime order fun _ ↦ hreadable
      | refuse htime _ hpermits =>
        obtain ⟨height, hheight⟩ := LedgerHistory.exists_height hold htime
        exact hq.act hbefore hsound hheight htime order fun h ↦ absurd h hpermits
  have hvalidators : L₂.validators = L.validators := hsame.validators.trans hbegins.validators
  rw [State.executedBlock, hbegun, hexec]
  exact hq₂.finish hs₂ (LedgerHistory.sound hist₂)
    (by rw [Ledger.Seated, hvalidators]; exact hseated) (hsame.time.trans hbegins.time)

end Queued

variable [LawfulHost]

/-- Both queues of a chain are run as a queue is, at the block times of the chain. -/
theorem Run.exists_queueHistory {genesis : InitChain} {requests : List FinalizeBlock}
    {ms : List (Moment Store Event)} (hrun : Run genesis requests ms s) (q : QueueId) :
    ∃ qs, QueueHistory q qs s ∧ ∀ m ∈ qs, ∀ now, State.blockTime m.before = .ok now →
      ∃ request ∈ requests, request.time = now := by
  have hqueued : ∀ {requests : List FinalizeBlock} {ms : List (Moment Store Event)} {s : Store},
      Run genesis requests ms s → ∀ T : Time → Prop, (∀ request ∈ requests, T request.time) →
        Queued q T s := by
    intro requests ms s hrun
    induction hrun with
    | start hinit =>
      intro T _
      obtain ⟨config, validators, hs, -⟩ := Represents.initChain hinit
      have hstart : QueueStart q _ := ⟨_, hs, Ledger.Sound.genesis .., fun _ _ ↦ rfl,
        fun _ _ _ ↦ rfl, fun _ ↦ rfl⟩
      refine ⟨⟨[], .start hstart, fun m hm ↦ absurd hm List.not_mem_nil⟩, fun now hnow ↦ ?_⟩
      cases hs.blockTime_eq_ok.mp hnow
    | block orders hrun htime hfinalize ih =>
      intro T hT
      obtain ⟨h, L, hshown⟩ := hrun.exists_shown
      rw [State.snd_handleFinalizeBlock hfinalize]
      exact (ih T fun r hr ↦ hT r (List.mem_cons_of_mem _ hr)).block hshown.represents
        hshown.history (hshown.seated hfinalize) orders (hshown.inTime htime)
        (hT _ List.mem_cons_self)
  exact (hqueued hrun _ fun request hr ↦ ⟨request, hr, rfl⟩).1

end Moments

namespace Reference

/-- The time of the store can move on to this one, and has always been in or after 1970. -/
def movesOn (now : Time) (s : Store) : Bool :=
  match State.blockTime s with
  | .ok before => decide (before ≤ now) && decide (0 ≤ before.unixTimestamp)
  | .error _ => false

/-- A queue that a chain has run, from 1970 on, when the time has moved on; the store passes a
test. -/
theorem exists_queueHistory (q : QueueId) (requests : List FinalizeBlock) (now : Time)
    (hepoch : ∀ request ∈ requests, 0 ≤ request.time.unixTimestamp) (P : Store → Bool)
    (htest : (Run.exec genesis (inOrder listed requests)).any (fun r ↦
      movesOn now r.2 && P (State.setBlockTime now r.2).2) = true) :
    ∃ ms s c, QueueHistory q ms s ∧
      (∀ m ∈ ms, ∀ now, State.blockTime m.before = .ok now → 0 ≤ now.unixTimestamp) ∧
      State.config s = .ok c ∧ State.blockTime s = .ok now ∧ P s = true := by
  obtain ⟨_, s, hrun, htest⟩ := exists_run_of_any genesis listed requests _ htest
  obtain ⟨hmoves, hP⟩ := Bool.and_eq_true_iff.mp htest
  obtain ⟨_, L, hshown⟩ := hrun.exists_shown
  have hs : Represents s L := hshown.represents
  obtain ⟨ms, hist, htimes⟩ := hrun.exists_queueHistory q
  rw [movesOn] at hmoves
  split at hmoves
  next before hbefore =>
    obtain ⟨hle, hsince⟩ := Bool.and_eq_true_iff.mp hmoves
    have hle : before ≤ now := of_decide_eq_true hle
    have hsince : 0 ≤ before.unixTimestamp := of_decide_eq_true hsince
    have hqueued : Queued q (fun now ↦ 0 ≤ now.unixTimestamp) s := by
      refine ⟨⟨ms, hist, fun m hm now' hnow' ↦ ?_⟩, fun now' hnow' ↦ ?_⟩
      · obtain ⟨request, hr, rfl⟩ := htimes m hm now' hnow'
        exact hepoch request hr
      · rwa [← Except.ok.inj (hbefore.symm.trans hnow')]
    have htime := hs.blockTime_eq_ok.mp hbefore
    obtain ⟨height, hheight⟩ := LedgerHistory.exists_height hshown.history htime
    obtain ⟨t, hset, ht⟩ := hs.setBlockTime hheight now
    have hsound := LedgerHistory.sound hshown.history
    have hsame := (offQueues_setBlockTime now).sameTables q s
    rw [hset] at hsame hP
    -- setting the time is a step outside the queue
    obtain ⟨⟨ms', hist', hms'⟩, -⟩ := hqueued.elsewhere hs hsame ht ⟨hsound.vote_clean,
      hsound.pending_clean, hsound.vote_fits, hsound.indexed⟩ (fun now' hnow' ↦ ⟨now, rfl, by
        rwa [← Option.some.inj (htime.symm.trans hnow')]⟩) fun now' hnow' ↦ by
      obtain rfl := Option.some.inj hnow'
      have htotal : before.total ≤ now.total := hle
      have hnanos := now.nanos_lt
      rw [Time.total, Time.total] at htotal
      omega
    exact ⟨ms', t, L.config, hist', hms', ht.config, ht.blockTime_eq_ok.mpr rfl, hP⟩
  next => cases hmoves

end Reference

end Felidae
