import Felidae.Properties.Authentication
import Felidae.Properties.Blockstamps
import Felidae.Properties.Liveness
import Felidae.Properties.Pending
import Felidae.Properties.Revocation

/-!
# Quorums of signatures

From the bytes of the blocks to what the chain decides. Every accepted action stands in a
transaction of the block it is accepted in, which is for this chain, and the transaction is signed
by the action's party. So whatever becomes canonical, and whatever config comes into force, is
signed for, before it was enqueued, by as many parties as the quorum asked for at that moment.
-/

namespace Felidae

/-- The block holds the action in a transaction for the chain, under a signature by its party that
verifies. -/
structure Endorses [Host] (request : FinalizeBlock) (chainId : Str) (a : Action) : Prop where
  signed : ∃ buf ∈ request.txs, ∃ p m, Host.decodeTransaction buf = some p ∧ p.chainId = chainId ∧
    m ∈ p.actions ∧ Action.ofProto m = .ok a ∧ Signed p.hash m a

/-- A party has signed for a value: one of the blocks holds an action of the party that votes for
it, and accepts it at one of the moments, when the config in force authorizes the party. -/
structure Endorsed [Host] (requests : List FinalizeBlock) (chainId : Str)
    (ms : List (Moment Store Event)) (q : QueueId) (k : q.Key) (w : q.Value) (p : Bytes) :
    Prop where
  accepted : ∃ request ∈ requests, ∃ m ∈ ms, ∃ order a c, m.event = .act order a (.ok ()) ∧
    a.Votes q k p w ∧ Endorses request chainId a ∧ State.blockTime m.before = .ok request.time ∧
    State.config m.before = .ok c ∧ c.Authorizes q p

/-- At this moment an action is accepted, and by it the value becomes pending for its key. -/
structure Enqueues [Host] (m : Moment Store Event) (q : QueueId) (k : q.Key) (t : Second)
    (w : q.Value) : Prop where
  accepted : ∃ order a, m.event = .act order a (.ok ())
  fresh : ∀ t', ¬HasPending q k t' w m.before
  pending : HasPending q k t w m.after

/-- After the moments a value is pending for its key since second `t`: it was enqueued at one of
them, and has been pending since. Until that moment as many parties have signed for it as the quorum
of the config in force asked for. -/
def EndorsedByQuorum [Host] (requests : List FinalizeBlock) (chainId : Str)
    (ms : List (Moment Store Event)) (q : QueueId) (k : q.Key) (t : Second) (w : q.Value) : Prop :=
  ∃ since m before, ms = since ++ m :: before ∧ Enqueues m q k t w ∧
    (∀ x ∈ since, HasPending q k t w x.before ∧ HasPending q k t w x.after) ∧
    ∃ c, State.config m.before = .ok c ∧ ∃ parties : Set Bytes, parties.Nonempty ∧
      ((q.voting c).quorum.toNat : ℕ∞) ≤ parties.encard ∧
      ∀ p ∈ parties, Endorsed requests chainId (m :: before) q k w p

section Host

variable [Host]

/-! ## From the bytes to the actions -/

/-- The actions of an accepted transaction are signed by their parties. -/
theorem AuthenticatedTx.exists_signed {buf : Bytes} {t : AuthenticatedTx}
    (h : fromProto buf = .ok t) {a : Action} (ha : a ∈ t.tx.actions) :
    ∃ p m, Host.decodeTransaction buf = some p ∧ t.tx.chainId.id = p.chainId ∧ m ∈ p.actions ∧
      Action.ofProto m = .ok a ∧ Signed p.hash m a := by
  obtain ⟨p, hp, hverify, hread⟩ := fromProto_eq_ok.mp h
  obtain ⟨actions, hactions, htx⟩ := except_bind_eq_ok.mp hread
  rw [← Except.ok.inj htx] at ha
  obtain ⟨m, hm, hma⟩ := exists_of_mem_collect hactions a ha
  obtain ⟨s, hs, hid⟩ := Action.signature_of_ofProto hma
  obtain ⟨hlen, hecdsa⟩ := verify_eq_true.mp (hverify s (List.mem_filterMap.mpr ⟨m, hm, hs⟩))
  exact ⟨p, m, hp, chainId_eq h hp, hm, hma, ⟨s, hs, hid, hlen, hecdsa⟩⟩

namespace State

variable {m : Moment Store Event} {order : IterOrder} {a : Action} {r : Except Fault Unit}

theorem mem_actions_of_mem_actionMoments (hevent : m.event = .act order a r) :
    ∀ {actions : List Action} {orders : ℕ → IterOrder} {s : Store},
      m ∈ actionMoments orders actions s → a ∈ actions := by
  intro actions
  induction actions with
  | nil => exact fun hm ↦ absurd hm List.not_mem_nil
  | cons action actions ih =>
    intro orders s hm
    rw [actionMoments, List.mem_append, List.mem_singleton] at hm
    rcases hm with hm | rfl
    · rcases hstep : (applyAction (orders 0) action s).1 with e | ⟨⟩ <;> rw [hstep] at hm
      · exact absurd hm List.not_mem_nil
      · exact List.mem_cons_of_mem _ (ih hm)
    · rw [(Event.act.inj hevent).2.1]
      exact List.mem_cons_self

/-- The action of a moment stands in one of the transactions, which has passed the checks. -/
theorem exists_tx_of_mem_txsMoments (hevent : m.event = .act order a r) :
    ∀ {txs : List Bytes} {orders : ℕ → ℕ → IterOrder} {s : Store}, m ∈ txsMoments orders txs s →
      ∃ buf ∈ txs, ∃ t s', AuthenticatedTx.fromProto buf = .ok t ∧ a ∈ t.tx.actions ∧
        checkTransaction t s' = .ok () ∧ Table.chainId.entries s' = Table.chainId.entries s := by
  intro txs
  induction txs with
  | nil => exact fun hm ↦ absurd hm List.not_mem_nil
  | cons txBytes txs ih =>
    intro orders s hm
    rcases List.mem_append.mp hm with hm | hm
    · obtain ⟨buf, hbuf, t, s', ht, ha, hcheck, hsame⟩ := ih hm
      exact ⟨buf, List.mem_cons_of_mem _ hbuf, t, s', ht, ha, hcheck,
        hsame.trans (spared_execTx (τ := .chainId) rfl (orders 0) txBytes s)⟩
    · rw [txMoments] at hm
      split at hm
      · exact absurd hm List.not_mem_nil
      · next t ht =>
        split at hm
        · exact absurd hm List.not_mem_nil
        · next hcheck =>
          exact ⟨txBytes, List.mem_cons_self, t, s, ht, mem_actions_of_mem_actionMoments hevent hm,
            hcheck, rfl⟩

omit [Host] in
theorem chainId_congr {s t : Store} (h : Table.chainId.entries s = Table.chainId.entries t) :
    chainId s = chainId t := by
  rw [chainId, chainId,
    Table.get_congr h ChainId (List.append_nil (Table.head .chainId)).symm]

/-- The transactions of a finalized block start with the time of the block. -/
theorem blockTime_begunBlock {orders : ℕ → ℕ → IterOrder} {request : FinalizeBlock}
    {response : FinalizeBlockResponse} {s t : Store}
    (h : handleFinalizeBlock orders request s = (.ok response, t)) :
    blockTime (begunBlock request s) = .ok request.time := by
  obtain ⟨_, s₁, hrecord, h⟩ := Exec.bind_eq_ok.mp h
  obtain ⟨_, s₂, hfinalize, -⟩ := Exec.bind_eq_ok.mp h
  obtain ⟨_, s₃, hbegin, -⟩ := Exec.bind_eq_ok.mp hfinalize
  rw [begunBlock, Exec.bind_of_ok hrecord, hbegin]
  exact (times_beginBlock hbegin).1

end State

/-- An action that is applied in a run stands in an authenticated transaction of the block, which is
for the chain. -/
theorem Run.exists_tx_of_mem {genesis : InitChain} {requests : List FinalizeBlock}
    {ms : List (Moment Store Event)} {s : Store} (hrun : Run genesis requests ms s)
    {m : Moment Store Event} (hm : m ∈ ms) {order : IterOrder} {a : Action}
    {r : Except Fault Unit} (hevent : m.event = .act order a r) :
    ∃ request ∈ requests, State.blockTime m.before = .ok request.time ∧
      ∃ buf ∈ request.txs, ∃ t, AuthenticatedTx.fromProto buf = .ok t ∧ a ∈ t.tx.actions ∧
        State.chainId m.before = .ok t.tx.chainId := by
  induction hrun with
  | start => exact absurd hm List.not_mem_nil
  | @block requests moments s t request response orders _ _ hfinalize ih =>
    rcases List.mem_append.mp hm with hm | hm
    · refine ⟨request, List.mem_cons_self, ?_⟩
      rcases List.mem_cons.mp hm with rfl | hm
      · cases hevent
      rcases List.mem_append.mp hm with hm | hm
      · obtain ⟨buf, hbuf, t, s', ht, ha, hcheck, hsame⟩ :=
          State.exists_tx_of_mem_txsMoments hevent hm
        refine ⟨?_, buf, hbuf, t, ht, ha, ?_⟩
        · rw [State.blockTime_congr (entries_of_mem_txsMoments rfl hm).1]
          exact State.blockTime_begunBlock hfinalize
        · rw [State.chainId_congr ((entries_of_mem_txsMoments rfl hm).1.trans hsame.symm)]
          obtain ⟨id, hid, hcheck⟩ := except_bind_eq_ok.mp hcheck
          obtain ⟨⟨⟩, heq, -⟩ := except_bind_eq_ok.mp hcheck
          rw [hid, not_not.mp ((decides_bailIf _ _).iff.mp heq)]
      · obtain rfl := List.mem_singleton.mp hm
        cases hevent
    -- an action of an earlier block
    · obtain ⟨request, hrequest, hrest⟩ := ih hm
      exact ⟨request, List.mem_cons_of_mem _ hrequest, hrest⟩

/-! ## From the actions to the decisions -/

variable [LawfulHost] {genesis : InitChain} {requests : List FinalizeBlock}
  {ms : List (Moment Store Event)} {s : Store} {h : List (Moment Ledger Event)} {L : Ledger}
  {q : QueueId} {k : q.Key} {t : Second} {w : q.Value}

/-- An action that is applied in a run is signed by its party, for the chain of the genesis. -/
theorem Run.endorses_of_mem (hrun : Run genesis requests ms s) {m : Moment Store Event}
    (hm : m ∈ ms) {order : IterOrder} {a : Action} {r : Except Fault Unit}
    (hevent : m.event = .act order a r) :
    ∃ request ∈ requests, State.blockTime m.before = .ok request.time ∧
      Endorses request genesis.chainId a := by
  obtain ⟨request, hrequest, htime, buf, hbuf, t, ht, ha, hid⟩ := hrun.exists_tx_of_mem hm hevent
  obtain ⟨p, x, hp, hchain, hx, hxa, hsigned⟩ := AuthenticatedTx.exists_signed ht ha
  refine ⟨request, hrequest, htime, buf, hbuf, p, x, hp, ?_, hx, hxa, hsigned⟩
  obtain ⟨h, L, hshown, hL, -⟩ := hrun.exists_shown_genesis
  obtain ⟨older, M, -, hM, hMid, -⟩ := hshown.exists_of_visited (.inr ⟨m, hm, .inl rfl⟩)
  have hne := hM.exists_chainId_iff.mp ⟨_, hid⟩
  have heq := Except.ok.inj (hid.symm.trans (hM.chainId hne))
  rw [← hchain, heq, hMid, hL]

/-- What is pending after some moments of a run is endorsed by a quorum. -/
theorem Run.endorsed (hrun : Run genesis requests ms s) {newer older : List (Moment Store Event)}
    (hms : ms = newer ++ older) (hshows : List.Forall₂ Shows older h) (hist : LedgerHistory h L)
    (hpending : (L.queue q).pending k = some (t, w)) :
    EndorsedByQuorum requests genesis.chainId older q k t w := by
  obtain ⟨between, x, before, rfl, hx, hkept⟩ := LedgerHistory.pending_origin hist hpending
  obtain ⟨since, m, before', rfl, hsince, hshow, hbefore⟩ := exists_split_of_forall₂ hshows.flip
  have hsound : ∀ {y : Moment Ledger Event}, y ∈ between ++ x :: before →
      y.before.Sound ∧ y.after.Sound := fun hy ↦ by
    obtain ⟨newer', older', hsplit⟩ := List.append_of_mem hy
    rw [hsplit] at hist
    exact ⟨LedgerHistory.sound hist.split.1, LedgerHistory.sound hist.upTo⟩
  have hmem : x ∈ between ++ x :: before := List.mem_append_right _ List.mem_cons_self
  obtain ⟨party, v, hcast, hnonempty, hquorum⟩ := hx.won
  obtain ⟨order, a, -, hevent, -⟩ := hcast.accepted
  refine ⟨since, m, before', rfl, ⟨⟨order, a, hshow.event.trans hevent⟩, fun t' hold ↦ ?_, ?_⟩,
    fun y hy ↦ ?_, _, hshow.before.config, _, hnonempty, hquorum, ?_⟩
  · exact hx.fresh t' ((hshow.before.hasPending_iff (hsound hmem).1).mp hold)
  · exact (hshow.after.hasPending_iff (hsound hmem).2).mpr hx.pending
  · obtain ⟨y', hy', hshow'⟩ := exists_of_mem_forall₂ hsince.flip hy
    have hsound' := hsound (List.mem_append_left _ hy')
    exact ⟨(hshow'.before.hasPending_iff hsound'.1).mpr (hkept y' hy').1,
      (hshow'.after.hasPending_iff hsound'.2).mpr (hkept y' hy').2⟩
  · -- every vote that is counted was cast by an action that is signed
    rintro p ⟨t', hvote⟩
    obtain ⟨newer', y, older', hsplit, hy, -⟩ :=
      LedgerHistory.counted_origin hist hcast hvote
    have hmem' : y ∈ x :: before := by
      rw [hsplit]
      exact List.mem_append_right newer' List.mem_cons_self
    obtain ⟨y₀, hy₀, hshow'⟩ :=
      exists_of_mem_forall₂ (List.Forall₂.cons hshow hbefore.flip).flip hmem'
    obtain ⟨order', a', now, hevent', -, -, hvotes, -⟩ := hy.accepted
    have hevent₀ := hshow'.event.trans hevent'
    obtain ⟨request, hrequest, htime, hendorses⟩ := hrun.endorses_of_mem
      (hms ▸ List.mem_append_right newer (List.mem_append_right since hy₀)) hevent₀
    exact ⟨request, hrequest, y₀, hy₀, order', a', _, hevent₀, hvotes, hendorses, htime,
      hshow'.before.config, hy.authorizes⟩

/-- In every run a canonical entry is only changed to what is pending then, and what a quorum of
authorized oracles has signed for, in transactions of the blocks that authenticate, before it was
enqueued. -/
theorem Run.canonical_endorsed (hrun : Run genesis requests ms s)
    {newer older : List (Moment Store Event)} {m : Moment Store Event}
    (hms : ms = newer ++ m :: older) {d : PrefixOrderDomain}
    (hchange : State.canonicalHash d.toDomain m.after ≠ State.canonicalHash d.toDomain m.before) :
    ∃ t, ∃ w : OracleVoteValue, HasPending .oracle d t w m.before ∧
      State.canonicalHash d.toDomain m.after = .ok w.hashObserved.hash? ∧
      EndorsedByQuorum requests genesis.chainId older .oracle d t w := by
  obtain ⟨h, L, hshown⟩ := hrun.exists_shown
  obtain ⟨newer', M, older', rfl, -, hshow, hshows⟩ :=
    exists_split_of_forall₂ (hms ▸ hshown.moments)
  obtain ⟨hbefore, hstep⟩ := hshown.history.split
  have hsound : M.before.Sound := LedgerHistory.sound hbefore
  rw [hshow.after.canonicalHash, hshow.before.canonicalHash] at hchange
  rcases hstep.canonical hsound d with ⟨t, w, hpromoted⟩ | ⟨hsame, -⟩
  · refine ⟨t, w, (hshow.before.hasPending_iff hsound).mpr hpromoted.pending, ?_, ?_⟩
    · rw [hshow.after.canonicalHash, hpromoted.canonical]
    · exact hrun.endorsed (hms.trans (List.append_cons ..)) hshows hbefore hpromoted.pending
  · exact absurd (congrArg Except.ok hsame) hchange

/-- In every run the config in force is only replaced by the one that is pending then, and that a
quorum of authorized admins has signed for, before it was enqueued. -/
theorem Run.config_endorsed (hrun : Run genesis requests ms s)
    {newer older : List (Moment Store Event)} {m : Moment Store Event}
    (hms : ms = newer ++ m :: older) (hchange : State.config m.after ≠ State.config m.before) :
    ∃ t c, HasPending .admin Empty.mk t c m.before ∧ State.config m.after = .ok c ∧
      EndorsedByQuorum requests genesis.chainId older .admin Empty.mk t c := by
  obtain ⟨h, L, hshown⟩ := hrun.exists_shown
  obtain ⟨newer', M, older', rfl, -, hshow, hshows⟩ :=
    exists_split_of_forall₂ (hms ▸ hshown.moments)
  obtain ⟨hbefore, hstep⟩ := hshown.history.split
  have hsound : M.before.Sound := LedgerHistory.sound hbefore
  rw [hshow.after.config, hshow.before.config] at hchange
  rcases hstep.config hsound with hsame | ⟨-, t, now, -, hpending, -⟩
  · exact absurd (congrArg Except.ok hsame) hchange
  · exact ⟨t, _, (hshow.before.hasPending_iff hsound).mpr hpending, hshow.after.config,
      hrun.endorsed (hms.trans (List.append_cons ..)) hshows hbefore hpending⟩

end Host

namespace Reference

/-- The domain that is enrolled is signed for. -/
theorem canonical_endorsed_enrolling : ∃ ms s, Run genesis enrolling ms s ∧
    ∃ newer m older, ms = newer ++ m :: older ∧ ∃ t, ∃ w : OracleVoteValue,
      HasPending .oracle www t w m.before ∧
      State.canonicalHash www.toDomain m.after = .ok w.hashObserved.hash? ∧
      EndorsedByQuorum enrolling genesis.chainId older .oracle www t w := by
  obtain ⟨ms, s, hrun, hany⟩ := exists_run_of_any genesis listed enrolling
    (fun r ↦ r.1.any fun m ↦ State.canonicalHash www.toDomain m.after !=
      State.canonicalHash www.toDomain m.before) (by decide +kernel)
  obtain ⟨m, hm, hchange⟩ := List.any_eq_true.mp hany
  obtain ⟨newer, older, hms⟩ := List.append_of_mem hm
  exact ⟨ms, s, hrun, newer, m, older, hms, hrun.canonical_endorsed hms (bne_iff_ne.mp hchange)⟩

/-- So is the first config. -/
theorem config_endorsed_enrolling : ∃ ms s, Run genesis enrolling ms s ∧
    ∃ newer m older, ms = newer ++ m :: older ∧ ∃ t c, HasPending .admin Empty.mk t c m.before ∧
      State.config m.after = .ok c ∧
      EndorsedByQuorum enrolling genesis.chainId older .admin Empty.mk t c := by
  obtain ⟨ms, s, hrun, hany⟩ := exists_run_of_any genesis listed enrolling
    (fun r ↦ r.1.any fun m ↦ State.config m.after != State.config m.before) (by decide +kernel)
  obtain ⟨m, hm, hchange⟩ := List.any_eq_true.mp hany
  obtain ⟨newer, older, hms⟩ := List.append_of_mem hm
  exact ⟨ms, s, hrun, newer, m, older, hms, hrun.config_endorsed hms (bne_iff_ne.mp hchange)⟩

end Reference

end Felidae
