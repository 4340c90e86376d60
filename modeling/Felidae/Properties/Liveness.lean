import Felidae.Properties.CanonicalScans
import Felidae.Reference

/-!
# No transaction halts the chain

Whatever the transactions of the next block are, the block is finalized: each of them is delivered
or fails with a code of its own, and nothing that is read back outside of the transactions fails.
One value is not read back as it is written: an empty chain id. The chain is initialized with it,
but does not find it again, and every transaction fails for that.
-/

namespace Felidae

/-! ## What is read back -/

namespace VoteQueue

variable [Host] {K V : Type} [QueueKey K] [DomainType V] (q : VoteQueue K V)

/-- The votes for all keys. -/
def allVotes (s : Store) : Except Fault (List (Vote K V)) :=
  ((s.scan V .internal (q.votesByKeyPrefix [] false)).andThen fun e ↦ do
    let (key, party, time) ← q.parseVotesByKeyPartyTimestamp e.1
    let key ← (QueueKey.ofText key).mapError ParseError.corrupt
    return ⟨party, time, key, e.2⟩).collect

/-- The pending changes of all keys. -/
def allPending (s : Store) : Except Fault (List (Time × K × V)) :=
  ((s.scan V .internal (q.pendingByKeyPrefix [] false)).andThen fun e ↦ do
    let (key, time) ← q.parsePendingByKeyTimestamp e.1
    let key ← (QueueKey.ofText key).mapError ParseError.corrupt
    return (time, key, e.2)).collect

/-- The index of the votes. -/
def allVotesByTimestamp (s : Store) : Except Fault (List (Time × Str × Str)) :=
  ((s.indexScan Unit .internal q.votesByTimestampAllPrefix).andThen fun e ↦
    q.parseIndexVotesByTimestampKeyParty e.1).collect

/-- The index of the pending changes. -/
def allPendingByTimestamp (s : Store) : Except Fault (List (Time × Str × V)) :=
  ((s.indexScan V .internal q.indexPendingByTimestampAllPrefix).andThen fun e ↦
    (q.parseIndexPendingByTimestampKey e.1).map fun (time, key) ↦ (time, key, e.2)).collect

/-- Every entry of the queue is read back, the keys of the index are keys of the queue, and no key
has two pending changes. -/
structure Intact (s : Store) : Prop where
  votes : ∃ votes, q.allVotes s = .ok votes
  pending : ∃ changes, q.allPending s = .ok changes
  votesByTimestamp : ∃ entries, q.allVotesByTimestamp s = .ok entries ∧
    ∀ e ∈ entries, ∃ key : K, QueueKey.ofText e.2.1 = .ok key
  pendingByTimestamp : ∃ entries, q.allPendingByTimestamp s = .ok entries ∧
    ∀ e ∈ entries, ∃ key : K, QueueKey.ofText e.2.1 = .ok key
  single : ∀ key, ∃ change, q.pendingForKey key s = .ok change

end VoteQueue

namespace State

variable [Host]

/-- Everything that is stored is read back: the registers, the histories, the validators, the
canonical state and both queues. -/
structure Intact (s : Store) : Prop where
  config : ∃ c, State.config s = .ok c
  chainId : ∃ id, State.chainId s = .ok id
  blockHeight : ∃ o, Store.get Height .internal "current/block_height".toList s = .ok o
  blockTime : ∃ o, Store.get Time .internal "current/block_time".toList s = .ok o
  blockTimes : ∀ h, ∃ o, Store.get Time .internal ("blocktime/".toList ++ padHeight h) s = .ok o
  appHashes : ∀ h, ∃ o, Store.get Bytes .internal ("apphash/".toList ++ padHeight h) s = .ok o
  validators : ∃ us, activeValidators s = .ok us
  canonical : ∀ d, (∃ ds, canonicalSubdomains d s = .ok ds) ∧
    ∃ es : List (Domain × Hash32), canonicalSubdomainsHashes d s = .ok (es.map .ok)
  queue : ∀ (q : QueueId) (c : Config), (q.queue c).Intact s

/-! ## What the next block does -/

/-- The results of the transactions of a block: code 0 for one that is delivered, another code for
one that fails, and it fails only as `R` says. -/
inductive Answers (R : Fault → Prop) : (ℕ → ℕ → IterOrder) → List Bytes → Store →
    List ExecTxResult → Prop where
  | nil {orders : ℕ → ℕ → IterOrder} {s : Store} : Answers R orders [] s []
  | cons {orders : ℕ → ℕ → IterOrder} {txBytes : Bytes} {txs : List Bytes} {s : Store}
      {result : ExecTxResult} {results : List ExecTxResult}
      (hcode : result.code = 0 ↔ (deliverTx (orders 0) txBytes s).1 = .ok ())
      (hfails : ∀ e, (deliverTx (orders 0) txBytes s).1 = .error e → R e)
      (hrest : Answers R (fun n ↦ orders (n + 1)) txs (deliverTx (orders 0) txBytes s).2 results) :
      Answers R orders (txBytes :: txs) s (result :: results)

/-- Every next block that is not earlier than the last one is finalized, and its transactions fail
only as `R` says. -/
def Proceeds (R : Fault → Prop) (s : Store) : Prop :=
  ∀ (orders : ℕ → ℕ → IterOrder) (request : FinalizeBlock), InTime request s →
    ∃ response t, handleFinalizeBlock orders request s = (.ok response, t) ∧
      blockTime (begunBlock request s) = .ok request.time ∧
      Answers R orders request.txs (begunBlock request s) response.txResults

end State

section Host

variable [Host] [LawfulHost] {s t : Store} {L : Ledger}

/-! ## On the ledger -/

theorem Represents.queue_intact (h : Represents s L) (hL : L.Sound) (q : QueueId) (c : Config) :
    (q.queue c).Intact s where
  votes := by
    obtain ⟨es, hstream, -⟩ := h.votesStreamBelow hL q c (List.not_mem_nil : '/' ∉ ([] : Str))
    refine ⟨es.map fun e ↦ q.readEntry e.1 e.2, ?_⟩
    rw [VoteQueue.allVotes]
    simp only [hstream, Results.andThen_map_ok]
    refine Results.collect_map fun e _ ↦ ?_
    simp only [VoteQueue.parseVotesByKeyPartyTimestamp_build _ (q.slash_notMem_toText e.1)
      (slash_notMem_hexEncode _), except_ok_bind, q.ofText_toText]
    rfl
  pending := by
    obtain ⟨es, hstream, -⟩ :=
      h.pendingStreamBelow hL q c (List.not_mem_nil : '/' ∉ ([] : Str))
    refine ⟨es.map fun e ↦ (e.2.1.toTime, e.1, e.2.2), ?_⟩
    rw [VoteQueue.allPending]
    simp only [hstream, Results.andThen_map_ok]
    refine Results.collect_map fun e _ ↦ ?_
    rw [VoteQueue.parsePendingByKeyTimestamp_build, except_ok_bind, q.ofText_toText]
    rfl
  votesByTimestamp := by
    obtain ⟨ds, hstream, -⟩ := h.voteIndexStream q c
    refine ⟨ds.map fun d ↦ (d.1.toTime, QueueKey.toText d.2.1, hexEncode d.2.2), ?_, fun e he ↦ ?_⟩
    · rw [VoteQueue.allVotesByTimestamp, hstream]
      exact Results.collect_map fun _ _ ↦ rfl
    · obtain ⟨d, -, rfl⟩ := List.mem_map.mp he
      exact ⟨d.2.1, q.ofText_toText d.2.1⟩
  pendingByTimestamp := by
    obtain ⟨es, hstream, -⟩ := h.pendingIndexStream hL q c
    refine ⟨es.map fun e ↦ (e.1.toTime, QueueKey.toText e.2.1, e.2.2), ?_, fun e he ↦ ?_⟩
    · rw [VoteQueue.allPendingByTimestamp, hstream]
      exact Results.collect_map fun _ _ ↦ rfl
    · obtain ⟨d, -, rfl⟩ := List.mem_map.mp he
      exact ⟨d.2.1, q.ofText_toText d.2.1⟩
  single := fun k ↦ ⟨_, h.pendingForKey hL q c k⟩

omit [LawfulHost] in
/-- An empty chain id is not read back. -/
theorem Represents.exists_chainId_iff (h : Represents s L) :
    (∃ id, State.chainId s = .ok id) ↔ L.chainId.id ≠ [] := by
  refine ⟨fun hread hid ↦ ?_, fun hid ↦ ⟨_, h.chainId hid⟩⟩
  obtain ⟨id, hread⟩ := hread
  rw [State.chainId, Laid.get (V := ChainId) (k := .chainId) h rfl] at hread
  change (((ChainId.ofText L.chainId.id).mapError ParseError.corrupt).map some >>= _) = _ at hread
  rw [hid] at hread
  cases hread

/-- Everything is read back, unless the chain id is empty. -/
theorem Represents.intact_iff (h : Represents s L) (hL : L.Sound) (hseated : L.Seated) :
    State.Intact s ↔ L.chainId.id ≠ [] := by
  refine ⟨fun hintact ↦ h.exists_chainId_iff.mp hintact.chainId, fun hid ↦ ?_⟩
  exact {
    config := ⟨_, h.config⟩
    chainId := h.exists_chainId_iff.mpr hid
    blockHeight := ⟨_, Laid.get_clean (k := .blockHeight) h rfl rfl fun h _ ↦ h.clean⟩
    blockTime := ⟨_, Laid.get_clean (k := .blockTime) h rfl rfl fun t _ ↦ t.clean⟩
    blockTimes := fun height ↦
      ⟨_, Laid.get_clean (k := .blocktime height) h rfl rfl fun t _ ↦ t.clean⟩
    appHashes := fun height ↦
      ⟨_, Laid.get_clean (k := .apphash height) h rfl rfl fun b _ ↦ b.clean⟩
    validators := h.activeValidators.mpr hseated
    canonical := fun d ↦ by
      obtain ⟨ds, hds, -⟩ := h.canonicalStrictSubdomains_eq (.ofDomain d)
      obtain ⟨es, hes, -⟩ := h.canonicalSubdomainsHashes (.ofDomain d)
      refine ⟨?_, es.map fun e ↦ (e.1.toDomain, e.2), by rw [List.map_map]; exact hes⟩
      change ∃ ds, State.canonicalSubdomains (PrefixOrderDomain.ofDomain d).toDomain s = .ok ds
      rw [State.canonicalSubdomains]
      simp only [hds, h.canonicalHash, except_ok_bind]
      cases L.canonical (.ofDomain d) <;> exact ⟨_, rfl⟩
    queue := h.queue_intact hL }

/-- The results of the transactions of an open block. -/
theorem Represents.answers {R : Fault → Prop} {height : Height} {now : Time}
    (hR : ∀ e, e.Caught ∧ (L.chainId.id ≠ [] → e.Rejects) → R e) :
    ∀ {txs : List Bytes} {orders : ℕ → ℕ → IterOrder} {s t : Store} {M : Ledger}
      {h : List (Moment Ledger Event)} {results : List ExecTxResult}, Represents s M →
      LedgerHistory h M → M.height = some height → M.time = some now → M.chainId = L.chainId →
      State.execTxs orders txs s = (.ok results, t) → State.Answers R orders txs s results
  | [], orders, s, t, M, h, results, _, _, _, _, _, hexec => by
    obtain ⟨hresults, -⟩ := Prod.mk.inj hexec
    obtain rfl := Except.ok.inj hresults
    exact .nil
  | txBytes :: txs, orders, s, t, M, h, results, hs, hist, hheight, htime, hid, hexec => by
    obtain ⟨r, s₁, hdeliver, hfails, h₁, M₁, -, hist₁, hs₁, hsame⟩ :=
      hs.deliverTx hist hheight htime (orders 0) txBytes
    obtain ⟨result, s₁', hone, hexec⟩ := Exec.bind_eq_ok.mp hexec
    obtain ⟨rest, s₂, hrest, hexec⟩ := Exec.bind_eq_ok.mp hexec
    obtain ⟨hresults, -⟩ := Prod.mk.inj hexec
    obtain rfl := Except.ok.inj hresults
    obtain ⟨hcode, rfl⟩ : (result.code = 0 ↔ r = .ok ()) ∧ s₁' = s₁ := by
      rw [State.execTx, hdeliver] at hone
      rcases r with ⟨m | m | m⟩ | ⟨⟩ <;> obtain ⟨hresult, rfl⟩ := Prod.mk.inj hone
      · obtain rfl := Except.ok.inj hresult
        exact ⟨⟨fun h ↦ (by cases h), fun h ↦ (by cases h)⟩, rfl⟩
      · obtain rfl := Except.ok.inj hresult
        exact ⟨⟨fun h ↦ (by cases h), fun h ↦ (by cases h)⟩, rfl⟩
      · cases hresult
      · obtain rfl := Except.ok.inj hresult
        exact ⟨⟨fun _ ↦ rfl, fun _ ↦ rfl⟩, rfl⟩
    -- the next transaction is delivered to a ledger of the same block
    have hanswers := Represents.answers hR hs₁ hist₁ (hsame.height.trans hheight)
      (hsame.time.trans htime) (hsame.chainId.trans hid) hrest
    refine .cons (by rw [hdeliver]; exact hcode) (fun e he ↦ ?_) (by rw [hdeliver]; exact hanswers)
    rw [hdeliver] at he
    exact hR e (hid ▸ hfails e he)

/-- The next block is finalized, and its transactions fail as the ledger allows. -/
theorem Represents.proceeds (hs : Represents s L) {h : List (Moment Ledger Event)}
    (hist : LedgerHistory h L) (hseated : L.Seated) {R : Fault → Prop}
    (hR : ∀ e, e.Caught ∧ (L.chainId.id ≠ [] → e.Rejects) → R e) : State.Proceeds R s := by
  intro orders request hintime
  have hmono : ∀ time, L.time = some time → time ≤ request.time := fun time hL ↦
    hintime time (by rw [hs.blockTime, hL, okOr_some])
  obtain ⟨response, t, -, -, hok, -⟩ := hs.handleFinalizeBlock hist hseated orders hmono
  obtain ⟨s₁, L₁, hbegin, hs₁, hbegins⟩ := hs.beginBlock hseated request
  have hbegun : State.begunBlock request s = s₁ := congrArg Prod.snd hbegin
  refine ⟨response, t, hok, by rw [hbegun, hs₁.blockTime, hbegins.time, okOr_some], ?_⟩
  obtain ⟨_, r, hrecord, hok⟩ := Exec.bind_eq_ok.mp hok
  obtain ⟨_, r', hfinalize, hok⟩ := Exec.bind_eq_ok.mp hok
  obtain ⟨_, s₁', hbegin', hfinalize⟩ := Exec.bind_eq_ok.mp hfinalize
  obtain ⟨results, s₂, hexec, hfinalize⟩ := Exec.bind_eq_ok.mp hfinalize
  obtain ⟨us, s₃, hend, hfinalize⟩ := Exec.bind_eq_ok.mp hfinalize
  obtain ⟨hresponse, -⟩ := Prod.mk.inj hfinalize
  obtain rfl := Except.ok.inj hresponse
  obtain ⟨_, _, hread, hok⟩ := Exec.bind_eq_ok.mp hok
  obtain ⟨hresponse, -⟩ := Prod.mk.inj hok
  obtain rfl := Except.ok.inj hresponse
  rw [Exec.bind_of_ok hrecord, hbegin'] at hbegin
  obtain rfl := (Prod.mk.inj hbegin).2
  rw [hbegun]
  exact hs₁.answers hR (hist.next (.begin hmono hbegins)) hbegins.height hbegins.time
    hbegins.chainId hexec

/-! ## Runs -/

variable {genesis : InitChain} {requests : List FinalizeBlock} {ms : List (Moment Store Event)}

/-- A run is shown by a history whose chain id and validators are those of the genesis. -/
theorem Run.exists_shown_genesis (hrun : Run genesis requests ms s) :
    ∃ h L, Shown ms s h L ∧ L.chainId = ⟨genesis.chainId⟩ ∧
      ∀ pubKey p, L.validators pubKey = some p →
        ∃ v ∈ genesis.validators, v.pubKey.toBytes = pubKey ∧ v.power = p := by
  induction hrun with
  | start hinit =>
    obtain ⟨config, validators, hs, -, hvalidators⟩ := Represents.initChain hinit
    exact ⟨[], _, ⟨.nil, .start ⟨_, _, _, rfl⟩, hs⟩, rfl, hvalidators⟩
  | block orders hrun htime hfinalize ih =>
    obtain ⟨h, L, hshown, hid, hvalidators⟩ := ih
    obtain ⟨h', L', hshown', hid', hvalidators'⟩ := hshown.block htime hfinalize
    exact ⟨h' ++ h, L', hshown', hid'.trans hid, by rwa [hvalidators']⟩

omit [LawfulHost] in
/-- Every state of a run represents a ledger with the chain id and the validators of the last. -/
theorem Shown.exists_of_visited {h : List (Moment Ledger Event)} (hshown : Shown ms s h L)
    (ht : Visited ms s t) : ∃ older M, LedgerHistory older M ∧ Represents t M ∧
      M.chainId = L.chainId ∧ M.validators = L.validators := by
  rcases ht with rfl | ⟨m, hm, ht⟩
  · exact ⟨h, L, hshown.history, hshown.represents, rfl, rfl⟩
  · obtain ⟨M, hM, hshow⟩ := hshown.exists_of_mem hm
    have hid := hshown.history.eq_of_mem (f := Ledger.chainId) (fun _ _ _ hs ↦ hs.same.1) hM
    have hvalidators := hshown.history.eq_of_mem (f := Ledger.validators)
      (fun _ _ _ hs ↦ hs.same.2) hM
    obtain ⟨newer, older, rfl⟩ := List.append_of_mem hM
    rcases ht with rfl | rfl
    · exact ⟨older, M.before, hshown.history.split.1, hshow.before, hid.1, hvalidators.1⟩
    · exact ⟨M :: older, M.after, hshown.history.upTo, hshow.after, hid.2, hvalidators.2⟩

/-- With ed25519 validators in the genesis the next block is always finalized, and none of its
transactions panics. Everything stored is read back in every state, and transactions only fail by
being rejected, exactly if the chain id of the genesis is not empty. -/
theorem Run.proceeds_and_intact_iff (hrun : Run genesis requests ms s)
    (hed : ∀ u ∈ genesis.validators, ∃ b, u.pubKey = .ed25519 b ∧
      (Host.fromRawEd25519 b).isSome) :
    State.Proceeds Fault.Caught s ∧
    ((∀ t, Visited ms s t → State.Intact t) ∧ State.Proceeds Fault.Rejects s ↔
      genesis.chainId ≠ []) := by
  obtain ⟨h, L, hshown, hid, hvalidators⟩ := hrun.exists_shown_genesis
  have hseated : L.Seated := by
    intro pubKey p hp _
    obtain ⟨v, hv, rfl, rfl⟩ := hvalidators pubKey p hp
    obtain ⟨b, hb, hsome⟩ := hed v hv
    rw [hb]
    exact hsome
  refine ⟨hshown.represents.proceeds hshown.history hseated fun e he ↦ he.1, ?_⟩
  constructor
  · rintro ⟨hintact, -⟩ hnil
    obtain ⟨id, hread⟩ := (hintact s (.inl rfl)).chainId
    exact hshown.represents.exists_chainId_iff.mp ⟨id, hread⟩ (by rw [hid, hnil])
  · intro hne
    refine ⟨fun t ht ↦ ?_, hshown.represents.proceeds hshown.history hseated fun e he ↦
      he.2 (by rwa [hid])⟩
    obtain ⟨older, M, hist, hM, hid', hvalidators'⟩ := hshown.exists_of_visited ht
    refine (hM.intact_iff (LedgerHistory.sound hist) ?_).mpr (by rwa [hid', hid])
    rwa [Ledger.Seated, hvalidators']

end Host

namespace Reference

/-- A genesis with an empty chain id. -/
def nameless : InitChain := { genesis with chainId := [] }

theorem ed25519_of_mem_genesis : ∀ u ∈ genesis.validators, ∃ b, u.pubKey = .ed25519 b ∧
    (Host.fromRawEd25519 b).isSome := by
  intro u hu
  obtain rfl := List.mem_singleton.mp hu
  exact ⟨validatorKey, rfl, by decide⟩

theorem not_intact_nameless : ¬∀ (genesis : InitChain) (requests : List FinalizeBlock)
    (ms : List (Moment Store Event)) (s : Store), Run genesis requests ms s →
      (∀ u ∈ genesis.validators, ∃ b, u.pubKey = .ed25519 b ∧ (Host.fromRawEd25519 b).isSome) →
      (∀ t, Visited ms s t → State.Intact t) ∧ State.Proceeds Fault.Rejects s := by
  intro hall
  obtain ⟨ms, s, hrun, hread⟩ := exists_run_of_any nameless listed [blockAt 1 10 [found]]
    (fun r ↦ (State.chainId r.2).toOption.isNone) (by decide +kernel)
  obtain ⟨id, hid⟩ := ((hall _ _ _ _ hrun ed25519_of_mem_genesis).1 s (.inl rfl)).chainId
  rw [hid] at hread
  cases hread

theorem proceeds_and_intact_iff_enrolling : ∃ ms s, Run genesis enrolling ms s ∧
    State.Proceeds Fault.Caught s ∧
    ((∀ t, Visited ms s t → State.Intact t) ∧ State.Proceeds Fault.Rejects s ↔
      genesis.chainId ≠ []) := by
  obtain ⟨ms, s, -, hrun⟩ := exists_run isSome_exec_enrolling
  exact ⟨ms, s, hrun, hrun.proceeds_and_intact_iff ed25519_of_mem_genesis⟩

end Reference

end Felidae
