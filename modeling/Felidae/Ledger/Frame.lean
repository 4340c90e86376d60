import Felidae.Ledger.Layout

/-!
# Which tables a computation writes

Every part of a block writes some tables of the verifiable store and leaves the others alone, in
any state and whether it succeeds or fails. In particular nothing but `set_block_height` writes
the height, and nothing but `record_app_hash` the app hashes.
-/

namespace Felidae

/-- What a store holds below the head of a table. -/
def Table.entries (τ : Table) (s : Store) : Str → Option Proto.Stored :=
  fun body ↦ s.verifiable[τ.head ++ body]?

/-- The tables of the vote queues. -/
def Table.queued : Table → Bool
  | vote _ | pending _ => true
  | _ => false

namespace Table

variable {τ τ' : Table} {substore : Substore} {key : Str} {V : Type} [DomainType V]

theorem ne_head_append (hne : τ' ≠ τ) {text : Str} (htext : τ'.head <+: text) (body : Str) :
    text ≠ τ.head ++ body := by
  rintro rfl
  exact not_prefix_of_heads (not_head_prefix_head hne) (not_head_prefix_head hne.symm) htext

theorem entries_put (hne : τ' ≠ τ) (hkey : τ'.head <+: substore.prefixed key) (v : V) (s : Store) :
    τ.entries (s.put substore key v) = τ.entries s := by
  funext body
  exact PrefixMap.getElem?_insert_of_ne (ne_head_append hne hkey body)

theorem entries_delete (hne : τ' ≠ τ) (hkey : τ'.head <+: substore.prefixed key) (s : Store) :
    τ.entries (s.delete substore key) = τ.entries s := by
  funext body
  exact PrefixMap.getElem?_erase_of_ne (ne_head_append hne hkey body)

end Table

/-- What a store holds below the head of a table of the index. -/
def IndexTable.entries (τ : IndexTable) (s : Store) : Bytes → Option Proto.Stored :=
  fun body ↦ s.nonverifiable[τ.head ++ body]?

/-- The four tables of a queue are the same in two stores. -/
structure QueueId.SameTables (q : QueueId) (s t : Store) : Prop where
  votes : (Table.vote q).entries t = (Table.vote q).entries s
  pending : (Table.pending q).entries t = (Table.pending q).entries s
  voteIndex : (IndexTable.vote q).entries t = (IndexTable.vote q).entries s
  pendingIndex : (IndexTable.pending q).entries t = (IndexTable.pending q).entries s

/-- What is read under a key of a table depends on the table only. -/
theorem Table.get_congr {τ : Table} {s t : Store} (h : τ.entries s = τ.entries t) (V : Type)
    [DomainType V] {substore : Substore} {key body : Str}
    (hkey : substore.prefixed key = τ.head ++ body) :
    Store.get V substore key s = Store.get V substore key t := by
  have hentry : s.verifiable[substore.prefixed key]? = t.verifiable[substore.prefixed key]? := by
    rw [hkey]
    exact congrFun h body
  rw [Store.get, Store.get, hentry]

/-- The computation leaves a table as it is. -/
abbrev Table.Spared {α : Type} (τ : Table) (x : Command α) : Prop := Exec.Keeps τ.entries x

open Table Exec

variable {τ : Table}

/-! ## Registers -/

theorem spared_setConfig (hτ : τ ≠ .config) (c : Config) : τ.Spared (State.setConfig c) :=
  keeps_modify (entries_put hτ.symm (List.prefix_refl _) c)

theorem spared_setBlockHeight (hτ : τ ≠ .blockHeight) (h : Height) :
    τ.Spared (State.setBlockHeight h) :=
  keeps_modify (entries_put hτ.symm (List.prefix_refl _) h)

theorem spared_setBlockTime (hτ : τ ≠ .blockTime) (hτ' : τ ≠ .blocktime) (t : Time) :
    τ.Spared (State.setBlockTime t) :=
  (keeps_modify (entries_put hτ.symm (List.prefix_refl _) t)).bind fun _ ↦
    (keeps_read _).bind fun _ ↦
      keeps_modify (entries_put hτ'.symm (List.prefix_append (Table.head .blocktime) _) t)

theorem spared_setChainId (hτ : τ ≠ .chainId) (c : ChainId) : τ.Spared (State.setChainId c) := by
  intro s
  rw [State.setChainId]
  split
  · rfl
  · exact entries_put hτ.symm (List.prefix_refl _) c s

theorem spared_declareValidator (hτ : τ ≠ .validator) (v : Update) :
    τ.Spared (State.declareValidator v) := by
  refine (keeps_read _).bind fun existing ↦ ?_
  cases existing with
  | some p => exact keeps_throw _
  | none =>
    exact keeps_modify (entries_put hτ.symm (List.prefix_append (Table.head .validator) _) v.power)

theorem spared_applyConfig (hτ : τ ≠ .config) (c : Config) : τ.Spared (State.applyConfig c) := by
  refine (keeps_read _).bind fun current ↦ ?_
  split
  · exact keeps_pure _
  · exact spared_setConfig hτ c

theorem spared_updateCanonical (hτ : τ ≠ .canonical) (d : Domain) (o : HashObserved) :
    τ.Spared (State.updateCanonical d o) := by
  cases o with
  | hash hash =>
    exact keeps_modify (entries_put hτ.symm (List.prefix_append (Table.head .canonical) _) _)
  | notFound =>
    exact keeps_modify (entries_delete hτ.symm (List.prefix_append (Table.head .canonical) _))

theorem spared_initChain [Host] (hchainId : τ ≠ .chainId) (hconfig : τ ≠ .config)
    (hvalidator : τ ≠ .validator) (genesis : InitChain) : τ.Spared (State.initChain genesis) := by
  rw [State.initChain]
  split
  · exact keeps_throw _
  · exact (spared_setChainId hchainId _).bind fun _ ↦ (keeps_read _).bind fun _ ↦
      (spared_setConfig hconfig _).bind fun _ ↦
      (keeps_forEach fun _ _ ↦ spared_declareValidator hvalidator _).bind fun _ ↦ keeps_pure _

/-! ## Queues -/

namespace QueueId

/-- The key belongs to the votes or to the pending changes of the queue. -/
def Owns (id : QueueId) (key : Str) : Prop :=
  (Table.vote id).head <+: key ∨ (Table.pending id).head <+: key

/-- The key belongs to one of the indexes of the queue. -/
def OwnsIndex (id : QueueId) (key : Bytes) : Prop :=
  (IndexTable.vote id).head <+: key ∨ (IndexTable.pending id).head <+: key

/-- What a store holds outside a queue. -/
def outside (id : QueueId) (s : Store) :
    (∀ key, ¬id.Owns key → Option Proto.Stored) ×
      (∀ key, ¬id.OwnsIndex key → Option Proto.Stored) :=
  (fun key _ ↦ s.verifiable[key]?, fun key _ ↦ s.nonverifiable[key]?)

/-- The computation changes nothing outside the queue. -/
abbrev Confines {α : Type} (id : QueueId) (x : Command α) : Prop := Keeps id.outside x

variable {id : QueueId} {substore : Substore} {V : Type} [DomainType V] {s t : Store}

theorem verifiable_of_outside_eq (h : id.outside s = id.outside t) {key : Str}
    (hkey : ¬id.Owns key) : s.verifiable[key]? = t.verifiable[key]? :=
  congrFun (congrFun (congrArg Prod.fst h) key) hkey

theorem nonverifiable_of_outside_eq (h : id.outside s = id.outside t) {key : Bytes}
    (hkey : ¬id.OwnsIndex key) : s.nonverifiable[key]? = t.nonverifiable[key]? :=
  congrFun (congrFun (congrArg Prod.snd h) key) hkey

theorem outside_put {key : Str} (hkey : id.Owns (substore.prefixed key)) (v : V) (s : Store) :
    id.outside (s.put substore key v) = id.outside s := by
  refine Prod.ext (funext fun k ↦ funext fun hk ↦ ?_) rfl
  exact PrefixMap.getElem?_insert_of_ne fun heq ↦ hk (heq ▸ hkey)

theorem outside_delete {key : Str} (hkey : id.Owns (substore.prefixed key)) (s : Store) :
    id.outside (s.delete substore key) = id.outside s := by
  refine Prod.ext (funext fun k ↦ funext fun hk ↦ ?_) rfl
  exact PrefixMap.getElem?_erase_of_ne fun heq ↦ hk (heq ▸ hkey)

theorem outside_indexPut {key : Bytes} (hkey : id.OwnsIndex (substore.prefixedBytes key)) (v : V)
    (s : Store) : id.outside (s.indexPut substore key v) = id.outside s := by
  refine Prod.ext rfl (funext fun k ↦ funext fun hk ↦ ?_)
  exact PrefixMap.getElem?_insert_of_ne fun heq ↦ hk (heq ▸ hkey)

theorem outside_indexDelete {key : Bytes} (hkey : id.OwnsIndex (substore.prefixedBytes key))
    (s : Store) : id.outside (s.indexDelete substore key) = id.outside s := by
  refine Prod.ext rfl (funext fun k ↦ funext fun hk ↦ ?_)
  exact PrefixMap.getElem?_erase_of_ne fun heq ↦ hk (heq ▸ hkey)

end QueueId

/-- The queue of the observations, under whatever config. -/
theorem base_oracleVoting {s : Store} {q : VoteQueue PrefixOrderDomain OracleVoteValue}
    (h : State.oracleVoting s = .ok q) : q.base = QueueId.oracle.base := by
  obtain ⟨c, -, hq⟩ := except_bind_eq_ok.mp h
  obtain rfl := Except.ok.inj hq
  rfl

/-- The queue of the reconfigurations, under whatever config. -/
theorem base_adminVoting {s : Store} {q : VoteQueue Empty Config}
    (h : State.adminVoting s = .ok q) : q.base = QueueId.admin.base := by
  obtain ⟨c, -, hq⟩ := except_bind_eq_ok.mp h
  obtain rfl := Except.ok.inj hq
  rfl

section Queue

open QueueId

variable {K V : Type} {q : VoteQueue K V} {id : QueueId}

/-! ### Keys of a queue -/

section Keys

variable (hq : q.base = id.base)
include hq

theorem owns_votesByKeyPartyPrefix (key party rest : Str) (exact : Bool) :
    id.Owns (Substore.internal.prefixed (q.votesByKeyPartyPrefix key party exact ++ rest)) :=
  .inl ⟨key ++ '/' :: party ++ VoteQueue.exactly exact ++ rest, by
    simp [Table.head, Substore.prefixed, VoteQueue.votesByKeyPartyPrefix, hq]⟩

theorem owns_votesByKeyPartyTimestamp [Host] (key party : Str) (time : Time) :
    id.Owns (Substore.internal.prefixed (q.votesByKeyPartyTimestamp key party time)) :=
  owns_votesByKeyPartyPrefix hq key party _ true

theorem owns_pendingByKeyTimestamp [Host] (key : Str) (time : Time) :
    id.Owns (Substore.internal.prefixed (q.pendingByKeyTimestamp key time)) :=
  .inr ⟨key ++ '/' :: Host.rfc3339 time.truncate, by
    simp [Table.head, Substore.prefixed, VoteQueue.pendingByKeyTimestamp,
      VoteQueue.pendingByKeyPrefix, VoteQueue.exactly, hq]⟩

theorem ownsIndex_indexVotesByTimestampKeyParty (key party : Str) (time : Time) :
    id.OwnsIndex (Substore.internal.prefixedBytes
      (q.indexVotesByTimestampKeyParty time key party)) :=
  .inl ⟨i64ToBeBytes time.unixTimestamp ++ toUtf8 ('/' :: key) ++ toUtf8 ('/' :: party), by
    simp [IndexTable.head, Substore.prefixedBytes, VoteQueue.indexVotesByTimestampKeyParty, hq]⟩

theorem ownsIndex_indexPendingByTimestampKey (key : Str) (time : Time) :
    id.OwnsIndex (Substore.internal.prefixedBytes (q.indexPendingByTimestampKey time key)) :=
  .inr ⟨i64ToBeBytes time.unixTimestamp ++ toUtf8 ('/' :: key), by
    simp [IndexTable.head, Substore.prefixedBytes, VoteQueue.indexPendingByTimestampKey, hq]⟩

/-- The keys of the votes by a party are keys of votes. -/
theorem owns_of_mem_votesByParty [DomainType V] {key party : Str} {s : Store} {keys : List Str}
    (h : q.votesByParty key party s = .ok keys) {k : Str} (hk : k ∈ keys) :
    id.Owns (Substore.internal.prefixed k) := by
  obtain ⟨r, hr, hrk⟩ := exists_of_mem_collect h k hk
  obtain ⟨x, hx, rfl⟩ := List.mem_map.mp hr
  obtain ⟨e, he, rfl⟩ := List.mem_map.mp hx
  obtain ⟨e', he', hkey⟩ := except_bind_eq_ok.mp hrk
  obtain ⟨v, -, hkey'⟩ := except_bind_eq_ok.mp he'
  split at hkey'
  · cases hkey'
  next k' hunprefix =>
    obtain rfl := Except.ok.inj hkey'
    obtain rfl := Except.ok.inj hkey
    rw [← Substore.eq_prefixed_of_unprefix hunprefix]
    have hprefix := owns_votesByKeyPartyPrefix hq key party [] true
    rw [List.append_nil] at hprefix
    have htext := (PrefixMap.mem_scan.mp he).2
    exact hprefix.imp (fun h ↦ h.trans htext) fun h ↦ h.trans htext

end Keys

/-! ### Operations of a queue -/

variable [Host]

theorem confines_deleteVote (hq : q.base = id.base) (key party : Str) (time : Time) :
    id.Confines (Exec.modify (q.deleteVote key party time)) :=
  keeps_modify fun s ↦
    (outside_indexDelete (ownsIndex_indexVotesByTimestampKeyParty hq key party time) _).trans
      (outside_delete (owns_votesByKeyPartyTimestamp hq key party time) s)

theorem confines_deletePending (hq : q.base = id.base) (key : Str) (time : Time) :
    id.Confines (Exec.modify (q.deletePending key time)) :=
  keeps_modify fun s ↦
    (outside_indexDelete (ownsIndex_indexPendingByTimestampKey hq key time) _).trans
      (outside_delete (owns_pendingByKeyTimestamp hq key time) s)

theorem confines_timeoutExpiredVotes (hq : q.base = id.base) :
    id.Confines q.timeoutExpiredVotes :=
  (keeps_read _).bind fun _ ↦ (keeps_read _).bind fun _ ↦
    keeps_forEach fun _ _ ↦ confines_deleteVote hq _ _ _

variable [DomainType V]

theorem confines_promotePendingChanges [QueueKey K] (hq : q.base = id.base) :
    id.Confines q.promotePendingChanges :=
  (keeps_read _).bind fun _ ↦ (keeps_read _).bind fun _ ↦
    keeps_mapEach fun _ _ ↦ (confines_deletePending hq _ _).bind fun _ ↦
      (keeps_read _).bind fun _ ↦ keeps_pure _

theorem confines_replaceVote (hq : q.base = id.base) (key party : Str) (time : Time) (value : V) :
    id.Confines (q.replaceVote key party time value) :=
  keeps_read_bind fun _ _ hkeys ↦
    (keeps_forEach fun _ hk ↦ keeps_modify
      (outside_delete (owns_of_mem_votesByParty hq hkeys hk))).bind fun _ ↦
    (keeps_modify (outside_put (owns_votesByKeyPartyTimestamp hq key party time) value)).bind
      fun _ ↦ keeps_modify
        (outside_indexPut (ownsIndex_indexVotesByTimestampKeyParty hq key party time) value)

variable [DecidableEq V]

theorem confines_enqueue (hq : q.base = id.base) (key : Str) (time : Time) (value : V) :
    id.Confines (q.enqueue key time value) := by
  refine (keeps_read _).bind fun pending ↦ ?_
  split
  · exact keeps_pure _
  · refine Keeps.bind (keeps_forEach fun _ _ ↦ confines_deletePending hq _ _) fun _ ↦
      (keeps_read _).bind fun within ↦ ?_
    split
    · exact Keeps.bind (keeps_modify (outside_put (owns_pendingByKeyTimestamp hq key time) value))
        fun _ ↦ keeps_modify
          (outside_indexPut (ownsIndex_indexPendingByTimestampKey hq key time) value)
    · exact keeps_pure _

theorem confines_cast [QueueKey K] (hq : q.base = id.base) (order : IterOrder) (vote : Vote K V) :
    id.Confines (q.cast order vote) := by
  refine (confines_replaceVote hq _ _ _ _).bind fun _ ↦ (keeps_read _).bind fun votes ↦ ?_
  split
  · exact keeps_pure _
  · exact (keeps_forEach fun _ _ ↦ confines_deleteVote hq _ _ _).bind fun _ ↦
      confines_enqueue hq _ _ _

end Queue

/-! ### What is outside a queue -/

/-- No other table has a key of the queue. -/
theorem QueueId.not_owns {id : QueueId} (hvote : τ ≠ .vote id) (hpending : τ ≠ .pending id)
    (body : Str) : ¬id.Owns (τ.head ++ body) := by
  rintro (h | h)
  · exact ne_head_append hvote.symm h body rfl
  · exact ne_head_append hpending.symm h body rfl

/-- A computation on a queue spares the tables outside it. -/
theorem QueueId.Confines.spared {α : Type} {id : QueueId} {x : Command α} (hx : id.Confines x)
    (hvote : τ ≠ .vote id) (hpending : τ ≠ .pending id) : τ.Spared x := fun s ↦
  funext fun body ↦ verifiable_of_outside_eq (hx s) (not_owns hvote hpending body)

theorem QueueId.not_ownsIndex {id : QueueId} {τ : IndexTable} (hvote : τ ≠ .vote id)
    (hpending : τ ≠ .pending id) (body : Bytes) : ¬id.OwnsIndex (τ.head ++ body) := by
  rintro (h | h)
  · exact not_prefix_of_heads (IndexTable.not_head_prefix_head hvote.symm)
      (IndexTable.not_head_prefix_head hvote) h
  · exact not_prefix_of_heads (IndexTable.not_head_prefix_head hpending.symm)
      (IndexTable.not_head_prefix_head hpending) h

/-- A computation on a queue leaves the other one as it is. -/
theorem QueueId.Confines.sameTables {α : Type} {id id' : QueueId} {x : Command α}
    (hx : id.Confines x) (hne : id' ≠ id) (s : Store) : id'.SameTables s (x s).2 where
  votes := hx.spared (by simpa) (by simp) s
  pending := hx.spared (by simp) (by simpa) s
  voteIndex := funext fun body ↦
    nonverifiable_of_outside_eq (hx s) (not_ownsIndex (by simpa) (by simp) body)
  pendingIndex := funext fun body ↦
    nonverifiable_of_outside_eq (hx s) (not_ownsIndex (by simp) (by simpa) body)

theorem Table.ne_vote (hτ : τ.queued = false) (id : QueueId) : τ ≠ .vote id := by
  rintro rfl
  cases hτ

theorem Table.ne_pending (hτ : τ.queued = false) (id : QueueId) : τ ≠ .pending id := by
  rintro rfl
  cases hτ

section Queue

variable [Host] {K V : Type} {q : VoteQueue K V} {id : QueueId}

theorem spared_timeoutExpiredVotes (hτ : τ.queued = false) (hq : q.base = id.base) :
    τ.Spared q.timeoutExpiredVotes :=
  (confines_timeoutExpiredVotes hq).spared (ne_vote hτ id) (ne_pending hτ id)

variable [DomainType V] [QueueKey K]

theorem spared_promotePendingChanges (hτ : τ.queued = false) (hq : q.base = id.base) :
    τ.Spared q.promotePendingChanges :=
  (confines_promotePendingChanges hq).spared (ne_vote hτ id) (ne_pending hτ id)

end Queue

/-! ## Transactions -/

section Blocks

variable [Host]

/-- An action works on one queue. -/
theorem confines_applyAction (order : IterOrder) (action : Action) :
    action.queue.Confines (State.applyAction order action) := by
  cases action with
  | observe o =>
    exact (keeps_read _).bind fun _ ↦ (keeps_read _).bind fun _ ↦ (keeps_read _).bind fun _ ↦
      keeps_read_bind fun _ _ hq ↦ confines_cast (base_oracleVoting hq) _ _
  | reconfigure r =>
    exact (keeps_read _).bind fun _ ↦ (keeps_read _).bind fun _ ↦
      keeps_read_bind fun _ _ hq ↦ confines_cast (base_adminVoting hq) _ _

theorem spared_applyAction (hτ : τ.queued = false) (order : IterOrder) (action : Action) :
    τ.Spared (State.applyAction order action) :=
  (confines_applyAction order action).spared (ne_vote hτ _) (ne_pending hτ _)

/-- What every action keeps, a transaction keeps. -/
theorem keeps_deliverTx {β : Type*} {f : Store → β} (orders : ℕ → IterOrder) (txBytes : Bytes)
    (h : ∀ tx, AuthenticatedTx.fromProto txBytes = .ok tx → ∀ action ∈ tx.tx.actions, ∀ order,
      Keeps f (State.applyAction order action)) :
    Keeps f (State.deliverTx orders txBytes) := by
  have hactions : ∀ (actions : List Action) (orders : ℕ → IterOrder),
      (∀ action ∈ actions, ∀ order, Keeps f (State.applyAction order action)) →
        Keeps f (State.applyActions orders actions) := by
    intro actions
    induction actions with
    | nil => exact fun _ _ ↦ keeps_pure _
    | cons action actions ih =>
      exact fun orders h ↦ (h action List.mem_cons_self _).bind fun _ ↦
        ih _ fun a ha ↦ h a (List.mem_cons_of_mem _ ha)
  refine keeps_read_bind fun _ tx htx ↦ (keeps_read _).bind fun _ ↦ hactions _ _ (h tx ?_)
  rcases hp : AuthenticatedTx.fromProto txBytes with e | tx'
  · rw [hp] at htx
    cases htx
  · rw [hp] at htx
    rw [Except.ok.inj htx]

theorem spared_deliverTx (hτ : τ.queued = false) (orders : ℕ → IterOrder) (txBytes : Bytes) :
    τ.Spared (State.deliverTx orders txBytes) :=
  keeps_deliverTx orders txBytes fun _ _ action _ order ↦ spared_applyAction hτ order action

theorem spared_execTx (hτ : τ.queued = false) (orders : ℕ → IterOrder) (txBytes : Bytes) :
    τ.Spared (State.execTx orders txBytes) := by
  intro s
  have h := spared_deliverTx hτ orders txBytes s
  rw [State.execTx]
  split
  all_goals
    next hdeliver =>
      rw [hdeliver] at h
      exact h

theorem spared_execTxs (hτ : τ.queued = false) :
    ∀ (txs : List Bytes) (orders : ℕ → ℕ → IterOrder), τ.Spared (State.execTxs orders txs)
  | [], _ => keeps_pure _
  | txBytes :: txs, _ => (spared_execTx hτ _ txBytes).bind fun _ ↦
      (spared_execTxs hτ txs _).bind fun _ ↦ keeps_pure _

/-! ## Blocks -/

theorem spared_markValidatorsVoted (addresses : List Bytes) :
    τ.Spared (State.markValidatorsVoted addresses) :=
  (keeps_read _).bind fun _ ↦ keeps_pure _

theorem spared_tombstoneValidator (address : Bytes) :
    τ.Spared (State.tombstoneValidator address) := by
  refine (keeps_read _).bind fun active ↦ ?_
  split <;> exact keeps_pure _

/-- The part of `beginBlock` after height and time are set. -/
theorem spared_timeoutBoth (hτ : τ.queued = false) :
    τ.Spared (Exec.read State.adminVoting >>= fun queue ↦
      queue.timeoutExpiredVotes >>= fun _ ↦ Exec.read State.oracleVoting >>= fun queue ↦
      queue.timeoutExpiredVotes) :=
  keeps_read_bind fun _ _ hq ↦
    (spared_timeoutExpiredVotes hτ (base_adminVoting hq)).bind fun _ ↦
  keeps_read_bind fun _ _ hq ↦ spared_timeoutExpiredVotes hτ (base_oracleVoting hq)

/-- The part of `beginBlock` after the height is set. -/
theorem spared_expireVotes (hτ : τ.queued = false) (htime : τ ≠ .blockTime)
    (htimes : τ ≠ .blocktime) (time : Time) :
    τ.Spared (State.setBlockTime time >>= fun _ ↦ Exec.read State.adminVoting >>= fun queue ↦
      queue.timeoutExpiredVotes >>= fun _ ↦ Exec.read State.oracleVoting >>= fun queue ↦
      queue.timeoutExpiredVotes) :=
  (spared_setBlockTime htime htimes _).bind fun _ ↦ spared_timeoutBoth hτ

theorem spared_beginBlock (hτ : τ.queued = false) (hheight : τ ≠ .blockHeight)
    (htime : τ ≠ .blockTime) (htimes : τ ≠ .blocktime) (request : FinalizeBlock) :
    τ.Spared (State.beginBlock request) :=
  (spared_markValidatorsVoted _).bind fun _ ↦
    (keeps_forEach fun _ _ ↦ spared_tombstoneValidator _).bind fun _ ↦
    (spared_setBlockHeight hheight _).bind fun _ ↦ spared_expireVotes hτ htime htimes _

/-- The part of `endBlock` after the configs are put in force. -/
theorem spared_promoteObservations (hτ : τ.queued = false) (hcanonical : τ ≠ .canonical) :
    τ.Spared (Exec.read State.oracleVoting >>= fun queue ↦ queue.promotePendingChanges >>=
      fun observations ↦ Exec.forEach (fun e ↦
        State.updateCanonical e.1.toDomain e.2.hashObserved) observations >>=
      fun _ ↦ Exec.read State.activeValidators) :=
  keeps_read_bind fun _ _ hq ↦
    (spared_promotePendingChanges hτ (base_oracleVoting hq)).bind fun _ ↦
    (keeps_forEach fun _ _ ↦ spared_updateCanonical hcanonical _ _).bind fun _ ↦ keeps_read _

theorem spared_endBlock (hτ : τ.queued = false) (hconfig : τ ≠ .config)
    (hcanonical : τ ≠ .canonical) : τ.Spared State.endBlock :=
  keeps_read_bind fun _ _ hq ↦
    (spared_promotePendingChanges hτ (base_adminVoting hq)).bind fun _ ↦
    (keeps_forEach fun _ _ ↦ spared_applyConfig hconfig _).bind fun _ ↦
    spared_promoteObservations hτ hcanonical

theorem spared_recordPrevious (hτ : τ ≠ .apphash) : τ.Spared State.recordPrevious := by
  have hrecord : ∀ appHash, τ.Spared (State.recordAppHash appHash) := fun appHash ↦ by
    refine (keeps_read _).bind fun height ↦ ?_
    split
    · exact keeps_throw _
    · exact (keeps_read _).bind fun _ ↦
        keeps_modify (entries_put hτ.symm (List.prefix_append (Table.head .apphash) _) appHash)
  intro s
  rw [State.recordPrevious]
  split
  · rfl
  · split
    · rfl
    · exact hrecord _ s

end Blocks

end Felidae
