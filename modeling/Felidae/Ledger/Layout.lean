import Felidae.State.Abci

/-!
# The layout of the store

Every key the chain writes, as a value instead of a string. The verifiable store is a disjoint
union of tables, each below a literal head that is no prefix of another head, and within a table
the text of a key determines the key. What is known about strings is collected here: later files
see the store as a partial function of `Key` and `IndexKey`.
-/

namespace Felidae

/-! ## The two queues -/

inductive QueueId where
  | admin
  | oracle
  deriving DecidableEq

namespace QueueId

abbrev Key : QueueId → Type
  | admin => Empty
  | oracle => PrefixOrderDomain

abbrev Value : QueueId → Type
  | admin => Config
  | oracle => OracleVoteValue

instance : ∀ q : QueueId, DecidableEq q.Key
  | admin => inferInstanceAs (DecidableEq Empty)
  | oracle => inferInstanceAs (DecidableEq PrefixOrderDomain)

instance : ∀ q : QueueId, DecidableEq q.Value
  | admin => inferInstanceAs (DecidableEq Config)
  | oracle => inferInstanceAs (DecidableEq OracleVoteValue)

instance [Host] : ∀ q : QueueId, QueueKey q.Key
  | admin => inferInstanceAs (QueueKey Empty)
  | oracle => inferInstanceAs (QueueKey PrefixOrderDomain)

instance [Host] : ∀ q : QueueId, DomainType q.Value
  | admin => inferInstanceAs (DomainType Config)
  | oracle => inferInstanceAs (DomainType OracleVoteValue)

/-- The prefix without its slash. -/
def base : QueueId → Str
  | admin => "admin_voting".toList
  | oracle => "oracle_voting".toList

/-- The voting parameters of the queue. -/
def voting : QueueId → Config → VotingConfig
  | admin, c => c.admins.voting
  | oracle, c => c.oracles.voting

/-- The queue under a config. -/
def queue (q : QueueId) (c : Config) : VoteQueue q.Key q.Value :=
  ⟨q.base ++ ['/'], q.voting c⟩

@[simp] theorem base_queue (q : QueueId) (c : Config) : (q.queue c).base = q.base := by
  cases q <;> rfl

theorem slash_notMem_toText [Host] (q : QueueId) (k : q.Key) : '/' ∉ QueueKey.toText k := by
  cases q with
  | admin => exact List.not_mem_nil
  | oracle => exact PrefixOrderDomain.slash_notMem_display k

theorem ofText_toText [Host] [LawfulHost] (q : QueueId) (k : q.Key) :
    QueueKey.ofText (QueueKey.toText k) = .ok k := by
  cases q with
  | admin => cases k; rfl
  | oracle =>
    change PrefixOrderDomain.ofText (PrefixOrderDomain.display k) = _
    rw [PrefixOrderDomain.ofText, PrefixOrderDomain.fromStr_display]

theorem toText_injective [Host] [LawfulHost] (q : QueueId) :
    Function.Injective (QueueKey.toText : q.Key → Str) := fun k k' h ↦ by
  simpa [ofText_toText] using congrArg (QueueKey.ofText (K := q.Key)) h

end QueueId

/-- The queue an action votes in. -/
def Action.queue : Action → QueueId
  | .observe _ => .oracle
  | .reconfigure _ => .admin

/-! ## Keys of the verifiable store -/

theorem State.padHeight_injective : Function.Injective padHeight := by
  intro a b h
  have ha := a.le
  have hb := b.le
  exact Height.ext (decimal_injOn (by omega) (by omega) h)

/-- The tables of the verifiable store. -/
inductive Table where
  | config
  | chainId
  | blockHeight
  | blockTime
  | blocktime
  | apphash
  | validator
  | vote (q : QueueId)
  | pending (q : QueueId)
  | canonical
  deriving DecidableEq

/-- What the keys of a table start with. -/
def Table.head : Table → Str
  | config => Substore.internal.prefixed "parameters/config".toList
  | chainId => Substore.internal.prefixed "parameters/chain_id".toList
  | blockHeight => Substore.internal.prefixed "current/block_height".toList
  | blockTime => Substore.internal.prefixed "current/block_time".toList
  | blocktime => Substore.internal.prefixed "blocktime/".toList
  | apphash => Substore.internal.prefixed "apphash/".toList
  | validator => Substore.internal.prefixed "current/validators/".toList
  | vote q => Substore.internal.prefixed (q.base ++ "/votes_by_key/".toList)
  | pending q => Substore.internal.prefixed (q.base ++ "/pending_by_key/".toList)
  | canonical => Substore.canonical.prefixed []

namespace Table

def all : List Table :=
  [config, chainId, blockHeight, blockTime, blocktime, apphash, validator, vote .admin,
    vote .oracle, pending .admin, pending .oracle, canonical]

theorem mem_all (τ : Table) : τ ∈ all := by
  cases τ with
  | vote q | pending q => cases q <;> decide
  | _ => decide

theorem not_head_prefix_head {τ τ' : Table} (h : τ ≠ τ') : ¬τ.head <+: τ'.head := by
  have hall : ∀ τ ∈ all, ∀ τ' ∈ all, τ ≠ τ' → ¬τ.head <+: τ'.head := by decide
  exact hall τ τ.mem_all τ' τ'.mem_all h

end Table

/-- A key of the verifiable store. -/
inductive Key where
  | config
  | chainId
  | blockHeight
  | blockTime
  | blocktime (h : Height)
  | apphash (h : Height)
  | validator (pubKey : Bytes)
  | vote (q : QueueId) (k : q.Key) (party : Bytes) (t : Second)
  | pending (q : QueueId) (k : q.Key) (t : Second)
  | canonical (d : PrefixOrderDomain)

namespace Key

def table : Key → Table
  | config => .config
  | chainId => .chainId
  | blockHeight => .blockHeight
  | blockTime => .blockTime
  | blocktime _ => .blocktime
  | apphash _ => .apphash
  | validator _ => .validator
  | vote q _ _ _ => .vote q
  | pending q _ _ => .pending q
  | canonical _ => .canonical

variable [Host]

/-- The text of a key after the head of its table. -/
def body : Key → Str
  | config | chainId | blockHeight | blockTime => []
  | blocktime h | apphash h => State.padHeight h
  | validator pubKey => hexEncode pubKey
  | vote _ k party t =>
    QueueKey.toText k ++ '/' :: (hexEncode party ++ '/' :: Host.rfc3339 t.toTime)
  | pending _ k t => QueueKey.toText k ++ '/' :: Host.rfc3339 t.toTime
  | canonical d => d.display

/-- The text of a key. -/
def text (k : Key) : Str := k.table.head ++ k.body

theorem head_prefix_text_iff {τ : Table} {k : Key} : τ.head <+: k.text ↔ k.table = τ := by
  constructor
  · intro h
    by_contra hne
    exact not_prefix_of_heads (Table.not_head_prefix_head (Ne.symm hne))
      (Table.not_head_prefix_head hne) h
  · rintro rfl
    exact List.prefix_append _ _

section

variable [LawfulHost]

theorem rfc3339_injective {t t' : Second} (h : Host.rfc3339 t.toTime = Host.rfc3339 t'.toTime) :
    t = t' := by
  have := congrArg Host.parseRfc3339 h
  rw [LawfulHost.parseRfc3339_rfc3339, LawfulHost.parseRfc3339_rfc3339, Option.some_inj] at this
  exact Second.toTime_injective this

/-- The text of a key determines it. -/
theorem text_injective : Function.Injective Key.text := by
  intro k k' h
  have htable : k'.table = k.table := head_prefix_text_iff.mp (h ▸ List.prefix_append _ _)
  have hbody : k.body = k'.body := by
    rw [text, text, htable] at h
    exact List.append_cancel_left h
  cases k with
  | config | chainId | blockHeight | blockTime => cases k' <;> first | rfl | cases htable
  | blocktime h =>
    cases k' with
    | blocktime h' => rw [State.padHeight_injective hbody]
    | _ => cases htable
  | apphash h =>
    cases k' with
    | apphash h' => rw [State.padHeight_injective hbody]
    | _ => cases htable
  | validator pk =>
    cases k' with
    | validator pk' => rw [hexEncode_injective hbody]
    | _ => cases htable
  | vote q k p t =>
    cases k' with
    | vote q' k' p' t' =>
      cases htable
      obtain ⟨hk, hrest⟩ :=
        (append_cons_inj_of_notMem (q.slash_notMem_toText k) (q.slash_notMem_toText k')).mp hbody
      obtain ⟨hp, ht⟩ := (append_cons_inj_of_notMem (slash_notMem_hexEncode p)
        (slash_notMem_hexEncode p')).mp hrest
      rw [q.toText_injective hk, hexEncode_injective hp, rfc3339_injective ht]
    | _ => cases htable
  | pending q k t =>
    cases k' with
    | pending q' k' t' =>
      cases htable
      obtain ⟨hk, ht⟩ :=
        (append_cons_inj_of_notMem (q.slash_notMem_toText k) (q.slash_notMem_toText k')).mp hbody
      rw [q.toText_injective hk, rfc3339_injective ht]
    | _ => cases htable
  | canonical d =>
    cases k' with
    | canonical d' => rw [PrefixOrderDomain.display_injective hbody]
    | _ => cases htable

end

end Key

/-! ## Keys of the index -/

/-- The tables of the non-verifiable store. -/
inductive IndexTable where
  | vote (q : QueueId)
  | pending (q : QueueId)
  deriving DecidableEq

namespace IndexTable

/-- What the keys of a table start with. -/
def head : IndexTable → Bytes
  | vote q => Substore.internal.prefixedBytes (toUtf8 (q.base ++ "/votes_by_timestamp/".toList))
  | pending q => Substore.internal.prefixedBytes (toUtf8 (q.base ++
    "/pending_by_timestamp/".toList))

def all : List IndexTable := [vote .admin, vote .oracle, pending .admin, pending .oracle]

theorem mem_all (τ : IndexTable) : τ ∈ all := by
  cases τ with
  | vote q | pending q => cases q <;> decide

theorem not_head_prefix_head {τ τ' : IndexTable} (h : τ ≠ τ') : ¬τ.head <+: τ'.head := by
  have hall : ∀ τ ∈ all, ∀ τ' ∈ all, τ ≠ τ' → ¬τ.head <+: τ'.head := by decide
  exact hall τ τ.mem_all τ' τ'.mem_all h

end IndexTable

/-- A key of the non-verifiable store. -/
inductive IndexKey where
  | vote (q : QueueId) (t : Second) (k : q.Key) (party : Bytes)
  | pending (q : QueueId) (t : Second) (k : q.Key)

namespace IndexKey

def table : IndexKey → IndexTable
  | vote q _ _ _ => .vote q
  | pending q _ _ => .pending q

/-- The second an entry was made in. -/
def second : IndexKey → Second
  | vote _ t _ _ => t
  | pending _ t _ => t

variable [Host]

/-- The segments after the second. -/
def rest : IndexKey → Str
  | vote _ _ k party => '/' :: (QueueKey.toText k ++ '/' :: hexEncode party)
  | pending _ _ k => '/' :: QueueKey.toText k

/-- The bytes of a key after the head of its table. -/
def body (k : IndexKey) : Bytes := i64ToBeBytes k.second.secs ++ toUtf8 k.rest

/-- The bytes of a key. -/
def bytes (k : IndexKey) : Bytes := k.table.head ++ k.body

theorem head_prefix_bytes_iff {τ : IndexTable} {k : IndexKey} :
    τ.head <+: k.bytes ↔ k.table = τ := by
  constructor
  · intro h
    by_contra hne
    exact not_prefix_of_heads (IndexTable.not_head_prefix_head (Ne.symm hne))
      (IndexTable.not_head_prefix_head hne) h
  · rintro rfl
    exact List.prefix_append _ _

/-- The bytes of a key determine it. -/
theorem bytes_injective [LawfulHost] : Function.Injective IndexKey.bytes := by
  intro k k' h
  have htable : k'.table = k.table := head_prefix_bytes_iff.mp (h ▸ List.prefix_append _ _)
  have hbody : k.body = k'.body := by
    rw [bytes, bytes, htable] at h
    exact List.append_cancel_left h
  obtain ⟨hsecs, hrest⟩ := List.append_inj hbody (by simp)
  have ht : k.second = k'.second := Second.secs_injective hsecs
  have hrest : k.rest = k'.rest := toUtf8_injective hrest
  cases k with
  | vote q t k p =>
    cases k' with
    | vote q' t' k' p' =>
      cases htable
      obtain ⟨hk, hp⟩ := (append_cons_inj_of_notMem (q.slash_notMem_toText k)
        (q.slash_notMem_toText k')).mp (List.cons.inj hrest).2
      rw [q.toText_injective hk, hexEncode_injective hp, show t = t' from ht]
    | pending => cases htable
  | pending q t k =>
    cases k' with
    | vote => cases htable
    | pending q' t' k' =>
      cases htable
      rw [q.toText_injective (List.cons.inj hrest).2, show t = t' from ht]

end IndexKey

/-! ## What the code's key builders build -/

section Builders

variable [Host] (q : QueueId) (c : Config)

theorem votesByKeyPartyTimestamp_eq (k : q.Key) (party : Bytes) (time : Time) :
    Substore.internal.prefixed ((q.queue c).votesByKeyPartyTimestamp (QueueKey.toText k)
      (hexEncode party) time) = (Key.vote q k party time.second).text := by
  simp [VoteQueue.votesByKeyPartyTimestamp, VoteQueue.votesByKeyPartyPrefix, VoteQueue.exactly,
    Key.text, Key.table, Key.body, Table.head, Substore.prefixed]

theorem pendingByKeyTimestamp_eq (k : q.Key) (time : Time) :
    Substore.internal.prefixed ((q.queue c).pendingByKeyTimestamp (QueueKey.toText k) time)
      = (Key.pending q k time.second).text := by
  simp [VoteQueue.pendingByKeyTimestamp, VoteQueue.pendingByKeyPrefix, VoteQueue.exactly,
    Key.text, Key.table, Key.body, Table.head, Substore.prefixed]

theorem indexVotesByTimestampKeyParty_eq (k : q.Key) (party : Bytes) (time : Time) :
    Substore.internal.prefixedBytes ((q.queue c).indexVotesByTimestampKeyParty time
      (QueueKey.toText k) (hexEncode party)) = (IndexKey.vote q time.second k party).bytes := by
  simp [VoteQueue.indexVotesByTimestampKeyParty, IndexKey.bytes, IndexKey.table, IndexKey.body,
    IndexTable.head, Substore.prefixedBytes, IndexKey.rest, IndexKey.second, Time.second,
    toUtf8_cons, toUtf8_append]

theorem indexPendingByTimestampKey_eq (k : q.Key) (time : Time) :
    Substore.internal.prefixedBytes ((q.queue c).indexPendingByTimestampKey time
      (QueueKey.toText k)) = (IndexKey.pending q time.second k).bytes := by
  simp [VoteQueue.indexPendingByTimestampKey, IndexKey.bytes, IndexKey.table, IndexKey.body,
    IndexTable.head, Substore.prefixedBytes, IndexKey.rest, IndexKey.second, Time.second,
    toUtf8_cons]

end Builders

/-! ## What the code's scans meet -/

theorem Key.head_append_prefix_text_iff [Host] {τ : Table} {p : Str} {x : Key} :
    τ.head ++ p <+: x.text ↔ x.table = τ ∧ p <+: x.body := by
  constructor
  · intro h
    obtain rfl := head_prefix_text_iff.mp ((List.prefix_append _ _).trans h)
    exact ⟨rfl, (List.prefix_append_right_inj _).mp h⟩
  · rintro ⟨rfl, h⟩
    exact (List.prefix_append_right_inj _).mpr h

section Scans

variable [Host] (q : QueueId) (c : Config) {x : Key}

/-- A scan that does not end its key with a slash meets every key that starts with it. -/
theorem pendingByKeyPrefix_inexact_prefix_iff {key : Str} (hkey : '/' ∉ key) :
    Substore.internal.prefixed ((q.queue c).pendingByKeyPrefix key false) <+: x.text
      ↔ ∃ k t, x = .pending q k t ∧ key <+: QueueKey.toText k := by
  have hpre : Substore.internal.prefixed ((q.queue c).pendingByKeyPrefix key false)
      = (Table.pending q).head ++ key := by
    simp [VoteQueue.pendingByKeyPrefix, VoteQueue.exactly, Table.head, Substore.prefixed]
  rw [hpre, Key.head_append_prefix_text_iff]
  constructor
  · rintro ⟨htable, hbody⟩
    cases x with
    | pending q' k t =>
      cases htable
      exact ⟨k, t, rfl, (prefix_append_cons_iff_of_notMem hkey).mp hbody⟩
    | _ => cases htable
  · rintro ⟨k, t, rfl, hk⟩
    exact ⟨rfl, hk.trans (List.prefix_append _ _)⟩

theorem votesByKeyPrefix_inexact_prefix_iff {key : Str} (hkey : '/' ∉ key) :
    Substore.internal.prefixed ((q.queue c).votesByKeyPrefix key false) <+: x.text
      ↔ ∃ k party t, x = .vote q k party t ∧ key <+: QueueKey.toText k := by
  have hpre : Substore.internal.prefixed ((q.queue c).votesByKeyPrefix key false)
      = (Table.vote q).head ++ key := by
    simp [VoteQueue.votesByKeyPrefix, VoteQueue.exactly, Table.head, Substore.prefixed]
  rw [hpre, Key.head_append_prefix_text_iff]
  constructor
  · rintro ⟨htable, hbody⟩
    cases x with
    | vote q' k party t =>
      cases htable
      exact ⟨k, party, t, rfl, (prefix_append_cons_iff_of_notMem hkey).mp hbody⟩
    | _ => cases htable
  · rintro ⟨k, party, t, rfl, hk⟩
    exact ⟨rfl, hk.trans (List.prefix_append _ _)⟩

theorem canonical_prefix_iff {key : Str} :
    Substore.canonical.prefixed key <+: x.text ↔ ∃ d, x = .canonical d ∧ key <+: d.display := by
  have hpre : Substore.canonical.prefixed key = Table.canonical.head ++ key := by
    simp [Table.head, Substore.prefixed]
  rw [hpre, Key.head_append_prefix_text_iff]
  constructor
  · rintro ⟨htable, hbody⟩
    cases x with
    | canonical d => exact ⟨d, rfl, hbody⟩
    | _ => cases htable
  · rintro ⟨d, rfl, hd⟩
    exact ⟨rfl, hd⟩

theorem validators_prefix_iff :
    Substore.internal.prefixed "current/validators/".toList <+: x.text
      ↔ ∃ pubKey, x = .validator pubKey := by
  have hpre : Substore.internal.prefixed "current/validators/".toList = Table.validator.head := rfl
  rw [hpre, Key.head_prefix_text_iff]
  constructor
  · intro htable
    cases x with
    | validator pubKey => exact ⟨pubKey, rfl⟩
    | _ => cases htable
  · rintro ⟨pubKey, rfl⟩
    rfl

theorem votesByTimestampAllPrefix_prefix_iff {x : IndexKey} :
    Substore.internal.prefixedBytes (q.queue c).votesByTimestampAllPrefix <+: x.bytes
      ↔ ∃ t k party, x = .vote q t k party := by
  have hpre : Substore.internal.prefixedBytes (q.queue c).votesByTimestampAllPrefix
      = (IndexTable.vote q).head := by
    simp [VoteQueue.votesByTimestampAllPrefix, IndexTable.head]
  rw [hpre, IndexKey.head_prefix_bytes_iff]
  constructor
  · intro htable
    cases x with
    | vote q' t k party =>
      cases htable
      exact ⟨t, k, party, rfl⟩
    | pending => cases htable
  · rintro ⟨t, k, party, rfl⟩
    rfl

theorem indexPendingByTimestampAllPrefix_prefix_iff {x : IndexKey} :
    Substore.internal.prefixedBytes (q.queue c).indexPendingByTimestampAllPrefix <+: x.bytes
      ↔ ∃ t k, x = .pending q t k := by
  have hpre : Substore.internal.prefixedBytes (q.queue c).indexPendingByTimestampAllPrefix
      = (IndexTable.pending q).head := by
    simp [VoteQueue.indexPendingByTimestampAllPrefix, IndexTable.head]
  rw [hpre, IndexKey.head_prefix_bytes_iff]
  constructor
  · intro htable
    cases x with
    | vote => cases htable
    | pending q' t k =>
      cases htable
      exact ⟨t, k, rfl⟩
  · rintro ⟨t, k, rfl⟩
    rfl

variable [LawfulHost]

theorem votesByKeyPrefix_prefix_iff (k : q.Key) :
    Substore.internal.prefixed ((q.queue c).votesByKeyPrefix (QueueKey.toText k) true) <+: x.text
      ↔ ∃ party t, x = .vote q k party t := by
  have hpre : Substore.internal.prefixed ((q.queue c).votesByKeyPrefix (QueueKey.toText k) true)
      = (Table.vote q).head ++ (QueueKey.toText k ++ ['/']) := by
    simp [VoteQueue.votesByKeyPrefix, VoteQueue.exactly, Table.head, Substore.prefixed]
  rw [hpre, Key.head_append_prefix_text_iff]
  constructor
  · rintro ⟨htable, hbody⟩
    cases x with
    | vote q' k' party t =>
      cases htable
      obtain ⟨hk, -⟩ :=
        (cons_prefix_iff_of_notMem (q.slash_notMem_toText k) (q.slash_notMem_toText k')).mp hbody
      exact ⟨party, t, by rw [q.toText_injective hk]⟩
    | _ => cases htable
  · rintro ⟨party, t, rfl⟩
    exact ⟨rfl, (cons_prefix_iff_of_notMem (q.slash_notMem_toText k)
      (q.slash_notMem_toText k)).mpr ⟨rfl, List.nil_prefix⟩⟩

theorem votesByKeyPartyPrefix_prefix_iff (k : q.Key) (party : Bytes) :
    Substore.internal.prefixed ((q.queue c).votesByKeyPartyPrefix (QueueKey.toText k)
      (hexEncode party) true) <+: x.text ↔ ∃ t, x = .vote q k party t := by
  have hpre : Substore.internal.prefixed ((q.queue c).votesByKeyPartyPrefix (QueueKey.toText k)
      (hexEncode party) true)
      = (Table.vote q).head ++ (QueueKey.toText k ++ '/' :: (hexEncode party ++ ['/'])) := by
    simp [VoteQueue.votesByKeyPartyPrefix, VoteQueue.exactly, Table.head, Substore.prefixed]
  rw [hpre, Key.head_append_prefix_text_iff]
  constructor
  · rintro ⟨htable, hbody⟩
    cases x with
    | vote q' k' party' t =>
      cases htable
      obtain ⟨hk, hrest⟩ :=
        (cons_prefix_iff_of_notMem (q.slash_notMem_toText k) (q.slash_notMem_toText k')).mp hbody
      obtain ⟨hp, -⟩ := (cons_prefix_iff_of_notMem (slash_notMem_hexEncode party)
        (slash_notMem_hexEncode party')).mp hrest
      exact ⟨t, by rw [q.toText_injective hk, hexEncode_injective hp]⟩
    | _ => cases htable
  · rintro ⟨t, rfl⟩
    exact ⟨rfl, (cons_prefix_iff_of_notMem (q.slash_notMem_toText k)
      (q.slash_notMem_toText k)).mpr ⟨rfl, (cons_prefix_iff_of_notMem
        (slash_notMem_hexEncode party) (slash_notMem_hexEncode party)).mpr
          ⟨rfl, List.nil_prefix⟩⟩⟩

theorem pendingByKeyPrefix_prefix_iff (k : q.Key) :
    Substore.internal.prefixed ((q.queue c).pendingByKeyPrefix (QueueKey.toText k) true) <+: x.text
      ↔ ∃ t, x = .pending q k t := by
  have hpre : Substore.internal.prefixed ((q.queue c).pendingByKeyPrefix (QueueKey.toText k) true)
      = (Table.pending q).head ++ (QueueKey.toText k ++ ['/']) := by
    simp [VoteQueue.pendingByKeyPrefix, VoteQueue.exactly, Table.head, Substore.prefixed]
  rw [hpre, Key.head_append_prefix_text_iff]
  constructor
  · rintro ⟨htable, hbody⟩
    cases x with
    | pending q' k' t =>
      cases htable
      obtain ⟨hk, -⟩ :=
        (cons_prefix_iff_of_notMem (q.slash_notMem_toText k) (q.slash_notMem_toText k')).mp hbody
      exact ⟨t, by rw [q.toText_injective hk]⟩
    | _ => cases htable
  · rintro ⟨t, rfl⟩
    exact ⟨rfl, (cons_prefix_iff_of_notMem (q.slash_notMem_toText k)
      (q.slash_notMem_toText k)).mpr ⟨rfl, List.nil_prefix⟩⟩

end Scans

/-- The index lists its entries from the oldest to the newest, as long as they are from 1970 on. -/
theorem IndexKey.secs_le_of_compare [Host] {x y : IndexKey} (htable : x.table = y.table)
    (hx : 0 ≤ x.second.secs) (hy : 0 ≤ y.second.secs)
    (h : compare x.bytes y.bytes = .lt) : x.second.secs ≤ y.second.secs := by
  rw [bytes, bytes, htable, compare_append_left] at h
  have hxv := x.second.valid
  have hyv := y.second.valid
  rw [ValidSecs] at hxv hyv
  exact le_of_compare_i64ToBeBytes hx (by omega) hy (by omega)
    fun hgt ↦ Ordering.noConfusion (h.symm.trans hgt)

end Felidae
