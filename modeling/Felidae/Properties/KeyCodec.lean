import Felidae.Ledger.Layout
import Felidae.Reference

/-!
# The codec of the vote queue's keys

Four formats of keys, each with a builder and a parser of its own. Every parser undoes its builder
up to the fraction of the second, whatever bytes the second happens to consist of; so a key is built
for one key, one party and one second. The scans by key and by party meet what was built for them
and nothing else, and the index keys are ordered by their seconds.
-/

namespace Felidae

theorem Time.second_of_truncate {t t' : Time} (h : t.truncate = t'.truncate) :
    t.second = t'.second := by
  rw [truncate_eq, truncate_eq] at h
  exact Second.toTime_injective h

namespace VoteQueue

variable {K V : Type} (q : VoteQueue K V) {key party key' party' : Str} {t t' : Time}

/-! ## What the keys consist of -/

theorem indexVotesByTimestampKeyParty_eq_append : q.indexVotesByTimestampKeyParty t key party
    = q.votesByTimestampAllPrefix ++ (i64ToBeBytes t.unixTimestamp
      ++ (toUtf8 ('/' :: key) ++ toUtf8 ('/' :: party))) := by
  simp [indexVotesByTimestampKeyParty, votesByTimestampAllPrefix]

theorem indexPendingByTimestampKey_eq_append : q.indexPendingByTimestampKey t key
    = q.indexPendingByTimestampAllPrefix ++ (i64ToBeBytes t.unixTimestamp
      ++ toUtf8 ('/' :: key)) := by
  simp [indexPendingByTimestampKey, indexPendingByTimestampAllPrefix]

/-- Under one prefix, keys that go on with their second are ordered by it. -/
theorem compare_eq_lt_of_second_lt (p x y : Bytes) (ht : 0 ≤ t.unixTimestamp)
    (hlt : t.unixTimestamp < t'.unixTimestamp) :
    compare (p ++ (i64ToBeBytes t.unixTimestamp ++ x))
      (p ++ (i64ToBeBytes t'.unixTimestamp ++ y)) = .lt := by
  obtain ⟨-, hhi⟩ := t.valid
  obtain ⟨-, hhi'⟩ := t'.valid
  rw [compare_append_left]
  by_contra hne
  have hgt : compare (i64ToBeBytes t'.unixTimestamp ++ y) (i64ToBeBytes t.unixTimestamp ++ x)
      ≠ .gt := fun h ↦ hne (Std.OrientedCmp.lt_of_gt h)
  have hle := le_of_compare_i64ToBeBytes (by omega) (by omega) ht (by omega) hgt
  omega

/-- And the order of the keys is that of the seconds. -/
theorem second_le_of_compare_eq_lt {p x y : Bytes} (ht : 0 ≤ t.unixTimestamp)
    (ht' : 0 ≤ t'.unixTimestamp) (h : compare (p ++ (i64ToBeBytes t.unixTimestamp ++ x))
      (p ++ (i64ToBeBytes t'.unixTimestamp ++ y)) = .lt) :
    t.unixTimestamp ≤ t'.unixTimestamp := by
  obtain ⟨-, hhi⟩ := t.valid
  obtain ⟨-, hhi'⟩ := t'.valid
  rw [compare_append_left] at h
  exact le_of_compare_i64ToBeBytes ht (by omega) ht' (by omega)
    fun hgt ↦ Ordering.noConfusion (h.symm.trans hgt)

variable [Host]

/-- The fraction of a second is not written. -/
theorem votesByKeyPartyTimestamp_second : q.votesByKeyPartyTimestamp key party t
    = q.votesByKeyPartyTimestamp key party t.second.toTime := by
  simp [votesByKeyPartyTimestamp]

theorem pendingByKeyTimestamp_second : q.pendingByKeyTimestamp key t
    = q.pendingByKeyTimestamp key t.second.toTime := by
  simp [pendingByKeyTimestamp]

variable [LawfulHost]

/-! ## Reading and scanning -/

/-- Each parser undoes its builder, up to the fraction of the second. -/
structure Reads (key party : Str) (t : Time) : Prop where
  votes : q.parseVotesByKeyPartyTimestamp (q.votesByKeyPartyTimestamp key party t)
    = .ok (key, party, t.truncate)
  pending : q.parsePendingByKeyTimestamp (q.pendingByKeyTimestamp key t) = .ok (key, t.truncate)
  indexVotes : q.parseIndexVotesByTimestampKeyParty (q.indexVotesByTimestampKeyParty t key party)
    = .ok (t.truncate, key, party)
  indexPending : q.parseIndexPendingByTimestampKey (q.indexPendingByTimestampKey t key)
    = .ok (t.truncate, key)

theorem reads (hkey : '/' ∉ key) (hparty : '/' ∉ party) (t : Time) : q.Reads key party t where
  votes := by
    rw [votesByKeyPartyTimestamp_second, parseVotesByKeyPartyTimestamp_build q hkey hparty,
      Time.truncate_eq]
  pending := by
    rw [pendingByKeyTimestamp_second, parsePendingByKeyTimestamp_build, Time.truncate_eq]
  indexVotes := by
    rw [Time.truncate_eq]
    exact parseIndexVotesByTimestampKeyParty_build q hkey hparty t.second
  indexPending := by
    rw [Time.truncate_eq]
    exact parseIndexPendingByTimestampKey_build q key t.second

/-- A key is built for one key, one party and one second. -/
structure Separates (key party key' party' : Str) (t t' : Time) : Prop where
  votes : q.votesByKeyPartyTimestamp key party t = q.votesByKeyPartyTimestamp key' party' t' →
    key = key' ∧ party = party' ∧ t.second = t'.second
  pending : q.pendingByKeyTimestamp key t = q.pendingByKeyTimestamp key' t' →
    key = key' ∧ t.second = t'.second
  indexVotes : q.indexVotesByTimestampKeyParty t key party
      = q.indexVotesByTimestampKeyParty t' key' party' →
    key = key' ∧ party = party' ∧ t.second = t'.second
  indexPending : q.indexPendingByTimestampKey t key = q.indexPendingByTimestampKey t' key' →
    key = key' ∧ t.second = t'.second

omit [LawfulHost] in
theorem Reads.separates (h : q.Reads key party t) (h' : q.Reads key' party' t') :
    q.Separates key party key' party' t t' where
  votes heq := by
    have hread := h.votes
    rw [heq, h'.votes, Except.ok.injEq, Prod.mk.injEq, Prod.mk.injEq] at hread
    exact ⟨hread.1.symm, hread.2.1.symm, (Time.second_of_truncate hread.2.2).symm⟩
  pending heq := by
    have hread := h.pending
    rw [heq, h'.pending, Except.ok.injEq, Prod.mk.injEq] at hread
    exact ⟨hread.1.symm, (Time.second_of_truncate hread.2).symm⟩
  indexVotes heq := by
    have hread := h.indexVotes
    rw [heq, h'.indexVotes, Except.ok.injEq, Prod.mk.injEq, Prod.mk.injEq] at hread
    exact ⟨hread.2.1.symm, hread.2.2.symm, (Time.second_of_truncate hread.1).symm⟩
  indexPending heq := by
    have hread := h.indexPending
    rw [heq, h'.indexPending, Except.ok.injEq, Prod.mk.injEq] at hread
    exact ⟨hread.2.symm, (Time.second_of_truncate hread.1).symm⟩

/-- The scans of a key, and of a key and a party, meet a vote or a pending change if it is theirs,
and not otherwise. -/
structure Scans (k p key party : Str) (t : Time) : Prop where
  votesByKey : q.votesByKeyPrefix k true <+: q.votesByKeyPartyTimestamp key party t ↔ key = k
  votesByKeyParty : q.votesByKeyPartyPrefix k p true <+: q.votesByKeyPartyTimestamp key party t ↔
    key = k ∧ party = p
  pendingByKey : q.pendingByKeyPrefix k true <+: q.pendingByKeyTimestamp key t ↔ key = k

omit [LawfulHost] in
theorem scans {k p : Str} (hk : '/' ∉ k) (hp : '/' ∉ p) (hkey : '/' ∉ key) (hparty : '/' ∉ party)
    (t : Time) : q.Scans k p key party t where
  votesByKey := by
    have hbuilt : q.votesByKeyPartyTimestamp key party t = q.base ++ "/votes_by_key/".toList
        ++ (key ++ '/' :: (party ++ '/' :: Host.rfc3339 t.truncate)) := by
      simp [votesByKeyPartyTimestamp, votesByKeyPartyPrefix, exactly]
    rw [hbuilt, votesByKeyPrefix, exactly, if_pos rfl, List.append_assoc _ k,
      List.prefix_append_right_inj, cons_prefix_iff_of_notMem hk hkey, eq_comm]
    exact and_iff_left List.nil_prefix
  votesByKeyParty := by
    have hbuilt : q.votesByKeyPartyTimestamp key party t = q.base ++ "/votes_by_key/".toList
        ++ (key ++ '/' :: (party ++ '/' :: Host.rfc3339 t.truncate)) := by
      simp [votesByKeyPartyTimestamp, votesByKeyPartyPrefix, exactly]
    have hprefix : q.votesByKeyPartyPrefix k p true = q.base ++ "/votes_by_key/".toList
        ++ (k ++ '/' :: (p ++ '/' :: [])) := by
      simp [votesByKeyPartyPrefix, exactly]
    rw [hbuilt, hprefix, List.prefix_append_right_inj, cons_prefix_iff_of_notMem hk hkey,
      cons_prefix_iff_of_notMem hp hparty, and_iff_left List.nil_prefix, eq_comm, @eq_comm _ p]
  pendingByKey := by
    have hbuilt : q.pendingByKeyTimestamp key t = q.base ++ "/pending_by_key/".toList
        ++ (key ++ '/' :: Host.rfc3339 t.truncate) := by
      simp [pendingByKeyTimestamp, pendingByKeyPrefix, exactly]
    rw [hbuilt, pendingByKeyPrefix, exactly, if_pos rfl, List.append_assoc _ k,
      List.prefix_append_right_inj, cons_prefix_iff_of_notMem hk hkey, eq_comm]
    exact and_iff_left List.nil_prefix

/-- The index keys of a table are ordered by their seconds. -/
structure Orders (key party key' party' : Str) (t t' : Time) : Prop where
  indexVotes : (t.unixTimestamp < t'.unixTimestamp →
      compare (q.indexVotesByTimestampKeyParty t key party)
        (q.indexVotesByTimestampKeyParty t' key' party') = .lt) ∧
    (compare (q.indexVotesByTimestampKeyParty t key party)
        (q.indexVotesByTimestampKeyParty t' key' party') = .lt →
      t.unixTimestamp ≤ t'.unixTimestamp)
  indexPending : (t.unixTimestamp < t'.unixTimestamp →
      compare (q.indexPendingByTimestampKey t key) (q.indexPendingByTimestampKey t' key') = .lt) ∧
    (compare (q.indexPendingByTimestampKey t key) (q.indexPendingByTimestampKey t' key') = .lt →
      t.unixTimestamp ≤ t'.unixTimestamp)

omit [Host] [LawfulHost] in
theorem orders (key party key' party' : Str) (ht : 0 ≤ t.unixTimestamp)
    (ht' : 0 ≤ t'.unixTimestamp) : q.Orders key party key' party' t t' where
  indexVotes := by
    rw [indexVotesByTimestampKeyParty_eq_append, indexVotesByTimestampKeyParty_eq_append]
    exact ⟨compare_eq_lt_of_second_lt _ _ _ ht, second_le_of_compare_eq_lt ht ht'⟩
  indexPending := by
    rw [indexPendingByTimestampKey_eq_append, indexPendingByTimestampKey_eq_append]
    exact ⟨compare_eq_lt_of_second_lt _ _ _ ht, second_le_of_compare_eq_lt ht ht'⟩

/-- The keys of every vote queue, for keys and parties without a slash and times from 1970 on. -/
theorem keys_faithful (hkey : '/' ∉ key) (hparty : '/' ∉ party) (hkey' : '/' ∉ key')
    (hparty' : '/' ∉ party') (ht : 0 ≤ t.unixTimestamp) (ht' : 0 ≤ t'.unixTimestamp) :
    q.Reads key party t ∧ q.Separates key party key' party' t t' ∧
      q.Scans key' party' key party t ∧ q.Orders key party key' party' t t' :=
  have hreads := q.reads hkey hparty t
  ⟨hreads, hreads.separates q (q.reads hkey' hparty' t'), q.scans hkey' hparty' hkey hparty t,
    q.orders key party key' party' ht ht'⟩

end VoteQueue

namespace Reference

/-- The admin queue, whose only key is empty, and a second whose bytes end in a slash: 303 is
`0x12f`. -/
theorem keys_faithful_slash :
    VoteQueue.Reads (QueueId.admin.queue State.defaultConfig) [] (hexEncode alice) (timeAt 303) ∧
    VoteQueue.Orders (QueueId.admin.queue State.defaultConfig) [] (hexEncode alice) []
      (hexEncode bob) (timeAt 303) (timeAt 304) := by
  obtain ⟨hreads, -, -, horders⟩ := VoteQueue.keys_faithful
    (QueueId.admin.queue State.defaultConfig) List.not_mem_nil (slash_notMem_hexEncode alice)
    List.not_mem_nil (slash_notMem_hexEncode bob) (by decide : 0 ≤ (timeAt 303).unixTimestamp)
    (by decide : 0 ≤ (timeAt 304).unixTimestamp)
  exact ⟨hreads, horders⟩

end Reference

end Felidae
