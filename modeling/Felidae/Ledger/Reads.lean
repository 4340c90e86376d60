import Felidae.Ledger.Queue
import Felidae.State.Names
import Mathlib.Data.List.TakeWhile

/-!
# Reading a ledger

On a store that represents a sound ledger every read of the code succeeds, and returns what the
ledger holds: scans list exactly the entries of the component they scan.
-/

open Classical

namespace Felidae

/-- A list that holds what an option holds. -/
theorem eq_toList_of_mem_iff {α : Type} {l : List α} {o : Option α} (hl : l.Nodup)
    (h : ∀ a, a ∈ l ↔ o = some a) : l = o.toList := by
  rcases o with _ | a
  · exact List.eq_nil_iff_forall_not_mem.mpr fun a ha ↦ by cases (h a).mp ha
  · refine List.perm_singleton.mp ((List.perm_ext_iff_of_nodup hl (List.nodup_singleton a)).mpr ?_)
    intro b
    rw [h, List.mem_singleton, Option.some_inj, eq_comm]

/-- Along a list on which a property only ever turns false, the prefix that has it is all that
has it. -/
theorem mem_takeWhile_iff {α : Type} {p : α → Bool} : ∀ {l : List α},
    l.Pairwise (fun a b ↦ p b = true → p a = true) →
      ∀ a, a ∈ l.takeWhile p ↔ a ∈ l ∧ p a = true
  | [], _, a => by simp
  | b :: l, h, a => by
    obtain ⟨hb, hl⟩ := List.pairwise_cons.mp h
    by_cases hp : p b = true
    · rw [List.takeWhile_cons_of_pos hp, List.mem_cons, List.mem_cons, mem_takeWhile_iff hl]
      constructor
      · rintro (rfl | ⟨hal, hpa⟩)
        · exact ⟨.inl rfl, hp⟩
        · exact ⟨.inr hal, hpa⟩
      · rintro ⟨rfl | hal, hpa⟩
        · exact .inl rfl
        · exact .inr ⟨hal, hpa⟩
    · rw [List.takeWhile_cons_of_neg hp]
      refine iff_of_false List.not_mem_nil ?_
      rintro ⟨hal, hpa⟩
      rcases List.mem_cons.mp hal with rfl | hal
      · exact hp hpa
      · exact hp (hb a hal hpa)

/-- What was made earlier is older. -/
theorem Time.ageOf_anti (now : Time) {t t' : Second} (h : t.secs ≤ t'.secs) :
    now.ageOf t'.toTime ≤ now.ageOf t.toTime := by
  have htotal : t.toTime.total ≤ t'.toTime.total := by
    simp only [Time.total, Second.toTime]
    omega
  rw [Time.ageOf, Time.durationSince, Time.ageOf, Time.durationSince]
  by_cases hnow : t'.toTime.total ≤ now.total
  · rw [if_pos hnow, if_pos (htotal.trans hnow)]
    exact Int.toNat_le_toNat (by omega)
  · rw [if_neg hnow]
    exact Nat.zero_le _

/-- The zone of an oracle vote is a proper ancestor of its domain. -/
def QueueId.Fits : ∀ q : QueueId, q.Key → q.Value → Prop
  | admin, _, _ => True
  | oracle, k, v => FQDN.ProperAncestor v.zone.name k.name

/-- What every value in the queues satisfies: it decodes to itself, a vote fits its key, and a vote
is indexed under its second. -/
structure Ledger.Sound [Host] (L : Ledger) : Prop where
  vote_clean : ∀ q k p e, (L.queue q).votes k p = some e → Clean e.2
  pending_clean : ∀ q k e, (L.queue q).pending k = some e → Clean e.2
  vote_fits : ∀ q k p e, (L.queue q).votes k p = some e → q.Fits k e.2
  indexed : ∀ q k p t v, (L.queue q).votes k p = some (t, v) →
    (L.queue q).voteIndex t k p = some v

/-- A vote for a key, as it is read. -/
def QueueId.readEntry (q : QueueId) (k : q.Key) (e : Bytes × Second × q.Value) :
    Vote q.Key q.Value :=
  ⟨hexEncode e.1, e.2.1.toTime, k, e.2.2⟩

/-- The vote is stored: it is read under its key. -/
def StoredVote [Host] (q : QueueId) (s : Store) (vote : Vote q.Key q.Value) : Prop :=
  ∀ c, ∃ votes, (q.queue c).votesForKey vote.key s = .ok votes ∧ vote ∈ votes

namespace Represents

variable [Host] [LawfulHost] {s : Store} {L : Ledger}

/-! ## Votes -/

theorem votesStream (h : Represents s L) (hL : L.Sound) (q : QueueId) (c : Config) (k : q.Key) :
    ∃ es : List (Bytes × Second × q.Value),
      s.scan q.Value .internal ((q.queue c).votesByKeyPrefix (QueueKey.toText k) true)
        = es.map (fun e ↦ .ok ((q.queue c).votesByKeyPartyTimestamp (QueueKey.toText k)
            (hexEncode e.1) e.2.1.toTime, e.2.2)) ∧
      (∀ e, e ∈ es ↔ (L.queue q).votes k e.1 = some e.2) ∧ es.Nodup := by
  obtain ⟨es, hscan, hmem, hnodup⟩ := Laid.exists_scan h
    (p := Substore.internal.prefixed ((q.queue c).votesByKeyPrefix (QueueKey.toText k) true))
    (P := fun e : Bytes × Second × q.Value ↦ (L.queue q).votes k e.1 = some e.2)
    (k := fun e ↦ .vote q k e.1 e.2.1) (v := fun e ↦ DomainType.toStored e.2.2)
    (fun x a hx hpre ↦ by
      obtain ⟨p, t, rfl⟩ := (votesByKeyPrefix_prefix_iff q c k).mp hpre
      obtain ⟨v, hv, rfl⟩ := Option.map_eq_some_iff.mp hx
      exact ⟨(p, t, v), heldAt_eq_some.mp hv, rfl, rfl⟩)
    (fun e he ↦ ⟨by rw [Ledger.view, heldAt_eq_some.mpr he, Option.map_some],
      (votesByKeyPrefix_prefix_iff q c k).mpr ⟨_, _, rfl⟩⟩)
    (fun e e' he he' hkey ↦ by
      simp only [Key.vote.injEq, heq_eq_eq, true_and] at hkey
      rw [hkey.1, he', Option.some_inj] at he
      exact Prod.ext hkey.1 he.symm)
  refine ⟨es, Laid.scan_eq hscan (fun e he ↦ hL.vote_clean q k e.1 e.2 ((hmem e).mp he))
    (fun e ↦ ?_), hmem, hnodup⟩
  rw [votesByKeyPartyTimestamp_eq, Second.second_toTime]

/-- The votes under a key: a list of party, second and value. -/
theorem votesUnder (h : Represents s L) (hL : L.Sound) (q : QueueId) (c : Config) (k : q.Key) :
    ∃ es : List (Bytes × Second × q.Value),
      (q.queue c).votesUnder (QueueKey.toText k) s
        = .ok (es.map fun e ↦ (hexEncode e.1, e.2.1.toTime, e.2.2)) ∧
      (∀ e, e ∈ es ↔ (L.queue q).votes k e.1 = some e.2) ∧ es.Nodup := by
  obtain ⟨es, hstream, hmem, hnodup⟩ := h.votesStream hL q c k
  refine ⟨es, ?_, hmem, hnodup⟩
  rw [VoteQueue.votesUnder, hstream, Results.andThen_map_ok]
  refine Results.collect_map fun e _ ↦ ?_
  rw [VoteQueue.parseVotesByKeyPartyTimestamp_build _ (q.slash_notMem_toText k)
    (slash_notMem_hexEncode _)]
  rfl

theorem votesForKey (h : Represents s L) (hL : L.Sound) (q : QueueId) (c : Config) (k : q.Key) :
    ∃ es : List (Bytes × Second × q.Value),
      (q.queue c).votesForKey k s = .ok (es.map (q.readEntry k)) ∧
      (∀ e, e ∈ es ↔ (L.queue q).votes k e.1 = some e.2) ∧ es.Nodup := by
  obtain ⟨es, hstream, hmem, hnodup⟩ := h.votesStream hL q c k
  refine ⟨es, ?_, hmem, hnodup⟩
  rw [VoteQueue.votesForKey, hstream, Results.andThen_map_ok]
  refine Results.collect_map fun e _ ↦ ?_
  simp only [VoteQueue.parseVotesByKeyPartyTimestamp_build _ (q.slash_notMem_toText k)
      (slash_notMem_hexEncode _),
    except_ok_bind, q.ofText_toText]
  rfl

/-- A stored vote is an entry of the ledger. -/
theorem storedVote_iff (h : Represents s L) (hL : L.Sound) {q : QueueId}
    {vote : Vote q.Key q.Value} : StoredVote q s vote ↔
      ∃ e : Bytes × Second × q.Value,
        (L.queue q).votes vote.key e.1 = some e.2 ∧ q.readEntry vote.key e = vote := by
  constructor
  · intro hstored
    obtain ⟨votes, hvotes, hmem⟩ := hstored L.config
    obtain ⟨es, hes, hentries, -⟩ := h.votesForKey hL q L.config vote.key
    obtain rfl := Except.ok.inj (hvotes.symm.trans hes)
    obtain ⟨e, he, hread⟩ := List.mem_map.mp hmem
    exact ⟨e, (hentries e).mp he, hread⟩
  · rintro ⟨e, he, hread⟩ c
    obtain ⟨es, hes, hentries, -⟩ := h.votesForKey hL q c vote.key
    exact ⟨_, hes, List.mem_map.mpr ⟨e, (hentries e).mpr he, hread⟩⟩

/-- The stream of the votes for all keys whose text starts with some text. -/
theorem votesStreamBelow (h : Represents s L) (hL : L.Sound) (q : QueueId) (c : Config)
    {key : Str} (hkey : '/' ∉ key) :
    ∃ es : List (q.Key × Bytes × Second × q.Value),
      s.scan q.Value .internal ((q.queue c).votesByKeyPrefix key false)
        = es.map (fun e ↦ .ok ((q.queue c).votesByKeyPartyTimestamp (QueueKey.toText e.1)
            (hexEncode e.2.1) e.2.2.1.toTime, e.2.2.2)) ∧
      (∀ e, e ∈ es ↔ (L.queue q).votes e.1 e.2.1 = some e.2.2 ∧ key <+: QueueKey.toText e.1) ∧
      es.Nodup := by
  obtain ⟨es, hscan, hmem, hnodup⟩ := Laid.exists_scan h
    (p := Substore.internal.prefixed ((q.queue c).votesByKeyPrefix key false))
    (P := fun e : q.Key × Bytes × Second × q.Value ↦
      (L.queue q).votes e.1 e.2.1 = some e.2.2 ∧ key <+: QueueKey.toText e.1)
    (k := fun e ↦ .vote q e.1 e.2.1 e.2.2.1) (v := fun e ↦ DomainType.toStored e.2.2.2)
    (fun x a hx hpre ↦ by
      obtain ⟨k', p, t, rfl, hk'⟩ := (votesByKeyPrefix_inexact_prefix_iff q c hkey).mp hpre
      obtain ⟨v, hv, rfl⟩ := Option.map_eq_some_iff.mp hx
      exact ⟨(k', p, t, v), ⟨heldAt_eq_some.mp hv, hk'⟩, rfl, rfl⟩)
    (fun e he ↦ ⟨by rw [Ledger.view, heldAt_eq_some.mpr he.1, Option.map_some],
      (votesByKeyPrefix_inexact_prefix_iff q c hkey).mpr ⟨_, _, _, rfl, he.2⟩⟩)
    (fun e e' he he' hkey ↦ by
      simp only [Key.vote.injEq, heq_eq_eq, true_and] at hkey
      have hvote := he.1
      rw [hkey.1, hkey.2.1, he'.1, Option.some_inj] at hvote
      exact Prod.ext hkey.1 (Prod.ext hkey.2.1 hvote.symm))
  exact ⟨es, Laid.scan_eq hscan (fun e he ↦ hL.vote_clean q e.1 e.2.1 e.2.2 ((hmem e).mp he).1)
    (fun e ↦ by rw [votesByKeyPartyTimestamp_eq, Second.second_toTime]), hmem, hnodup⟩

/-- The votes for the keys whose text starts with that of a key and a delimiter. -/
theorem votesForKeyPrefix (h : Represents s L) (hL : L.Sound) (q : QueueId) (c : Config)
    (k : q.Key) {o : Option Char} (ho : '/' ∉ o.toList) :
    ∃ es : List (q.Key × Bytes × Second × q.Value),
      (q.queue c).votesForKeyPrefix k o s = .ok (es.map fun e ↦ q.readEntry e.1 e.2) ∧
      (∀ e, e ∈ es ↔ (L.queue q).votes e.1 e.2.1 = some e.2.2 ∧
        QueueKey.toText k ++ o.toList <+: QueueKey.toText e.1) ∧ es.Nodup := by
  have hslash : '/' ∉ QueueKey.toText k ++ o.toList := by
    rw [List.mem_append, not_or]
    exact ⟨q.slash_notMem_toText k, ho⟩
  obtain ⟨es, hstream, hmem, hnodup⟩ := h.votesStreamBelow hL q c hslash
  refine ⟨es, ?_, hmem, hnodup⟩
  rw [VoteQueue.votesForKeyPrefix]
  simp only [hstream, Results.andThen_map_ok]
  refine Results.collect_map fun e _ ↦ ?_
  simp only [VoteQueue.parseVotesByKeyPartyTimestamp_build _ (q.slash_notMem_toText e.1)
    (slash_notMem_hexEncode _), except_ok_bind, q.ofText_toText]
  rfl

/-- The keys of a party's votes for a key: at most one. -/
theorem votesByParty (h : Represents s L) (hL : L.Sound) (q : QueueId) (c : Config) (k : q.Key)
    (party : Bytes) :
    (q.queue c).votesByParty (QueueKey.toText k) (hexEncode party) s
        = .ok (((L.queue q).votes k party).toList.map fun e ↦
          (q.queue c).votesByKeyPartyTimestamp (QueueKey.toText k) (hexEncode party) e.1.toTime) :=
            by
  obtain ⟨es, hscan, hmem, hnodup⟩ := Laid.exists_scan h
    (p := Substore.internal.prefixed ((q.queue c).votesByKeyPartyPrefix (QueueKey.toText k)
      (hexEncode party) true))
    (P := fun e : Second × q.Value ↦ (L.queue q).votes k party = some e)
    (k := fun e ↦ .vote q k party e.1) (v := fun e ↦ DomainType.toStored e.2)
    (fun x a hx hpre ↦ by
      obtain ⟨t, rfl⟩ := (votesByKeyPartyPrefix_prefix_iff q c k party).mp hpre
      obtain ⟨v, hv, rfl⟩ := Option.map_eq_some_iff.mp hx
      exact ⟨(t, v), heldAt_eq_some.mp hv, rfl, rfl⟩)
    (fun e he ↦ ⟨by rw [Ledger.view, heldAt_eq_some.mpr he, Option.map_some],
      (votesByKeyPartyPrefix_prefix_iff q c k party).mpr ⟨_, rfl⟩⟩)
    (fun e e' he he' _ ↦ Option.some.inj (he.symm.trans he'))
  have hstream := Laid.scan_eq (V := q.Value)
    (p := (q.queue c).votesByKeyPartyPrefix (QueueKey.toText k) (hexEncode party) true)
    (n := fun e ↦ (q.queue c).votesByKeyPartyTimestamp (QueueKey.toText k) (hexEncode party)
      e.1.toTime) hscan
    (fun e he ↦ hL.vote_clean q k party e ((hmem e).mp he))
    (fun e ↦ by rw [votesByKeyPartyTimestamp_eq, Second.second_toTime])
  rw [VoteQueue.votesByParty, hstream, Results.andThen_map_ok, ← eq_toList_of_mem_iff hnodup hmem]
  exact Results.collect_map fun _ _ ↦ rfl

/-! ## Pending changes -/

/-- The stream of pending changes under a key: at most one. -/
theorem pendingStream (h : Represents s L) (hL : L.Sound) (q : QueueId) (c : Config) (k : q.Key) :
    s.scan q.Value .internal ((q.queue c).pendingByKeyPrefix (QueueKey.toText k) true)
      = ((L.queue q).pending k).toList.map fun e ↦
        .ok ((q.queue c).pendingByKeyTimestamp (QueueKey.toText k) e.1.toTime, e.2) := by
  obtain ⟨es, hscan, hmem, hnodup⟩ := Laid.exists_scan h
    (p := Substore.internal.prefixed ((q.queue c).pendingByKeyPrefix (QueueKey.toText k) true))
    (P := fun e : Second × q.Value ↦ (L.queue q).pending k = some e)
    (k := fun e ↦ .pending q k e.1) (v := fun e ↦ DomainType.toStored e.2)
    (fun x a hx hpre ↦ by
      obtain ⟨t, rfl⟩ := (pendingByKeyPrefix_prefix_iff q c k).mp hpre
      obtain ⟨v, hv, rfl⟩ := Option.map_eq_some_iff.mp hx
      exact ⟨(t, v), heldAt_eq_some.mp hv, rfl, rfl⟩)
    (fun e he ↦ ⟨by rw [Ledger.view, heldAt_eq_some.mpr he, Option.map_some],
      (pendingByKeyPrefix_prefix_iff q c k).mpr ⟨_, rfl⟩⟩)
    (fun e e' he he' _ ↦ Option.some.inj (he.symm.trans he'))
  rw [← eq_toList_of_mem_iff hnodup hmem]
  exact Laid.scan_eq hscan (fun e he ↦ hL.pending_clean q k e ((hmem e).mp he))
    fun e ↦ by rw [pendingByKeyTimestamp_eq, Second.second_toTime]

theorem pendingUnder (h : Represents s L) (hL : L.Sound) (q : QueueId) (c : Config) (k : q.Key) :
    (q.queue c).pendingUnder (QueueKey.toText k) s
      = .ok (((L.queue q).pending k).toList.map fun e ↦ (e.1.toTime, e.2)) := by
  rw [VoteQueue.pendingUnder, h.pendingStream hL, Results.andThen_map_ok]
  refine Results.collect_map fun e _ ↦ ?_
  rw [VoteQueue.parsePendingByKeyTimestamp_build]
  rfl

/-- No key has two pending changes. -/
theorem pendingForKey (h : Represents s L) (hL : L.Sound) (q : QueueId) (c : Config) (k : q.Key) :
    (q.queue c).pendingForKey k s = .ok (((L.queue q).pending k).map Prod.snd) := by
  have hcollect : ((s.scan q.Value .internal ((q.queue c).pendingByKeyPrefix
      (QueueKey.toText k) true)).andThen fun e ↦ .ok e.2).collect
        = .ok (((L.queue q).pending k).toList.map Prod.snd) := by
    rw [h.pendingStream hL, Results.andThen_map_ok]
    exact Results.collect_map fun _ _ ↦ rfl
  rw [VoteQueue.pendingForKey]
  simp only [hcollect, except_ok_bind]
  rcases (L.queue q).pending k with _ | e <;> rfl

/-- The stream of the pending changes of all keys whose text starts with some text. -/
theorem pendingStreamBelow (h : Represents s L) (hL : L.Sound) (q : QueueId) (c : Config)
    {key : Str} (hkey : '/' ∉ key) :
    ∃ es : List (q.Key × Second × q.Value),
      s.scan q.Value .internal ((q.queue c).pendingByKeyPrefix key false)
        = es.map (fun e ↦ .ok ((q.queue c).pendingByKeyTimestamp (QueueKey.toText e.1) e.2.1.toTime,
            e.2.2)) ∧
      (∀ e, e ∈ es ↔ (L.queue q).pending e.1 = some e.2 ∧ key <+: QueueKey.toText e.1) ∧
      es.Nodup := by
  obtain ⟨es, hscan, hmem, hnodup⟩ := Laid.exists_scan h
    (p := Substore.internal.prefixed ((q.queue c).pendingByKeyPrefix key false))
    (P := fun e : q.Key × Second × q.Value ↦
      (L.queue q).pending e.1 = some e.2 ∧ key <+: QueueKey.toText e.1)
    (k := fun e ↦ .pending q e.1 e.2.1) (v := fun e ↦ DomainType.toStored e.2.2)
    (fun x a hx hpre ↦ by
      obtain ⟨k', t, rfl, hk'⟩ := (pendingByKeyPrefix_inexact_prefix_iff q c hkey).mp hpre
      obtain ⟨v, hv, rfl⟩ := Option.map_eq_some_iff.mp hx
      exact ⟨(k', t, v), ⟨heldAt_eq_some.mp hv, hk'⟩, rfl, rfl⟩)
    (fun e he ↦ ⟨by rw [Ledger.view, heldAt_eq_some.mpr he.1, Option.map_some],
      (pendingByKeyPrefix_inexact_prefix_iff q c hkey).mpr ⟨_, _, rfl, he.2⟩⟩)
    (fun e e' he he' hkey ↦ by
      simp only [Key.pending.injEq, heq_eq_eq, true_and] at hkey
      have := he.1
      rw [hkey.1, he'.1, Option.some_inj] at this
      exact Prod.ext hkey.1 this.symm)
  exact ⟨es, Laid.scan_eq hscan (fun e he ↦ hL.pending_clean q e.1 e.2 ((hmem e).mp he).1)
    (fun e ↦ by rw [pendingByKeyTimestamp_eq, Second.second_toTime]), hmem, hnodup⟩

/-- The pending changes of the keys whose text starts with that of a key and a delimiter. -/
theorem pendingForKeyPrefix (h : Represents s L) (hL : L.Sound) (q : QueueId) (c : Config)
    (k : q.Key) {o : Option Char} (ho : '/' ∉ o.toList) :
    ∃ es : List (q.Key × Second × q.Value),
      (q.queue c).pendingForKeyPrefix k o s = .ok (es.map fun e ↦ (e.2.1.toTime, e.1, e.2.2)) ∧
      (∀ e, e ∈ es ↔ (L.queue q).pending e.1 = some e.2 ∧
        QueueKey.toText k ++ o.toList <+: QueueKey.toText e.1) ∧ es.Nodup := by
  have hslash : '/' ∉ QueueKey.toText k ++ o.toList := by
    rw [List.mem_append, not_or]
    exact ⟨q.slash_notMem_toText k, ho⟩
  obtain ⟨es, hstream, hmem, hnodup⟩ := h.pendingStreamBelow hL q c hslash
  refine ⟨es, ?_, hmem, hnodup⟩
  rw [VoteQueue.pendingForKeyPrefix]
  simp only [hstream, Results.andThen_map_ok]
  refine Results.collect_map fun e _ ↦ ?_
  rw [VoteQueue.parsePendingByKeyTimestamp_build, except_ok_bind, q.ofText_toText]
  rfl

/-- The pending changes below a domain. -/
theorem pendingBelow (h : Represents s L) (hL : L.Sound) (c : Config) {r : PrefixOrderDomain}
    (hr : r.name.labels ≠ []) :
    ∃ es : List (PrefixOrderDomain × Second × OracleVoteValue),
      (QueueId.oracle.queue c).pendingForKeyPrefix r (some '.') s
        = .ok (es.map fun e ↦ (e.2.1.toTime, e.1, e.2.2)) ∧
      ∀ e, e ∈ es ↔ (L.queue .oracle).pending e.1 = some e.2 ∧
        FQDN.ProperAncestor r.name e.1.name := by
  obtain ⟨es, hes, hmem, -⟩ := h.pendingForKeyPrefix hL .oracle c r (o := some '.') (by decide)
  refine ⟨es, hes, fun e ↦ (hmem e).trans (and_congr_right fun _ ↦ ?_)⟩
  exact PrefixOrderDomain.display_dot_prefix_iff hr

/-! ## Scans of the indexes -/

/-- The index of the votes, as it is read: in the order of time, as long as it is from 1970 on. -/
theorem voteIndexStream (h : Represents s L) (q : QueueId) (c : Config) :
    ∃ ds : List (Second × q.Key × Bytes),
      ((s.indexScan Unit .internal (q.queue c).votesByTimestampAllPrefix).andThen fun e ↦
          (q.queue c).parseIndexVotesByTimestampKeyParty e.1)
        = ds.map (fun d ↦ .ok (d.1.toTime, QueueKey.toText d.2.1, hexEncode d.2.2)) ∧
      (∀ d, d ∈ ds ↔ ((L.queue q).voteIndex d.1 d.2.1 d.2.2).isSome) ∧ ds.Nodup ∧
      ((∀ d ∈ ds, 0 ≤ d.1.secs) → ds.Pairwise fun d d' ↦ d.1.secs ≤ d'.1.secs) := by
  obtain ⟨es, hscan, hmem, hpair⟩ := Laid.exists_indexScan h
    (p := Substore.internal.prefixedBytes (q.queue c).votesByTimestampAllPrefix)
    (P := fun e : (Second × q.Key × Bytes) × q.Value ↦
      (L.queue q).voteIndex e.1.1 e.1.2.1 e.1.2.2 = some e.2)
    (k := fun e ↦ .vote q e.1.1 e.1.2.1 e.1.2.2) (v := fun e ↦ DomainType.toStored e.2)
    (fun x a hx hpre ↦ by
      obtain ⟨t, k, p, rfl⟩ := (votesByTimestampAllPrefix_prefix_iff q c).mp hpre
      obtain ⟨v, hv, rfl⟩ := Option.map_eq_some_iff.mp hx
      exact ⟨((t, k, p), v), hv, rfl, rfl⟩)
    (fun e he ↦ ⟨by rw [Ledger.indexView, he, Option.map_some],
      (votesByTimestampAllPrefix_prefix_iff q c).mpr ⟨_, _, _, rfl⟩⟩)
    (fun e e' he he' hkey ↦ by
      simp only [IndexKey.vote.injEq, heq_eq_eq, true_and] at hkey
      have hkey' : e.1 = e'.1 := Prod.ext hkey.1 (Prod.ext hkey.2.1 hkey.2.2)
      rw [hkey', he', Option.some_inj] at he
      exact Prod.ext hkey' he.symm)
  have hstream := Laid.indexScan_eq (V := Unit) (v := fun _ ↦ ())
    (p := (q.queue c).votesByTimestampAllPrefix)
    (n := fun e ↦ (q.queue c).indexVotesByTimestampKeyParty e.1.1.toTime
      (QueueKey.toText e.1.2.1) (hexEncode e.1.2.2)) hscan (fun _ _ ↦ rfl)
    (fun e ↦ by rw [indexVotesByTimestampKeyParty_eq, Second.second_toTime])
  refine ⟨es.map Prod.fst, ?_, fun d ↦ ?_, ?_, fun hsecs ↦ ?_⟩
  · rw [hstream, Results.andThen_map_ok, List.map_map]
    exact List.map_congr_left fun e _ ↦
      VoteQueue.parseIndexVotesByTimestampKeyParty_build _ (q.slash_notMem_toText e.1.2.1)
        (slash_notMem_hexEncode _) _
  · rw [List.mem_map, Option.isSome_iff_exists]
    constructor
    · rintro ⟨e, he, rfl⟩
      exact ⟨e.2, (hmem e).mp he⟩
    · rintro ⟨v, hv⟩
      exact ⟨(d, v), (hmem _).mpr hv, rfl⟩
  · rw [List.Nodup, List.pairwise_map]
    refine hpair.imp fun {e e'} hlt heq ↦ ?_
    rw [heq, Std.ReflOrd.compare_self] at hlt
    exact Ordering.noConfusion hlt
  · rw [List.pairwise_map]
    have hsec := fun e he ↦ hsecs _ (List.mem_map_of_mem (f := Prod.fst) (a := e) he)
    exact hpair.imp_of_mem fun {e e'} he he' hlt ↦ IndexKey.secs_le_of_compare
      (x := .vote q e.1.1 e.1.2.1 e.1.2.2) (y := .vote q e'.1.1 e'.1.2.1 e'.1.2.2) rfl
      (hsec e he) (hsec e' he') hlt

/-- The index of the pending changes, as it is read: in the order of time, as long as it is from
1970 on. -/
theorem pendingIndexStream (h : Represents s L) (hL : L.Sound) (q : QueueId) (c : Config) :
    ∃ es : List (Second × q.Key × q.Value),
      ((s.indexScan q.Value .internal (q.queue c).indexPendingByTimestampAllPrefix).andThen fun e ↦
          ((q.queue c).parseIndexPendingByTimestampKey e.1).map fun (time, key) ↦ (time, key, e.2))
        = es.map (fun e ↦ .ok (e.1.toTime, QueueKey.toText e.2.1, e.2.2)) ∧
      (∀ e, e ∈ es ↔ (L.queue q).pending e.2.1 = some (e.1, e.2.2)) ∧ es.Nodup ∧
      ((∀ e ∈ es, 0 ≤ e.1.secs) → es.Pairwise fun e e' ↦ e.1.secs ≤ e'.1.secs) := by
  obtain ⟨es, hscan, hmem, hpair⟩ := Laid.exists_indexScan h
    (p := Substore.internal.prefixedBytes (q.queue c).indexPendingByTimestampAllPrefix)
    (P := fun e : Second × q.Key × q.Value ↦ (L.queue q).pending e.2.1 = some (e.1, e.2.2))
    (k := fun e ↦ .pending q e.1 e.2.1) (v := fun e ↦ DomainType.toStored e.2.2)
    (fun x a hx hpre ↦ by
      obtain ⟨t, k, rfl⟩ := (indexPendingByTimestampAllPrefix_prefix_iff q c).mp hpre
      obtain ⟨v, hv, rfl⟩ := Option.map_eq_some_iff.mp hx
      exact ⟨(t, k, v), heldAt_eq_some.mp hv, rfl, rfl⟩)
    (fun e he ↦ ⟨by rw [Ledger.indexView, heldAt_eq_some.mpr he, Option.map_some],
      (indexPendingByTimestampAllPrefix_prefix_iff q c).mpr ⟨_, _, rfl⟩⟩)
    (fun e e' he he' hkey ↦ by
      simp only [IndexKey.pending.injEq, heq_eq_eq, true_and] at hkey
      rw [hkey.2, he', Option.some_inj] at he
      exact Prod.ext hkey.1 (Prod.ext hkey.2 (congrArg Prod.snd he).symm))
  have hstream := Laid.indexScan_eq (V := q.Value) (v := fun e : Second × q.Key × q.Value ↦ e.2.2)
    (p := (q.queue c).indexPendingByTimestampAllPrefix)
    (n := fun e ↦ (q.queue c).indexPendingByTimestampKey e.1.toTime (QueueKey.toText e.2.1))
    hscan (fun e he ↦ hL.pending_clean q e.2.1 (e.1, e.2.2) ((hmem e).mp he))
    (fun e ↦ by rw [indexPendingByTimestampKey_eq, Second.second_toTime])
  refine ⟨es, ?_, hmem, hpair.imp fun {e e'} hlt heq ↦ ?_, fun hsecs ↦ ?_⟩
  · rw [hstream, Results.andThen_map_ok]
    refine List.map_congr_left fun e _ ↦ ?_
    rw [VoteQueue.parseIndexPendingByTimestampKey_build]
    rfl
  · rw [heq, Std.ReflOrd.compare_self] at hlt
    exact Ordering.noConfusion hlt
  · exact hpair.imp_of_mem fun {e e'} he he' hlt ↦ IndexKey.secs_le_of_compare
      (x := .pending q e.1 e.2.1) (y := .pending q e'.1 e'.2.1) rfl
      (hsecs e he) (hsecs e' he') hlt

/-- The votes that time out: entries of the index that are old enough, and, as long as the index is
in the order of time, all of them. -/
theorem oldVotes (h : Represents s L) (q : QueueId) (c : Config) (now : Time) :
    ∃ D : List (Second × q.Key × Bytes),
      (q.queue c).oldVotes now s
        = .ok (D.map fun d ↦ (d.1.toTime, QueueKey.toText d.2.1, hexEncode d.2.2)) ∧
      (∀ d ∈ D, ((L.queue q).voteIndex d.1 d.2.1 d.2.2).isSome ∧
        (q.voting c).timeout ≤ now.ageOf d.1.toTime) ∧
      ((∀ t k p, ((L.queue q).voteIndex t k p).isSome → 0 ≤ t.secs) →
        ∀ t k p, ((L.queue q).voteIndex t k p).isSome →
          (q.voting c).timeout ≤ now.ageOf t.toTime → (t, k, p) ∈ D) := by
  obtain ⟨ds, hstream, hmem, -, hordered⟩ := h.voteIndexStream q c
  let old : Second × q.Key × Bytes → Bool := fun d ↦
    decide ((q.voting c).timeout ≤ now.ageOf d.1.toTime)
  refine ⟨ds.takeWhile old, ?_, fun d hd ↦ ?_, fun hsecs t k p hv hold ↦ ?_⟩
  · rw [VoteQueue.oldVotes, hstream, Results.takeWhile_map_ok]
    exact Results.collect_map fun _ _ ↦ rfl
  · exact ⟨(hmem d).mp (List.takeWhile_subset _ hd),
      of_decide_eq_true (List.mem_takeWhile_imp hd : old d = true)⟩
  · have hmono : ds.Pairwise fun d d' ↦ old d' = true → old d = true :=
      (hordered fun d hd ↦ hsecs _ _ _ ((hmem d).mp hd)).imp fun {d d'} hle hold' ↦
        decide_eq_true ((of_decide_eq_true hold').trans (now.ageOf_anti hle))
    exact (mem_takeWhile_iff hmono _).mpr ⟨(hmem _).mpr hv, decide_eq_true hold⟩

/-- The pending changes that are promoted: those whose delay has passed, and, as long as the index
is in the order of time, all of them and in that order. -/
theorem ripePending (h : Represents s L) (hL : L.Sound) (q : QueueId) (c : Config) (now : Time) :
    ∃ es : List (Second × q.Key × q.Value),
      (q.queue c).ripePending now s
        = .ok (es.map fun e ↦ (e.1.toTime, QueueKey.toText e.2.1, e.2.2)) ∧
      (∀ e ∈ es, (L.queue q).pending e.2.1 = some (e.1, e.2.2) ∧
        (q.voting c).delay ≤ now.ageOf e.1.toTime) ∧
      es.Nodup ∧
      ((∀ k t v, (L.queue q).pending k = some (t, v) → 0 ≤ t.secs) →
        (es.Pairwise fun e e' ↦ e.1.secs ≤ e'.1.secs) ∧
        ∀ k t v, (L.queue q).pending k = some (t, v) →
          (q.voting c).delay ≤ now.ageOf t.toTime → (t, k, v) ∈ es) := by
  obtain ⟨es, hstream, hmem, hnodup, hordered⟩ := h.pendingIndexStream hL q c
  let ripe : Second × q.Key × q.Value → Bool := fun e ↦
    decide ((q.voting c).delay ≤ now.ageOf e.1.toTime)
  refine ⟨es.takeWhile ripe, ?_, fun e he ↦ ?_, hnodup.sublist (List.takeWhile_sublist _),
    fun hsecs ↦ ?_⟩
  · rw [VoteQueue.ripePending, hstream, Results.takeWhile_map_ok]
    exact Results.collect_map fun _ _ ↦ rfl
  · exact ⟨(hmem e).mp (List.takeWhile_subset _ he),
      of_decide_eq_true (List.mem_takeWhile_imp he : ripe e = true)⟩
  · have hpair := hordered fun e he ↦ hsecs _ _ _ ((hmem e).mp he)
    have hmono : es.Pairwise fun e e' ↦ ripe e' = true → ripe e = true :=
      hpair.imp fun {e e'} hle hripe' ↦
        decide_eq_true ((of_decide_eq_true hripe').trans (now.ageOf_anti hle))
    exact ⟨hpair.sublist (List.takeWhile_sublist _), fun k t v hv hripe ↦
      (mem_takeWhile_iff hmono _).mpr ⟨(hmem _).mpr hv, decide_eq_true hripe⟩⟩

end Represents

end Felidae
