import Felidae.Chain.QueueOfRun

/-!
# The votes of one key

A queue finds the entries of a key by scans, and every scan stops at the delimiter after the text of
the key. So a cast touches the entries of its own key only, whatever the texts of the others look
like: one may extend the other, and the key of the admin queue is the empty text. Under the key
itself the vote of the party is replaced. The votes of the other parties stay as long as no value
has a quorum, and go together when one has.
-/

namespace Felidae

/-- The votes for a key once a party has voted: those of the others, and the new one. -/
def withVote {K V : Type} (votes : List (Vote K V)) (vote : Vote K V) : List (Vote K V) :=
  votes.filter (fun w ↦ decide (w.party ≠ vote.party)) ++ [vote]

/-- What a cast leaves of the votes for its key: all of them if no value has a quorum among them,
otherwise none. -/
inductive Tallied {K V : Type} [DecidableEq V] (quorum : ℕ) (voted : List (Vote K V)) :
    List (Vote K V) → Prop where
  | waiting {votes : List (Vote K V)} (hvotes : votes.Perm voted)
      (hbelow : ∀ w ∈ voted.map Vote.value, (voted.map Vote.value).count w < quorum) :
      Tallied quorum voted votes
  | cleared (hreached : ∃ w ∈ voted.map Vote.value, quorum ≤ (voted.map Vote.value).count w) :
      Tallied quorum voted []

section Queue

variable [Host]

/-- The two stores differ at most in what a queue holds for a key. -/
structure DifferFor (q : QueueId) (k : q.Key) (s t : Store) : Prop where
  verifiable : ∀ key, (∀ party second, key ≠ (Key.vote q k party second).text) →
    (∀ second, key ≠ (Key.pending q k second).text) → t.verifiable[key]? = s.verifiable[key]?
  nonverifiable : ∀ key, (∀ party second, key ≠ (IndexKey.vote q second k party).bytes) →
    (∀ second, key ≠ (IndexKey.pending q second k).bytes) →
    t.nonverifiable[key]? = s.nonverifiable[key]?

variable [LawfulHost] {q : QueueId} {k : q.Key} {s t : Store} {L L' : Ledger}

namespace DifferFor

/-! ## The other keys -/

omit [LawfulHost] in
/-- A scan that meets no entry of the key. -/
theorem scan (h : DifferFor q k s t) {p : Str}
    (hvote : ∀ party second,
      ¬Substore.internal.prefixed p <+: (Key.vote q k party second).text)
    (hpending : ∀ second, ¬Substore.internal.prefixed p <+: (Key.pending q k second).text) :
    t.scan q.Value .internal p = s.scan q.Value .internal p := by
  have hscan : t.verifiable.scan (Substore.internal.prefixed p)
      = s.verifiable.scan (Substore.internal.prefixed p) := by
    refine PrefixMap.scan_congr fun key hkey ↦ h.verifiable key ?_ ?_
    · rintro party second rfl
      exact hvote party second hkey
    · rintro second rfl
      exact hpending second hkey
  rw [Store.scan, hscan, Store.scan]

variable {k' : q.Key} (c : Config)

/-- The votes of another key are the same. -/
theorem votesForKey (h : DifferFor q k s t) (hk : k' ≠ k) :
    (q.queue c).votesForKey k' t = (q.queue c).votesForKey k' s := by
  rw [VoteQueue.votesForKey, VoteQueue.votesForKey, h.scan]
  · intro party second hprefix
    obtain ⟨_, _, heq⟩ := (votesByKeyPrefix_prefix_iff q c k').mp hprefix
    simp only [Key.vote.injEq, heq_eq_eq, true_and] at heq
    exact hk heq.1.symm
  · intro second hprefix
    obtain ⟨_, _, heq⟩ := (votesByKeyPrefix_prefix_iff q c k').mp hprefix
    cases heq

/-- The pending change of another key is the same. -/
theorem pendingUnder (h : DifferFor q k s t) (hk : k' ≠ k) :
    (q.queue c).pendingUnder (QueueKey.toText k') t
      = (q.queue c).pendingUnder (QueueKey.toText k') s := by
  rw [VoteQueue.pendingUnder, VoteQueue.pendingUnder, h.scan]
  · intro party second hprefix
    obtain ⟨_, heq⟩ := (pendingByKeyPrefix_prefix_iff q c k').mp hprefix
    cases heq
  · intro second hprefix
    obtain ⟨_, heq⟩ := (pendingByKeyPrefix_prefix_iff q c k').mp hprefix
    simp only [Key.pending.injEq, heq_eq_eq, true_and] at heq
    exact hk heq.1.symm

end DifferFor

/-! ## The key itself -/

/-- The entries of a key once a party has voted. -/
def withEntry {V : Type} (es : List (Bytes × Second × V)) (e : Bytes × Second × V) :
    List (Bytes × Second × V) :=
  es.filter (fun x ↦ decide (x.1 ≠ e.1)) ++ [e]

namespace QueueState

variable {K V : Type} {Q : QueueState K V} {k : K} {es : List (Bytes × Second × V)}

omit [Host] [LawfulHost] in
/-- They are the votes of the key once the vote is recorded. -/
theorem mem_withEntry (hes : ∀ x, x ∈ es ↔ Q.votes k x.1 = some x.2)
    (e x : Bytes × Second × V) :
    x ∈ withEntry es e ↔ (Q.record k e.1 e.2.1 e.2.2).votes k x.1 = some x.2 := by
  rw [withEntry, List.mem_append, List.mem_filter, List.mem_singleton, decide_eq_true_iff]
  by_cases hparty : x.1 = e.1
  · rw [hparty, votes_record_self]
    constructor
    · rintro (⟨-, hne⟩ | rfl)
      · exact absurd rfl hne
      · rfl
    · intro hvote
      exact .inr (Prod.ext hparty (Option.some.inj hvote).symm)
  · rw [votes_record_of_ne _ _ _ _ _ fun h ↦ hparty h.2, hes]
    constructor
    · rintro (⟨hvote, -⟩ | rfl)
      · exact hvote
      · exact absurd rfl hparty
    · exact fun hvote ↦ .inl ⟨hvote, hparty⟩

omit [Host] [LawfulHost] in
theorem nodup_withEntry (hnodup : es.Nodup) (e : Bytes × Second × V) : (withEntry es e).Nodup := by
  refine (hnodup.filter _).append (List.nodup_singleton e) fun x hx he ↦ ?_
  obtain rfl := List.mem_singleton.mp he
  exact of_decide_eq_true (List.mem_filter.mp hx).2 rfl

end QueueState

omit [Host] [LawfulHost] in
theorem map_readEntry_withEntry (es : List (Bytes × Second × q.Value))
    (e : Bytes × Second × q.Value) : (withEntry es e).map (q.readEntry k)
      = withVote (es.map (q.readEntry k)) (q.readEntry k e) := by
  rw [withEntry, withVote, List.map_append, List.filter_map]
  refine congrArg (· ++ _) (congrArg _ (List.filter_congr fun x _ ↦ ?_))
  exact decide_eq_decide.mpr (not_congr hexEncode_injective.eq_iff.symm)

namespace Ledger

variable {party : Bytes} {second : Second} {v : q.Value}

omit [Host] [LawfulHost] in
/-- A cast leaves the entries of the other keys in the indexes. -/
theorem Cast.voteIndex_of_ne (h : L.Cast q k party second v L') {k' : q.Key} (hk : k' ≠ k)
    (t : Second) (p : Bytes) : (L'.queue q).voteIndex t k' p = (L.queue q).voteIndex t k' p := by
  have hrecord : ((L.queue q).record k party second v).voteIndex t k' p
      = (L.queue q).voteIndex t k' p :=
    QueueState.voteIndex_record_of_ne _ _ _ _ _ fun h ↦ hk h.2.1
  rcases h.outcome with ⟨rfl, -⟩ | ⟨w, o, -, rfl, -⟩
  · rw [queue_record, hrecord]
  · rw [queue_setPending, queue_clear, queue_record, QueueState.voteIndex_setPending,
      QueueState.voteIndex_clear_of_ne _ _ hk, hrecord]

end Ledger

omit [LawfulHost] in
/-- A cast changes nothing but what its queue holds for its key. -/
theorem Represents.differFor (hs : Represents s L) (ht : Represents t L') {party : Bytes}
    {second : Second} {v : q.Value} (hcast : L.Cast q k party second v L') :
    DifferFor q k s t := by
  obtain ⟨Q, hQ⟩ := hcast.frame
  have hqueue : L'.queue q = Q := by rw [hQ, Ledger.queue_setQueue]
  constructor
  · intro key hvote hpending
    refine hs.verifiable.getElem?_congr ht.verifiable List.nil_prefix fun x hx ↦ ?_
    rw [hQ]
    -- a cast changes nothing under other keys of the queue
    refine Ledger.view_setQueue_of_eq (fun k' p t' hx' ↦ ?_) fun k' t' hx' ↦ ?_
    · have hk : k' ≠ k := by
        rintro rfl
        exact hvote p t' (hx.trans (congrArg Key.text hx'))
      rw [← hqueue, hcast.votes_of_ne hk]
    · have hk : k' ≠ k := by
        rintro rfl
        exact hpending t' (hx.trans (congrArg Key.text hx'))
      rw [← hqueue, hcast.pending_of_ne hk]
  · intro key hvote hpending
    refine hs.nonverifiable.getElem?_congr ht.nonverifiable List.nil_prefix fun x hx ↦ ?_
    rw [hQ]
    refine Ledger.indexView_setQueue_of_eq (fun t' k' p hx' ↦ ?_) fun t' k' hx' ↦ ?_
    · have hk : k' ≠ k := by
        rintro rfl
        exact hvote p t' (hx.trans (congrArg IndexKey.bytes hx'))
      rw [← hqueue, hcast.voteIndex_of_ne hk]
    · have hk : k' ≠ k := by
        rintro rfl
        exact hpending t' (hx.trans (congrArg IndexKey.bytes hx'))
      rw [← hqueue, hcast.pending_of_ne hk]

/-- Keys do not interfere. A cast in any state of a queue, of a value that decodes to itself and
fits its key, changes nothing but what the queue holds for its key, so the votes and the pending
changes of the other keys read as before. The votes for the key are then those of the other parties
and the new one, unless a value has a quorum among these: then there are none. -/
theorem QueueHistory.cast_apart {ms : List (Moment Store (QueueEvent q))}
    (hist : QueueHistory q ms s) {order : IterOrder} {party : Bytes} {v : q.Value}
    (hcast : QueueStep q s (.cast order k party v) t) :
    DifferFor q k s t ∧
    (∀ c k', k' ≠ k → (q.queue c).votesForKey k' t = (q.queue c).votesForKey k' s ∧
      (q.queue c).pendingUnder (QueueKey.toText k') t
        = (q.queue c).pendingUnder (QueueKey.toText k') s) ∧
    ∃ c now votes votes', State.config s = .ok c ∧ State.blockTime s = .ok now ∧
      (q.queue c).votesForKey k s = .ok votes ∧ (q.queue c).votesForKey k t = .ok votes' ∧
      Tallied (q.voting c).quorum.toNat
        (withVote votes ⟨hexEncode party, now.second.toTime, k, v⟩) votes' := by
  obtain ⟨L, hs, hL⟩ := hist.exists_ledger
  obtain ⟨L', hstep, ht⟩ := hcast.outcome hs hL
  have hL' := hstep.sound hL
  cases hstep with
  | @cast _ now _ _ _ _ htime _ _ hcast =>
    have hdiffer := hs.differFor ht hcast
    refine ⟨hdiffer, fun c k' hk ↦ ⟨hdiffer.votesForKey c hk, hdiffer.pendingUnder c hk⟩, ?_⟩
    obtain ⟨es, hes, hmem, hnodup⟩ := hs.votesForKey hL q L.config k
    obtain ⟨es', hes', hmem', hnodup'⟩ := ht.votesForKey hL' q L.config k
    refine ⟨L.config, now, _, _, hs.config, hs.blockTime_eq_ok.mpr htime, hes, hes', ?_⟩
    -- the votes that are tallied, and what the tally says
    have htallied := QueueState.mem_withEntry hmem (party, now.second, v)
    have hnodup_tallied := QueueState.nodup_withEntry hnodup (party, now.second, v)
    have hquorum := QueueState.hasQuorum_iff htallied hnodup_tallied (q.voting L.config).quorum
    have hvalues : ∀ es : List (Bytes × Second × q.Value),
        (es.map (q.readEntry k)).map Vote.value = es.map fun e ↦ e.2.2 := fun es ↦ by
      rw [List.map_map]
      rfl
    have hvoted := map_readEntry_withEntry (k := k) es (party, now.second, v)
    rw [QueueId.readEntry] at hvoted
    rw [← hvoted]
    rcases hcast.outcome with ⟨rfl, hwait⟩ | ⟨w, o, hw, rfl, -⟩
    · refine .waiting (List.Perm.map _ ?_) fun w hw ↦ ?_
      · refine (List.perm_ext_iff_of_nodup hnodup' hnodup_tallied).mpr fun x ↦ ?_
        rw [hmem', htallied, Ledger.queue_record]
      · rw [hvalues] at hw ⊢
        by_contra hle
        exact hwait w ((hquorum w).mpr ⟨hw, Nat.not_lt.mp hle⟩)
    · have hnone : es' = [] := by
        refine List.eq_nil_iff_forall_not_mem.mpr fun x hx ↦ ?_
        rw [hmem', Ledger.queue_setPending, Ledger.queue_clear, QueueState.votes_setPending,
          QueueState.votes_clear_self] at hx
        cases hx
      rw [hnone]
      refine .cleared ⟨w, ?_⟩
      rw [hvalues]
      exact (hquorum w).mp hw

end Queue

namespace Reference

/-- The domain `com`, as a key of the oracle queue. -/
def comKey : PrefixOrderDomain := ⟨com⟩

theorem cast_apart_com : ∃ s t, DifferFor .oracle comKey s t ∧ ∃ c votes votes' vote,
    (QueueId.oracle.queue c).votesForKey comKey s = .ok votes ∧
    (QueueId.oracle.queue c).votesForKey comKey t = .ok votes' ∧
    Tallied (QueueId.oracle.voting c).quorum.toNat (withVote votes vote) votes' := by
  obtain ⟨ms, s, c, hist, -, hconfig, hnow, -⟩ := exists_queueHistory .oracle voting (timeAt 10)
    (by decide) (fun _ ↦ true) (by decide +kernel)
  obtain ⟨hdiffer, -, c, now, votes, votes', -, -, hvotes, hvotes', htallied⟩ :=
    QueueHistory.cast_apart hist (QueueStep.cast (q := .oracle) listed comKey alice hconfig hnow
      (OracleVoteValue.clean ⟨.notFound, ⟨.root⟩⟩)
      (by decide : FQDN.ProperAncestor .root comKey.name))
  exact ⟨s, _, hdiffer, c, votes, votes', _, hvotes, hvotes', htallied⟩

end Reference

end Felidae
