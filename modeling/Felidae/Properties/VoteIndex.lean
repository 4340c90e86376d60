import Felidae.Chain.QueueOfRun

/-!
# The index of the votes

Votes expire by their index, so what is indexed is what can expire. Every vote is indexed under its
second. The converse fails in one case only: a party that replaces its vote in a later second
leaves the index entry of the old vote behind. Such an entry names a second in which the party has
no vote any more, so expiry is exact nevertheless.
-/

open Classical

namespace Felidae

/-! ## Exact indexes -/

namespace QueueState

variable {K V : Type} {Q : QueueState K V}

/-- The index holds an entry for each vote, and no other entries. -/
def Exact (Q : QueueState K V) : Prop :=
  ∀ t k p, (Q.voteIndex t k p).isSome ↔ (heldAt (Q.votes k p) t).isSome

/-- A vote that does not replace one of another second. -/
theorem Exact.record (hQ : Q.Exact) {k : K} {party : Bytes} {t : Second} (v : V)
    (hsame : ∀ e, Q.votes k party = some e → e.1 = t) : (Q.record k party t v).Exact := by
  intro t' k' p
  by_cases hkp : k' = k ∧ p = party
  · obtain ⟨rfl, rfl⟩ := hkp
    rw [votes_record_self]
    by_cases ht : t' = t
    · subst ht
      simp [QueueState.record, heldAt]
    · rw [voteIndex_record_of_ne _ _ _ _ _ fun h ↦ ht h.1, hQ t' k' p]
      refine iff_of_false (fun hheld ↦ ?_) (by simp [heldAt, Ne.symm ht])
      obtain ⟨w, hw⟩ := Option.isSome_iff_exists.mp hheld
      exact ht (hsame _ (heldAt_eq_some.mp hw))
  · rw [votes_record_of_ne _ _ _ _ _ hkp, voteIndex_record_of_ne _ _ _ _ _ fun h ↦ hkp h.2]
    exact hQ t' k' p

theorem Exact.clear (hQ : Q.Exact) (k : K) : (Q.clear k).Exact := by
  intro t k' p
  by_cases hk : k' = k
  · subst hk
    rw [votes_clear_self]
    refine iff_of_false (fun hsome ↦ ?_) (by simp [heldAt])
    have hheld := (hQ t k' p).mp (voteIndex_of_clear Q hsome)
    rw [QueueState.clear] at hsome
    simp [hheld] at hsome
  · rw [votes_clear_of_ne _ _ hk, ← hQ t k' p]
    simp [QueueState.clear, hk]

theorem Exact.expire (hQ : Q.Exact) (D : Set (Second × K × Bytes)) : (Q.expire D).Exact := by
  intro t k p
  rw [heldAt_expire]
  by_cases hD : (t, k, p) ∈ D
  · simp [QueueState.expire, hD]
  · rw [if_neg hD, ← hQ t k p]
    simp [QueueState.expire, hD]

end QueueState

section Queue

variable [Host]

/-! ## Votes and index -/

/-- The votes and their index hold the same entries, one for each key and party at most. -/
structure VotesIndexed (q : QueueId) (c : Config) (s : Store) : Prop where
  entries : ∃ votes index, (q.queue c).voteEntries s = .ok votes ∧
    (q.queue c).voteIndexEntries s = .ok index ∧ votes.Perm index ∧ (votes.map Prod.snd).Nodup

/-- A cast at a moment replaces a vote of its party for its key, and that vote was made in another
second. -/
def ReplacesOlder {q : QueueId} (m : Moment Store (QueueEvent q)) : Prop :=
  ∃ order k party v now second, m.event = .cast order k party v ∧
    State.blockTime m.before = .ok now ∧ second ≠ now.second ∧
    (m.before.verifiable[(Key.vote q k party second).text]?).isSome

section Index

variable {q : QueueId} {L L' : Ledger}

namespace Ledger

/-- A step keeps the index exact, unless a vote of another second is replaced. -/
theorem QueueStep.exact {e : QueueEvent q} (h : L.QueueStep q e L') (hL : (L.queue q).Exact)
    (hsame : ∀ order k party v now x, e = .cast order k party v → L.time = some now →
      (L.queue q).votes k party = some x → x.1 = now.second) : (L'.queue q).Exact := by
  cases h with
  | @cast _ now order k party v htime _ _ hcast =>
    have hrecord := hL.record v fun x hx ↦ hsame order k party v now x rfl htime hx
    rcases hcast.outcome with ⟨rfl, -⟩ | ⟨w, o, -, rfl, -⟩
    · rwa [queue_record]
    · rw [queue_setPending, queue_clear, queue_record]
      exact hrecord.clear k
  | expired =>
    rw [expire, queue_setQueue]
    exact hL.expire _
  | promoted =>
    rw [queue_promote]
    exact hL
  | elsewhere hqueue _ _ => rwa [hqueue]

/-- When a vote of another second is replaced its index entry stays. -/
theorem QueueStep.not_exact {order : IterOrder} {k : q.Key} {party : Bytes} {v w : q.Value}
    {now : Time} {second : Second} (h : L.QueueStep q (.cast order k party v) L') (hL : L.Sound)
    (hnow : L.time = some now) (hw : (L.queue q).votes k party = some (second, w))
    (hne : second ≠ now.second) : ¬(L'.queue q).Exact := by
  intro hexact
  cases h with
  | cast htime _ _ hcast =>
    obtain rfl := Option.some.inj (hnow.symm.trans htime)
    have hindex : ((L.queue q).record k party now.second v).voteIndex second k party = some w := by
      rw [QueueState.voteIndex_record_of_ne _ _ _ _ _ fun h ↦ hne h.1,
        hL.indexed q k party second w hw]
    have hheld : heldAt (((L.queue q).record k party now.second v).votes k party) second
        = none := by
      rw [QueueState.votes_record_self]
      simp [heldAt, hne.symm]
    rcases hcast.outcome with ⟨rfl, -⟩ | ⟨w', o, -, rfl, -⟩
    · have hsome := (hexact second k party).mp (by rw [queue_record, hindex]; rfl)
      rw [queue_record, hheld] at hsome
      cases hsome
    · -- clearing removes the index entries of the votes that are there
      have hsome := (hexact second k party).mp (by
        rw [queue_setPending, queue_clear, queue_record, QueueState.voteIndex_setPending,
          QueueState.voteIndex_clear_of_heldAt_eq_none _ _ hheld, hindex]
        rfl)
      rw [queue_setPending, queue_clear, queue_record, QueueState.votes_setPending,
        QueueState.votes_clear_self] at hsome
      cases hsome

end Ledger

variable [LawfulHost] {s : Store}

/-- In the ledger: the index is exact. -/
theorem Represents.votesIndexed_iff_exact (hs : Represents s L) (hL : L.Sound) :
    (∀ c, VotesIndexed q c s) ↔ (L.queue q).Exact := by
  -- both scans read the ledger, whatever config the queue was made with
  have hentries : ∀ c, ∃ votes index : List (Second × q.Key × Bytes), (q.queue c).voteEntries s =
    .ok (votes.map q.readVote) ∧
      (q.queue c).voteIndexEntries s = .ok (index.map q.readVote) ∧
      ((votes.map q.readVote).map Prod.snd).Nodup ∧
      (votes.Perm index ↔ (L.queue q).Exact) := by
    intro c
    obtain ⟨votes, hvotes, hmem, hnodup⟩ := hs.voteEntries q c hL
    obtain ⟨index, hindex, hmem', hnodup'⟩ := hs.voteIndexEntries q c
    refine ⟨votes, index, hvotes, hindex, ?_, ?_⟩
    · have hsnd : (votes.map q.readVote).map Prod.snd
          = (votes.map Prod.snd).map fun e ↦ (QueueKey.toText e.1, hexEncode e.2) := by
        rw [List.map_map, List.map_map]
        rfl
      rw [hsnd]
      refine hnodup.map ?_
      rintro ⟨k, p⟩ ⟨k', p'⟩ heq
      obtain ⟨hkey, hparty⟩ := Prod.mk.inj heq
      exact Prod.ext (q.toText_injective hkey) (hexEncode_injective hparty)
    -- neither repeats anything, so membership decides
    · rw [List.perm_ext_iff_of_nodup (List.Nodup.of_map _ hnodup) hnodup']
      have hheld : ∀ t k p, (t, k, p) ∈ votes ↔ (heldAt ((L.queue q).votes k p) t).isSome := by
        intro t k p
        rw [hmem, Option.isSome_iff_exists]
        simp only [heldAt_eq_some]
      constructor
      · intro h t k p
        rw [← hmem', ← h, hheld]
      · rintro h ⟨t, k, p⟩
        rw [hheld, hmem', h]
  constructor
  · intro h
    obtain ⟨votes, index, hvotes, hindex, -, hperm⟩ := hentries State.defaultConfig
    obtain ⟨votes', index', hvotes', hindex', hperm', -⟩ := (h State.defaultConfig).entries
    obtain rfl := Except.ok.inj (hvotes.symm.trans hvotes')
    obtain rfl := Except.ok.inj (hindex.symm.trans hindex')
    exact hperm.mp ((List.map_perm_map_iff q.readVote_injective).mp hperm')
  · intro h c
    obtain ⟨votes, index, hvotes, hindex, hnodup, hperm⟩ := hentries c
    exact ⟨_, _, hvotes, hindex, (hperm.mpr h).map _, hnodup⟩

omit [LawfulHost] in
/-- What a vote replaces, in the ledger. -/
theorem Represents.isSome_vote_iff (hs : Represents s L) {k : q.Key} {party : Bytes}
    {second : Second} : (s.verifiable[(Key.vote q k party second).text]?).isSome ↔
      ∃ w, (L.queue q).votes k party = some (second, w) := by
  have hget := hs.verifiable.get (.vote q k party second)
  rw [List.nil_append] at hget
  rw [hget, Ledger.view, Option.isSome_map, Option.isSome_iff_exists]
  simp only [heldAt_eq_some]

/-- In all states of a run the votes and their index agree, if and only if no vote is replaced in
a later second. What is cast is assumed to decode to itself and to fit its key. -/
theorem QueueHistory.votesIndexed_iff {ms : List (Moment Store (QueueEvent q))}
    (hist : QueueHistory q ms s) :
    (∀ t, t = s ∨ (∃ m ∈ ms, m.before = t) → ∀ c, VotesIndexed q c t) ↔
      ∀ m ∈ ms, ¬ReplacesOlder m := by
  -- an index stays exact as long as no vote takes the place of an older one
  have hexact : ∀ {ms s}, QueueHistory q ms s → (∀ m ∈ ms, ¬ReplacesOlder m) →
      ∀ c, VotesIndexed q c s := by
    intro ms s hist hnone
    obtain ⟨L, hs, hL, hexact⟩ := hist.invariant (I := fun L ↦ (L.queue q).Exact)
      (fun L _ hempty t k p ↦ by rw [hempty.voteIndex, hempty.votes]; rfl)
      fun m hm L L' hs _ hL hstep ↦ hstep.exact hL fun order k party v now x hevent hnow hx ↦ by
        by_contra hne
        exact hnone m hm ⟨order, k, party, v, now, x.1, hevent, hs.blockTime_eq_ok.mpr hnow, hne,
          hs.isSome_vote_iff.mpr ⟨x.2, hx⟩⟩
    exact (hs.votesIndexed_iff_exact hL).mpr hexact
  constructor
  · rintro h m hm ⟨order, k, party, v, now, second, hevent, hnow, hne, hvote⟩
    have hafter : ∀ c, VotesIndexed q c m.after := by
      rcases History.after_of_mem hist hm with hlast | hnext
      · exact h _ (.inl hlast)
      · exact h _ (.inr hnext)
    obtain ⟨newer, older, rfl⟩ := List.append_of_mem hm
    obtain ⟨hbefore, hstep⟩ := History.split hist
    obtain ⟨L, hs, hL⟩ := QueueHistory.exists_ledger hbefore
    obtain ⟨L', hL', ht⟩ := hstep.outcome hs hL
    rw [hevent] at hL'
    obtain ⟨w, hw⟩ := hs.isSome_vote_iff.mp hvote
    exact hL'.not_exact hL (hs.blockTime_eq_ok.mp hnow) hw hne
      ((ht.votesIndexed_iff_exact (hL'.sound hL)).mp hafter)
  · rintro h t (rfl | ⟨m, hm, rfl⟩)
    · exact hexact hist h
    · obtain ⟨newer, older, rfl⟩ := List.append_of_mem hm
      exact hexact hist.split.1 fun x hx ↦
        h x (List.mem_append_right _ (List.mem_cons_of_mem _ hx))

end Index

/-! ## Expiry -/

/-- An expiry at time `now` with the given timeout leads from one store to the other: the votes that
are old enough are gone, with the entries of the index that are, and everything else stays. -/
structure Expires (q : QueueId) (timeout : Duration) (now : Time) (s t : Store) : Prop where
  votes : ∀ k party second, t.verifiable[(Key.vote q k party second).text]?
    = if Elapsed timeout now second then none else s.verifiable[(Key.vote q k party second).text]?
  index : ∀ k party second, t.nonverifiable[(IndexKey.vote q second k party).bytes]?
    = if Elapsed timeout now second then none
      else s.nonverifiable[(IndexKey.vote q second k party).bytes]?
  others : ∀ key, (∀ k party second, key ≠ (Key.vote q k party second).text) →
    t.verifiable[key]? = s.verifiable[key]?
  otherIndexes : ∀ key, (∀ k party second, key ≠ (IndexKey.vote q second k party).bytes) →
    t.nonverifiable[key]? = s.nonverifiable[key]?

variable [LawfulHost] {q : QueueId} {s t : Store} {L : Ledger}

omit [Host] [LawfulHost] in
/-- In a dated queue the index entries that go are those whose timeout has elapsed. -/
theorem Ledger.Expiring.mem_iff {now : Time} {D : Set (Second × q.Key × Bytes)}
    (h : L.Expiring q now D) (hL : L.Dated q) (hnow : L.time = some now) {second : Second}
    {k : q.Key} {party : Bytes} (hsome : ((L.queue q).voteIndex second k party).isSome) :
    (second, k, party) ∈ D ↔ Elapsed (q.voting L.config).timeout now second := by
  rw [(hL.voteIndex second k party hsome).elapsed_iff hnow]
  exact ⟨h.old _, h.complete (fun t k p hx ↦ (hL.voteIndex t k p hx).1) second k party hsome⟩

/-- Expiry is exact in every state of a queue whose block times are from 1970 on, with whatever
timeout is in force, if what is cast decodes to itself and fits its key. -/
theorem QueueHistory.expires_exactly {ms : List (Moment Store (QueueEvent q))}
    (hist : QueueHistory q ms s) (hepoch : ∀ m ∈ ms, ∀ now,
      State.blockTime m.before = .ok now → 0 ≤ now.unixTimestamp)
    {c : Config} {now : Time} (hconfig : State.config s = .ok c)
    (hnow : State.blockTime s = .ok now) :
    ∃ t, (q.queue c).timeoutExpiredVotes s = (.ok (), t) ∧
      Expires q (q.voting c).timeout now s t := by
  obtain ⟨L, hs, hL, hdated⟩ := hist.exists_dated hepoch
  obtain rfl := Except.ok.inj (hs.config.symm.trans hconfig)
  have htime := hs.blockTime_eq_ok.mp hnow
  obtain ⟨D, t, hrun, ht, hexpiring⟩ := hs.timeoutExpiredVotes q htime
  refine ⟨t, hrun, fun k party second ↦ ?_, fun k party second ↦ ?_, fun key hkey ↦ ?_,
    fun key hkey ↦ ?_⟩
  · have hbefore := hs.verifiable.get (.vote q k party second)
    have hafter := ht.verifiable.get (.vote q k party second)
    rw [List.nil_append] at hbefore hafter
    rw [hbefore, hafter, Ledger.view, Ledger.view, Ledger.expire, Ledger.queue_setQueue,
      QueueState.heldAt_expire]
    rcases hv : heldAt ((L.queue q).votes k party) second with _ | v
    · simp
    · -- a vote is indexed under its second, so it goes if its time has come
      have hindexed := hL.indexed q k party second v (heldAt_eq_some.mp hv)
      simp only [hexpiring.mem_iff hdated htime (by rw [hindexed]; rfl)]
      split_ifs <;> rfl
  · have hbefore := hs.nonverifiable.get (.vote q second k party)
    have hafter := ht.nonverifiable.get (.vote q second k party)
    rw [List.nil_append] at hbefore hafter
    rw [hbefore, hafter, Ledger.indexView, Ledger.indexView, Ledger.expire,
      Ledger.queue_setQueue, QueueState.voteIndex_expire]
    rcases hv : (L.queue q).voteIndex second k party with _ | v
    · simp
    · simp only [hexpiring.mem_iff hdated htime (by rw [hv]; rfl)]
      split_ifs <;> rfl
  · refine hs.verifiable.getElem?_congr ht.verifiable List.nil_prefix fun x hx ↦
      Ledger.view_setQueue_of_eq ?_ fun _ _ _ ↦ rfl
    rintro k party second rfl
    exact absurd hx (hkey k party second)
  · refine hs.nonverifiable.getElem?_congr ht.nonverifiable List.nil_prefix fun x hx ↦
      Ledger.indexView_setQueue_of_eq ?_ fun _ _ _ ↦ rfl
    rintro second k party rfl
    exact absurd hx (hkey k party second)

end Queue

namespace Reference

/-- Two oracles decide. One of them observes a domain, and observes it again five seconds later. -/
def replacing : List FinalizeBlock :=
  [blockAt 3 10 [observeOtherByAlice], blockAt 2 5 [observeByAlice], blockAt 1 0 [foundPair]]

/-- How many votes are stored in the oracle queue. -/
def countVotes (s : Store) : Option ℕ :=
  ((QueueId.oracle.queue State.defaultConfig).voteEntries s).toOption.map List.length

theorem votesIndexed_voting : ∃ ms s, QueueHistory .oracle ms s ∧ countVotes s = some 1 ∧
    ((∀ t, t = s ∨ (∃ m ∈ ms, m.before = t) → ∀ c, VotesIndexed .oracle c t) ↔
      ∀ m ∈ ms, ¬ReplacesOlder m) := by
  obtain ⟨ms, s, -, hist, -, -, -, hcount⟩ := exists_queueHistory .oracle voting (timeAt 10)
    (by decide) (fun s ↦ decide (countVotes s = some 1)) (by decide +kernel)
  exact ⟨ms, s, hist, of_decide_eq_true hcount, QueueHistory.votesIndexed_iff hist⟩

theorem not_votesIndexed_replacing : ∃ moments ms s, Run genesis replacing moments s ∧
    QueueHistory .oracle ms s ∧ ¬∀ c, VotesIndexed .oracle c s := by
  obtain ⟨moments, s, hrun, htest⟩ := exists_run_of_any genesis listed replacing
    (fun r ↦ decide (countVotes r.2 = some 1) &&
      decide (((QueueId.oracle.queue State.defaultConfig).voteIndexEntries r.2).toOption.map
        List.length = some 2)) (by decide +kernel)
  obtain ⟨ms, hist, -⟩ := hrun.exists_queueHistory .oracle
  refine ⟨moments, ms, s, hrun, hist, fun hindexed ↦ ?_⟩
  obtain ⟨votes, index, hvotes, hindex, hperm, -⟩ := (hindexed State.defaultConfig).entries
  simp only [countVotes, hvotes, hindex, Bool.and_eq_true, decide_eq_true_eq] at htest
  have hone : votes.length = 1 := Option.some.inj htest.1
  have htwo : index.length = 2 := Option.some.inj htest.2
  exact absurd (hone.symm.trans (hperm.length_eq.trans htwo)) (by decide)

/-- A vote that has been stored for ten seconds times out. -/
theorem expires_exactly_voting : ∃ s c now t, countVotes s = some 1 ∧ countVotes t = some 0 ∧
    (QueueId.oracle.queue c).timeoutExpiredVotes s = (.ok (), t) ∧
      Expires .oracle (QueueId.oracle.voting c).timeout now s t := by
  obtain ⟨ms, s, c, hist, hepoch, hconfig, hnow, htest⟩ :=
    exists_queueHistory .oracle voting (timeAt 20) (by decide)
      (fun s ↦ decide (countVotes s = some 1) &&
        (State.config s).toOption.any fun c ↦
          decide (countVotes ((QueueId.oracle.queue c).timeoutExpiredVotes s).2 = some 0))
      (by decide +kernel)
  obtain ⟨t, hrun, hexpires⟩ := QueueHistory.expires_exactly hist hepoch hconfig hnow
  rw [hconfig] at htest
  obtain ⟨hbefore, hafter⟩ := Bool.and_eq_true_iff.mp htest
  have hafter : countVotes ((QueueId.oracle.queue c).timeoutExpiredVotes s).2 = some 0 :=
    of_decide_eq_true hafter
  rw [hrun] at hafter
  exact ⟨s, c, _, t, of_decide_eq_true hbefore, hafter, hrun, hexpires⟩

end Reference

end Felidae
