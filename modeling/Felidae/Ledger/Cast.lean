import Felidae.Ledger.Voting
import Felidae.State.Outcome

/-!
# Casting a vote on the ledger

A cast on a store that represents a sound ledger succeeds, and comes to one of the cases of
`Ledger.Cast`. If no two values have a quorum once the vote is recorded, it does not depend on the
order in which the tally is iterated.
-/

open Classical

namespace Felidae

/-- The values of a list of votes, as the tally takes them. -/
theorem values_map {V : Type} (es : List (Bytes × Second × V)) :
    (es.map fun e ↦ (hexEncode e.1, e.2.1.toTime, e.2.2)).map (fun (_, _, value) ↦ value)
      = es.map fun e ↦ e.2.2 :=
  List.map_map

/-! ## The ways to end -/

namespace Ledger

/-- `Enqueue`, by the way it ends. -/
inductive EnqueueEnds (L : Ledger) (q : QueueId) (k : q.Key) (t : Second) (w : q.Value) :
    Outcome q.Value → Ledger → Prop where
  | unchanged {t' : Second} (hpending : (L.queue q).pending k = some (t', w)) :
      EnqueueEnds L q k t w (.unchanged w) L
  | dropped (hpending : ∀ t', (L.queue q).pending k ≠ some (t', w))
      (hadmits : ¬(L.setPending q k none).Admits q k w) :
      EnqueueEnds L q k t w (.dropped w) (L.setPending q k none)
  | enqueued (hpending : ∀ t', (L.queue q).pending k ≠ some (t', w))
      (hadmits : (L.setPending q k none).Admits q k w) :
      EnqueueEnds L q k t w (.enqueued w) (L.setPending q k (some (t, w)))

/-- `Cast`, by the way it ends. -/
inductive CastEnds (L : Ledger) (q : QueueId) (k : q.Key) (party : Bytes) (t : Second)
    (v : q.Value) : Outcome q.Value → Ledger → Prop where
  | waiting
      (hwait : ∀ w,
        ¬((L.record q k party t v).queue q).HasQuorum (q.voting L.config).quorum k w) :
      CastEnds L q k party t v .waiting (L.record q k party t v)
  | won {w : q.Value} {o : Outcome q.Value} {L' : Ledger}
      (hwin : ((L.record q k party t v).queue q).HasQuorum (q.voting L.config).quorum k w)
      (henqueue : ((L.record q k party t v).clear q k).EnqueueEnds q k t w o L') :
      CastEnds L q k party t v o L'

variable {L L' : Ledger} {q : QueueId} {k : q.Key} {party : Bytes} {t : Second} {v w : q.Value}
  {o : Outcome q.Value}

theorem EnqueueEnds.enqueue (h : L.EnqueueEnds q k t w o L') : L.Enqueue q k t w L' := by
  cases h with
  | unchanged hpending => exact .unchanged hpending
  | dropped hpending hadmits => exact .dropped hpending hadmits
  | enqueued hpending hadmits => exact .enqueued hpending hadmits

theorem CastEnds.cast (h : L.CastEnds q k party t v o L') : L.Cast q k party t v L' := by
  cases h with
  | waiting hwait => exact .waiting hwait
  | won hwin henqueue => exact .won hwin henqueue.enqueue

theorem EnqueueEnds.winner (h : L.EnqueueEnds q k t w o L') : o.winner? = some w := by
  cases h <;> rfl

/-- The value that wins has a quorum once the vote is recorded. -/
theorem CastEnds.hasQuorum (h : L.CastEnds q k party t v o L') (hw : o.winner? = some w) :
    ((L.record q k party t v).queue q).HasQuorum (q.voting L.config).quorum k w := by
  cases h with
  | waiting => cases hw
  | won hwin henqueue =>
    obtain rfl := Option.some.inj (henqueue.winner.symm.trans hw)
    exact hwin

end Ledger

/-! ## Soundness -/

namespace Ledger

variable [Host] {L : Ledger}

/-- A queue may be replaced by one whose entries are sound. -/
theorem Sound.setQueue (hL : L.Sound) {q : QueueId} {Q : QueueState q.Key q.Value}
    (hvotes : ∀ k p t v, Q.votes k p = some (t, v) →
      Clean v ∧ q.Fits k v ∧ Q.voteIndex t k p = some v)
    (hpending : ∀ k e, Q.pending k = some e → Clean e.2) : (L.setQueue q Q).Sound := by
  have hsplit : ∀ {P : ∀ q : QueueId, QueueState q.Key q.Value → Prop}, P q Q →
      (∀ q', P q' (L.queue q')) → ∀ q', P q' ((L.setQueue q Q).queue q') := by
    intro P hQ hP q'
    by_cases hq : q' = q
    · subst hq
      rwa [queue_setQueue]
    · rw [queue_setQueue_of_ne _ hq]
      exact hP q'
  exact {
    vote_clean := hsplit (P := fun _ Q ↦ ∀ k p e, Q.votes k p = some e → Clean e.2)
      (fun k p e he ↦ (hvotes k p e.1 e.2 he).1) hL.vote_clean
    pending_clean := hsplit (P := fun _ Q ↦ ∀ k e, Q.pending k = some e → Clean e.2)
      hpending hL.pending_clean
    vote_fits := hsplit (P := fun q Q ↦ ∀ k p e, Q.votes k p = some e → q.Fits k e.2)
      (fun k p e he ↦ (hvotes k p e.1 e.2 he).2.1) hL.vote_fits
    indexed := hsplit (P := fun _ Q ↦ ∀ k p t v, Q.votes k p = some (t, v) →
        Q.voteIndex t k p = some v)
      (fun k p t v he ↦ (hvotes k p t v he).2.2) hL.indexed }

variable {q : QueueId}

theorem Sound.votes (hL : L.Sound) {k : q.Key} {p : Bytes} {t : Second} {v : q.Value}
    (h : (L.queue q).votes k p = some (t, v)) :
    Clean v ∧ q.Fits k v ∧ (L.queue q).voteIndex t k p = some v :=
  ⟨hL.vote_clean q k p _ h, hL.vote_fits q k p _ h, hL.indexed q k p t v h⟩

theorem Sound.record (hL : L.Sound) {k : q.Key} {v : q.Value} (hclean : Clean v)
    (hfits : q.Fits k v) (party : Bytes) (t : Second) :
    (L.record q k party t v).Sound := by
  refine hL.setQueue (fun k' p t' v' he ↦ ?_) (hL.pending_clean q)
  by_cases hkp : k' = k ∧ p = party
  · obtain ⟨rfl, rfl⟩ := hkp
    rw [QueueState.votes_record_self, Option.some_inj, Prod.mk.injEq] at he
    obtain ⟨rfl, rfl⟩ := he
    exact ⟨hclean, hfits, if_pos ⟨rfl, rfl, rfl⟩⟩
  · rw [QueueState.votes_record_of_ne _ _ _ _ _ hkp] at he
    obtain ⟨hc, hf, hi⟩ := hL.votes he
    exact ⟨hc, hf, (if_neg fun h ↦ hkp h.2).trans hi⟩

theorem Sound.clear (hL : L.Sound) (k : q.Key) :
    (L.clear q k).Sound := by
  refine hL.setQueue (fun k' p t v he ↦ ?_) (hL.pending_clean q)
  by_cases hk : k' = k
  · subst hk
    cases (QueueState.votes_clear_self _ _ _).symm.trans he
  · rw [QueueState.votes_clear_of_ne _ _ hk] at he
    obtain ⟨hc, hf, hi⟩ := hL.votes he
    exact ⟨hc, hf, (if_neg fun h ↦ hk h.1).trans hi⟩

theorem Sound.expire (hL : L.Sound) (D : Set (Second × q.Key × Bytes)) :
    (L.setQueue q ((L.queue q).expire D)).Sound := by
  refine hL.setQueue (fun k p t v he ↦ ?_) (hL.pending_clean q)
  obtain ⟨he, hD⟩ := (QueueState.votes_expire_eq_some _ _ _).mp he
  obtain ⟨hc, hf, hi⟩ := hL.votes he
  exact ⟨hc, hf, (if_neg hD).trans hi⟩

theorem Sound.setPending (hL : L.Sound) (k : q.Key) {o : Option (Second × q.Value)}
    (ho : ∀ e, o = some e → Clean e.2) :
    (L.setPending q k o).Sound := by
  refine hL.setQueue (fun k' p t v he ↦ hL.votes he) fun k' e he ↦ ?_
  by_cases hk : k' = k
  · subst hk
    rw [QueueState.pending_setPending_self] at he
    exact ho e he
  · rw [QueueState.pending_setPending_of_ne _ _ _ hk] at he
    exact hL.pending_clean q k' e he

theorem Sound.promote (hL : L.Sound) (D : Set q.Key) :
    (L.setQueue q ((L.queue q).promote D)).Sound :=
  hL.setQueue (fun _ _ _ _ he ↦ hL.votes he) fun k e he ↦
    hL.pending_clean q k e ((QueueState.pending_promote_eq_some _ _).mp he).1

end Ledger

/-! ## Counting -/

namespace QueueState

variable {K V : Type} [DecidableEq V] {Q : QueueState K V} {k : K}
  {es : List (Bytes × Second × V)}

/-- The tally counts parties: the votes under a key are one for each party. -/
theorem encard_supporters (hes : ∀ e, e ∈ es ↔ Q.votes k e.1 = some e.2) (hnodup : es.Nodup)
    (w : V) : (Q.supporters k w).encard = ((es.map fun e ↦ e.2.2).count w : ℕ∞) := by
  let voters : List Bytes := (es.filter fun e ↦ decide (e.2.2 = w)).map Prod.fst
  have hset : Q.supporters k w = (voters.toFinset : Set Bytes) := by
    ext p
    rw [Finset.mem_coe, List.mem_toFinset, List.mem_map]
    constructor
    · rintro ⟨t, ht⟩
      exact ⟨(p, t, w), List.mem_filter.mpr ⟨(hes _).mpr ht, decide_eq_true rfl⟩, rfl⟩
    · rintro ⟨e, he, rfl⟩
      obtain ⟨hmem, hw⟩ := List.mem_filter.mp he
      refine ⟨e.2.1, ?_⟩
      rw [(hes e).mp hmem, ← of_decide_eq_true hw]
  have hvoters : voters.Nodup := by
    refine List.Nodup.map_on (fun e he e' he' hp ↦ ?_) (hnodup.filter _)
    have hv := (hes e).mp (List.mem_of_mem_filter he)
    rw [hp, (hes e').mp (List.mem_of_mem_filter he'), Option.some_inj] at hv
    exact Prod.ext hp hv.symm
  have hlen : voters.length = (es.map fun e ↦ e.2.2).count w := by
    rw [List.length_map, List.count_eq_countP, List.countP_map, List.countP_eq_length_filter]
    rfl
  rw [hset, Set.encard_coe_eq_coe_finsetCard, List.toFinset_card_of_nodup hvoters, hlen]

theorem hasQuorum_iff (hes : ∀ e, e ∈ es ↔ Q.votes k e.1 = some e.2) (hnodup : es.Nodup)
    (quorum : UInt64) (w : V) : Q.HasQuorum quorum k w ↔
      w ∈ es.map (fun e ↦ e.2.2) ∧ quorum.toNat ≤ (es.map fun e ↦ e.2.2).count w := by
  rw [HasQuorum, encard_supporters hes hnodup, Nat.cast_le]
  refine and_congr_left fun _ ↦ ?_
  rw [List.mem_map]
  constructor
  · rintro ⟨p, t, ht⟩
    exact ⟨(p, t, w), (hes _).mpr ht, rfl⟩
  · rintro ⟨e, he, rfl⟩
    exact ⟨e.1, e.2.1, (hes e).mp he⟩

end QueueState

/-! ## The code's cast -/

section Limit

variable [Host] {d r : PrefixOrderDomain} {v : OracleVoteValue}

/-- A value of the oracle queue is decoded as it was encoded. -/
theorem State.recomputedDomain_eq [LawfulHost] (d : PrefixOrderDomain) (v : OracleVoteValue) :
    recomputedDomain d v = (registeredDomain d.name v.zone.name).map some := by
  have hclean : (DomainType.ofStored (DomainType.toStored v) : Except Fault OracleVoteValue)
      = .ok v := OracleVoteValue.clean v
  rw [recomputedDomain, hclean]

/-- The limit is checked for the domain that is computed from the key and the value. -/
theorem VoteQueue.withinSubdomainLimit_eq [LawfulHost]
    (h : State.recomputedDomain d v = .ok (some r)) (c : Config) (s : Store) :
    (QueueId.oracle.queue c).withinSubdomainLimit (QueueKey.toText d) v s
      = State.passes (State.checkSubdomainLimitBeforePendingExact d r s) := by
  have hprefix : (QueueId.oracle.queue c).internalStatePrefix = "oracle_voting/".toList := rfl
  have hparse : PrefixOrderDomain.fromStr (QueueKey.toText d) = some d :=
    PrefixOrderDomain.fromStr_display d
  rw [VoteQueue.withinSubdomainLimit, if_pos hprefix, hparse]
  have hdomain : State.recomputedDomain (V := QueueId.oracle.Value) d v = .ok (some r) := h
  simp only [hdomain, except_ok_bind]

end Limit

namespace Represents

variable [Host] [LawfulHost] {s : Store} {L : Ledger}

/-- The limit check asks whether the value may become pending. -/
theorem withinSubdomainLimit (h : Represents s L) (hL : L.Sound) (q : QueueId) (c : Config)
    {k : q.Key} {w : q.Value} (hfits : q.Fits k w) :
    (q.queue c).withinSubdomainLimit (QueueKey.toText k) w s
      = .ok (decide (L.Admits q k w)) := by
  cases q with
  | admin =>
    have hprefix : (QueueId.admin.queue c).internalStatePrefix ≠ "oracle_voting/".toList := by
      change QueueId.admin.base ++ ['/'] ≠ _
      decide
    rw [VoteQueue.withinSubdomainLimit, if_neg hprefix,
      decide_eq_true (by exact trivial : L.Admits .admin k w)]
  | oracle =>
    have hdomain : State.recomputedDomain k w
        = .ok (some ⟨FQDN.registered k.name w.zone.name⟩) := by
      rw [State.recomputedDomain_eq, State.registeredDomain_eq hfits]
      rfl
    rw [VoteQueue.withinSubdomainLimit_eq hdomain]
    rcases h.checkSubdomainLimit hL k (r := ⟨FQDN.registered k.name w.zone.name⟩)
        (FQDN.registered_labels_ne_nil hfits) with ⟨hwithin, hcheck⟩ | ⟨hwithin, e, he, hcheck⟩
    · rw [hcheck, decide_eq_true (by exact hwithin : L.Admits .oracle k w)]
      rfl
    · rw [hcheck, decide_eq_false (by exact hwithin : ¬L.Admits .oracle k w)]
      cases e with
      | panic m => exact absurd he id
      | reject m | corrupt m => rfl

theorem enqueueOutcome (h : Represents s L) (hL : L.Sound) (q : QueueId) (c : Config) (k : q.Key)
    (time : Time) {w : q.Value} (hfits : q.Fits k w) :
    ∃ o t L', (q.queue c).enqueueOutcome (QueueKey.toText k) time w s = (.ok o, t) ∧
      Represents t L' ∧ L.EnqueueEnds q k time.second w o L' := by
  rw [VoteQueue.enqueueOutcome, Exec.read_bind_of_ok (h.pendingUnder hL q c k)]
  by_cases hpending : ∃ t', (L.queue q).pending k = some (t', w)
  · obtain ⟨t', ht'⟩ := hpending
    refine ⟨.unchanged w, s, L, ?_, h, .unchanged ht'⟩
    rw [if_pos (by rw [ht']; simp)]
    rfl
  · have hpending' : ∀ t', (L.queue q).pending k ≠ some (t', w) := not_exists.mp hpending
    obtain ⟨r, hdelete, hr⟩ := h.deletePending q c k
    have hwithin := hr.withinSubdomainLimit (hL.setPending k fun _ he ↦ by cases he) q c hfits
    rw [if_neg ?_, Exec.bind_of_ok hdelete, Exec.read_bind_of_ok hwithin]
    · by_cases hadmits : (L.setPending q k none).Admits q k w
      · have hput := hr.putPending q c (k := k) (by simp [Ledger.setPending]) time w
        refine ⟨.enqueued w, _, _, ?_, hput, ?_⟩
        · rw [if_pos (decide_eq_true hadmits)]
          rfl
        · have := Ledger.EnqueueEnds.enqueued hpending' hadmits (t := time.second)
          simpa [Ledger.setPending, QueueState.setPending] using this
      · refine ⟨.dropped w, r, _, ?_, hr, .dropped hpending' hadmits⟩
        rw [if_neg (by simpa using hadmits)]
        rfl
    · rw [List.any_eq_true]
      rintro ⟨e, he, hw⟩
      obtain ⟨e', he', rfl⟩ := List.mem_map.mp he
      exact hpending' e'.1 (by rw [Option.mem_toList.mp he', ← of_decide_eq_true hw])

/-- A cast succeeds, and its label says which case it is. -/
theorem castOutcome (h : Represents s L) (hL : L.Sound) (q : QueueId) (order : IterOrder)
    (k : q.Key) (party : Bytes) (time : Time) {v : q.Value} (hclean : Clean v)
    (hfits : q.Fits k v) :
    ∃ o t L', (q.queue L.config).castOutcome order ⟨hexEncode party, time, k, v⟩ s = (.ok o, t) ∧
      Represents t L' ∧ L.CastEnds q k party time.second v o L' := by
  obtain ⟨r, hreplace, hr⟩ := h.replaceVote hL q L.config k party time v
  have hrL := hL.record hclean hfits party time.second
  obtain ⟨es, hes, hmem, hnodup⟩ := hr.votesUnder hrL q L.config k
  have hquorum := fun w ↦ QueueState.hasQuorum_iff hmem hnodup (q.voting L.config).quorum w
  rw [VoteQueue.castOutcome, Exec.bind_of_ok hreplace, Exec.read_bind_of_ok hes, values_map]
  rcases hwin : winner order (q.queue L.config).config.quorum (tally (es.map fun e ↦ e.2.2)) with _
    | w
  · rw [hwin]
    refine ⟨.waiting, r, _, rfl, hr, .waiting fun w hw ↦ ?_⟩
    obtain ⟨hw, hle⟩ := (hquorum w).mp hw
    exact absurd (winner_eq_none hwin hw) (Nat.not_lt.mpr hle)
  · rw [hwin]
    have hw := (hquorum w).mpr (winner_eq_some hwin)
    obtain ⟨e, he, hew⟩ := List.mem_map.mp (winner_eq_some hwin).1
    have hvote := (hmem e).mp he
    obtain ⟨u, hclear, hu⟩ := hr.clearVotes q L.config k hmem
    obtain ⟨o, t, L', henqueue, ht, hcase⟩ := hu.enqueueOutcome (hrL.clear k) q L.config k time
      (hew ▸ hrL.vote_fits q k e.1 e.2 hvote)
    refine ⟨o, t, L', ?_, ht, .won hw hcase⟩
    exact (Exec.bind_of_ok hclear).trans henqueue

/-- A cast succeeds, and the winner it picks decides which case it is. -/
theorem cast (h : Represents s L) (hL : L.Sound) (q : QueueId) (order : IterOrder) (k : q.Key)
    (party : Bytes) (time : Time) {v : q.Value} (hclean : Clean v) (hfits : q.Fits k v) :
    ∃ t L', (q.queue L.config).cast order ⟨hexEncode party, time, k, v⟩ s = (.ok (), t) ∧
      Represents t L' ∧ L.Cast q k party time.second v L' := by
  obtain ⟨o, t, L', hcast, ht, hends⟩ := h.castOutcome hL q order k party time hclean hfits
  exact ⟨t, L', by rw [VoteQueue.cast_eq, Exec.forget_of_ok hcast], ht, hends.cast⟩

/-- If at most one value has a quorum once the vote is recorded, all orders of iteration agree. -/
theorem cast_congr (h : Represents s L) (hL : L.Sound) (q : QueueId) (order order' : IterOrder)
    (k : q.Key) (party : Bytes) (time : Time) {v : q.Value} (hclean : Clean v)
    (hfits : q.Fits k v)
    (hone : ∀ w w', ((L.record q k party time.second v).queue q).HasQuorum
        (q.voting L.config).quorum k w →
      ((L.record q k party time.second v).queue q).HasQuorum (q.voting L.config).quorum k w' →
        w = w') :
    (q.queue L.config).cast order ⟨hexEncode party, time, k, v⟩ s
      = (q.queue L.config).cast order' ⟨hexEncode party, time, k, v⟩ s := by
  obtain ⟨r, hreplace, hr⟩ := h.replaceVote hL q L.config k party time v
  obtain ⟨es, hes, hmem, hnodup⟩ :=
    hr.votesUnder (hL.record hclean hfits party time.second) q L.config k
  have hquorum := fun w ↦ QueueState.hasQuorum_iff hmem hnodup (q.voting L.config).quorum w
  have hwinner : winner order (q.queue L.config).config.quorum (tally (es.map fun e ↦ e.2.2))
      = winner order' (q.queue L.config).config.quorum (tally (es.map fun e ↦ e.2.2)) :=
    winner_congr fun w hw w' hw' hle hle' ↦
      hone w w' ((hquorum w).mpr ⟨hw, hle⟩) ((hquorum w').mpr ⟨hw', hle'⟩)
  rw [VoteQueue.cast, VoteQueue.cast, Exec.bind_of_ok hreplace, Exec.bind_of_ok hreplace,
    Exec.read_bind_of_ok hes, Exec.read_bind_of_ok hes, values_map, hwinner]

end Represents

end Felidae
