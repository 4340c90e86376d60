import Felidae.Ledger.Registers

/-!
# Voting on the ledger

The parts of a cast, and what the whole can come to. `Ledger.Cast` leaves open which of several
values with a quorum wins, since that may depend on the order in which the tally is iterated.
-/

open Classical

namespace Felidae

/-! ## What a cast can come to -/

namespace QueueState

variable {K V : Type}

/-- The parties with a vote for a value under a key. -/
def supporters (Q : QueueState K V) (k : K) (v : V) : Set Bytes := {p | ∃ t, Q.votes k p = some (t,
  v)}

/-- A value has votes under a key, and a quorum of them. -/
def HasQuorum (Q : QueueState K V) (quorum : UInt64) (k : K) (v : V) : Prop :=
  (Q.supporters k v).Nonempty ∧ (quorum.toNat : ℕ∞) ≤ (Q.supporters k v).encard

end QueueState

namespace Ledger

/-- A winning value may become pending: always in the admin queue, within the subdomain limit in
the oracle queue. -/
def Admits (L : Ledger) : ∀ q : QueueId, q.Key → q.Value → Prop
  | .admin, _, _ => True
  | .oracle, k, v => L.WithinLimit k (FQDN.registered k.name v.zone.name)

noncomputable def record (L : Ledger) (q : QueueId) (k : q.Key) (party : Bytes) (t : Second)
    (v : q.Value) : Ledger :=
  L.setQueue q ((L.queue q).record k party t v)

noncomputable def clear (L : Ledger) (q : QueueId) (k : q.Key) : Ledger :=
  L.setQueue q ((L.queue q).clear k)

noncomputable def setPending (L : Ledger) (q : QueueId) (k : q.Key)
    (o : Option (Second × q.Value)) : Ledger :=
  L.setQueue q ((L.queue q).setPending k o)

/-- What making a value the pending change of its key can come to: it is pending already; it is
one too many, and only the earlier pending change goes; it becomes pending. -/
inductive Enqueue (L : Ledger) (q : QueueId) (k : q.Key) (t : Second) (w : q.Value) :
    Ledger → Prop where
  | unchanged {t' : Second} (hpending : (L.queue q).pending k = some (t', w)) :
      Enqueue L q k t w L
  | dropped (hpending : ∀ t', (L.queue q).pending k ≠ some (t', w))
      (hadmits : ¬(L.setPending q k none).Admits q k w) :
      Enqueue L q k t w (L.setPending q k none)
  | enqueued (hpending : ∀ t', (L.queue q).pending k ≠ some (t', w))
      (hadmits : (L.setPending q k none).Admits q k w) :
      Enqueue L q k t w (L.setPending q k (some (t, w)))

/-- What casting a vote can come to: no value has a quorum, or one has and wins. Which value wins,
if several have a quorum, is left open. -/
inductive Cast (L : Ledger) (q : QueueId) (k : q.Key) (party : Bytes) (t : Second) (v : q.Value) :
    Ledger → Prop where
  | waiting
      (hwait : ∀ w,
        ¬((L.record q k party t v).queue q).HasQuorum (q.voting L.config).quorum k w) :
      Cast L q k party t v (L.record q k party t v)
  | won {w : q.Value} {L' : Ledger}
      (hwin : ((L.record q k party t v).queue q).HasQuorum (q.voting L.config).quorum k w)
      (henqueue : ((L.record q k party t v).clear q k).Enqueue q k t w L') :
      Cast L q k party t v L'

end Ledger

/-! ## Recording and clearing votes -/

namespace Represents

variable [Host] [LawfulHost] {s : Store} {L : Ledger}

/-- Steps 0 to 2 of a cast. -/
theorem replaceVote (h : Represents s L) (hL : L.Sound) (q : QueueId) (c : Config) (k : q.Key)
    (party : Bytes) (time : Time) (v : q.Value) :
    ∃ t, (q.queue c).replaceVote (QueueKey.toText k) (hexEncode party) time v s = (.ok (), t) ∧
      Represents t (L.record q k party time.second v) := by
  -- the party's earlier vote for the key, if it has one
  let S : Set Key := {x | ∃ e, (L.queue q).votes k party = some e ∧ x = .vote q k party e.1}
  obtain ⟨r, hr, hremoved⟩ : ∃ r, ((L.queue q).votes k party).toList.foldl
      (fun s e ↦ s.delete .internal ((q.queue c).votesByKeyPartyTimestamp (QueueKey.toText k)
        (hexEncode party) e.1.toTime)) s = r ∧ Laid r (without L.view S) L.indexView := by
    rcases hvotes : (L.queue q).votes k party with _ | e
    · refine ⟨s, rfl, Laid.congr h ?_ rfl⟩
      have hS : S = ∅ := by simp [S, hvotes]
      rw [hS, without_empty]
    · refine ⟨_, rfl, (Laid.delete h (votesByKeyPartyTimestamp_eq q c k party e.1.toTime)).congr ?_
      rfl⟩
      have hS : S = {.vote q k party e.1} := by
        ext x
        simp [S, hvotes]
      rw [hS, Second.second_toTime]
  refine ⟨_, ?_, ((hremoved.put (votesByKeyPartyTimestamp_eq q c k party time) v).indexPut
    (indexVotesByTimestampKeyParty_eq q c k party time) v).congr (L.view_setQueue q _ ?_ ?_ ?_)
      (L.indexView_setQueue q _ ?_ ?_ ?_)⟩
  · have hdelete : Exec.forEach (fun key ↦ (Exec.modify (Store.delete .internal key) : Command
    Unit))
        (((L.queue q).votes k party).toList.map fun e ↦ (q.queue c).votesByKeyPartyTimestamp
          (QueueKey.toText k) (hexEncode party) e.1.toTime) s = (.ok (), r) := by
      rw [← hr]
      exact Exec.forEach_modify (Store.delete .internal) _ _ _
    rw [VoteQueue.replaceVote, Exec.read_bind_of_ok (h.votesByParty hL q c k party),
      Exec.bind_of_ok hdelete, Exec.modify_bind, Exec.modify_apply]
  · intro x hx
    have hne : x ≠ .vote q k party time.second := by
      rintro rfl
      exact hx rfl
    rw [Function.update_of_ne hne, without_apply_of_notMem]
    rintro ⟨e, -, rfl⟩
    exact hx rfl
  · intro k' p' t'
    by_cases hkp : k' = k ∧ p' = party
    · obtain ⟨rfl, rfl⟩ := hkp
      have hrec : ((L.queue q).record k' p' time.second v).votes k' p' = some (time.second, v) :=
        if_pos ⟨rfl, rfl⟩
      rw [hrec]
      by_cases ht : t' = time.second
      · rw [ht, Function.update_self]
        simp [heldAt]
      · rw [Function.update_of_ne (by simpa using ht)]
        have hheld : heldAt (some (time.second, v)) t' = none := by simp [heldAt, Ne.symm ht]
        rw [hheld]
        by_cases hS : Key.vote q k' p' t' ∈ S
        · exact without_apply_of_mem hS
        · rw [without_apply_of_notMem hS, Ledger.view]
          rcases hv : heldAt ((L.queue q).votes k' p') t' with _ | w
          · rfl
          · exact absurd ⟨_, heldAt_eq_some.mp hv, rfl⟩ hS
    · have hrec : ((L.queue q).record k party time.second v).votes k' p' = (L.queue q).votes k' p'
      :=
        if_neg hkp
      have hne : Key.vote q k' p' t' ≠ .vote q k party time.second := fun heq ↦ hkp (by
        simp only [Key.vote.injEq, heq_eq_eq, true_and] at heq
        exact ⟨heq.1, heq.2.1⟩)
      rw [hrec, Function.update_of_ne hne, without_apply_of_notMem, Ledger.view]
      rintro ⟨e, -, heq⟩
      simp only [Key.vote.injEq, heq_eq_eq, true_and] at heq
      exact hkp ⟨heq.1, heq.2.1⟩
  · intro k' t'
    rw [Function.update_of_ne (by simp), without_apply_of_notMem (by simp [S])]
    rfl
  · intro x hx
    have hne : x ≠ .vote q time.second k party := by
      rintro rfl
      exact hx rfl
    rw [Function.update_of_ne hne]
  · intro t' k' p'
    by_cases hkp : t' = time.second ∧ k' = k ∧ p' = party
    · obtain ⟨rfl, rfl, rfl⟩ := hkp
      rw [Function.update_self]
      simp [QueueState.record]
    · have hne : IndexKey.vote q t' k' p' ≠ .vote q time.second k party := fun heq ↦ hkp (by
        simpa only [IndexKey.vote.injEq, heq_eq_eq, true_and] using heq)
      rw [Function.update_of_ne hne]
      simp only [QueueState.record, if_neg hkp]
      rfl
  · intro t' k'
    rw [Function.update_of_ne (by simp)]
    rfl

/-- Clearing the votes for a key, given by their list. -/
theorem clearVotes (h : Represents s L) (q : QueueId) (c : Config) (k : q.Key)
    {es : List (Bytes × Second × q.Value)}
    (hes : ∀ e, e ∈ es ↔ (L.queue q).votes k e.1 = some e.2) :
    ∃ t, Exec.forEach (fun (party, time, _) ↦
        (Exec.modify ((q.queue c).deleteVote (QueueKey.toText k) party time) : Command Unit))
      (es.map fun e ↦ (hexEncode e.1, e.2.1.toTime, e.2.2)) s = (.ok (), t) ∧
      Represents t (L.clear q k) := by
  have hD : ∀ t k' p, (t, k', p) ∈ es.map (fun e ↦ (e.2.1, k, e.1)) ↔
      k' = k ∧ (heldAt ((L.queue q).votes k' p) t).isSome := by
    intro t k' p
    rw [List.mem_map]
    constructor
    · rintro ⟨e, he, heq⟩
      simp only [Prod.mk.injEq] at heq
      obtain ⟨rfl, rfl, rfl⟩ := heq
      refine ⟨rfl, Option.isSome_iff_exists.mpr ⟨e.2.2, heldAt_eq_some.mpr ((hes e).mp he)⟩⟩
    · rintro ⟨rfl, hheld⟩
      obtain ⟨v, hv⟩ := Option.isSome_iff_exists.mp hheld
      exact ⟨(p, t, v), (hes _).mpr (heldAt_eq_some.mp hv), rfl⟩
  have hclear : (L.queue q).clear k
      = (L.queue q).expire {d | d ∈ es.map fun e ↦ (e.2.1, k, e.1)} := by
    rw [QueueState.clear, QueueState.expire]
    congr 1
    · funext k' p
      rcases hv : (L.queue q).votes k' p with _ | e
      · simp
      · by_cases hk : k' = k
        · have hmem : (e.1, k', p) ∈ {d | d ∈ es.map fun e ↦ (e.2.1, k, e.1)} :=
            (hD _ _ _).mpr ⟨hk, by rw [hv]; simp [heldAt]⟩
          rw [if_pos hk, Option.bind_some, if_pos hmem]
        · have hmem : (e.1, k', p) ∉ {d | d ∈ es.map fun e ↦ (e.2.1, k, e.1)} :=
            fun hmem ↦ hk ((hD _ _ _).mp hmem).1
          rw [if_neg hk, Option.bind_some, if_neg hmem]
    · funext t k' p
      by_cases hd : (t, k', p) ∈ {d | d ∈ es.map fun e ↦ (e.2.1, k, e.1)}
      · rw [if_pos ((hD _ _ _).mp hd), if_pos hd]
      · rw [if_neg fun hk ↦ hd ((hD _ _ _).mpr hk), if_neg hd]
  have hloop := Exec.forEach_modify (ε := Fault)
    (fun e : Str × Time × q.Value ↦ (q.queue c).deleteVote (QueueKey.toText k) e.1 e.2.1)
    (fun e : Bytes × Second × q.Value ↦ (hexEncode e.1, e.2.1.toTime, e.2.2)) es s
  refine ⟨_, hloop, ?_⟩
  have hdel := h.deleteVotes q c (es.map fun e ↦ (e.2.1, k, e.1))
  rw [List.foldl_map] at hdel
  rwa [Ledger.clear, hclear]

/-! ## Pending changes -/

/-- Deleting the pending change of a key, if there is one. -/
theorem deletePending (h : Represents s L) (q : QueueId) (c : Config) (k : q.Key) :
    ∃ t, Exec.forEach (fun e ↦
        (Exec.modify ((q.queue c).deletePending (QueueKey.toText k) e.1) : Command Unit))
      (((L.queue q).pending k).toList.map fun e ↦ (e.1.toTime, e.2)) s = (.ok (), t) ∧
      Represents t (L.setPending q k none) := by
  have hloop := Exec.forEach_modify (ε := Fault)
    (fun e : Time × q.Value ↦ (q.queue c).deletePending (QueueKey.toText k) e.1)
    (fun e : Second × q.Value ↦ (e.1.toTime, e.2)) ((L.queue q).pending k).toList s
  refine ⟨_, hloop, ?_⟩
  rcases hp : (L.queue q).pending k with _ | e
  · refine Laid.congr h (L.view_setQueue q _ (fun _ _ ↦ rfl) (fun _ _ _ ↦ rfl) fun k' t ↦ ?_)
      (L.indexView_setQueue q _ (fun _ _ ↦ rfl) (fun _ _ _ ↦ rfl) fun t k' ↦ ?_) <;>
    · by_cases hk : k' = k
      · subst hk
        simp [Ledger.view, Ledger.indexView, QueueState.setPending, hp]
      · simp [Ledger.view, Ledger.indexView, QueueState.setPending, hk]
  · refine (Laid.deletePending q c h k e.1.toTime).congr (L.view_setQueue q _ ?_ ?_ ?_)
      (L.indexView_setQueue q _ ?_ ?_ ?_)
    · intro x hx
      refine without_apply_of_notMem fun hmem ↦ hx ?_
      rw [Set.mem_singleton_iff.mp hmem]
      rfl
    · intro k' p t
      exact without_apply_of_notMem (by simp)
    · intro k' t
      by_cases hk : k' = k
      · subst hk
        by_cases ht : t = e.1
        · rw [ht]
          refine (without_apply_of_mem (Set.mem_singleton _)).trans ?_
          simp [QueueState.setPending, heldAt]
        · rw [without_apply_of_notMem (by simpa using ht)]
          simp [Ledger.view, QueueState.setPending, hp, heldAt, Ne.symm ht]
      · rw [without_apply_of_notMem (by simp [hk])]
        simp [Ledger.view, QueueState.setPending, hk]
    · intro x hx
      refine without_apply_of_notMem fun hmem ↦ hx ?_
      rw [Set.mem_singleton_iff.mp hmem]
      rfl
    · intro t k' p
      exact without_apply_of_notMem (by simp)
    · intro t k'
      by_cases hk : k' = k
      · subst hk
        by_cases ht : t = e.1
        · rw [ht]
          refine (without_apply_of_mem (Set.mem_singleton _)).trans ?_
          simp [QueueState.setPending, heldAt]
        · rw [without_apply_of_notMem (by simpa using ht)]
          simp [Ledger.indexView, QueueState.setPending, hp, heldAt, Ne.symm ht]
      · rw [without_apply_of_notMem (by simp [hk])]
        simp [Ledger.indexView, QueueState.setPending, hk]

/-- Putting a pending change under a key that has none. -/
theorem putPending (h : Represents s L) (q : QueueId) (c : Config) {k : q.Key}
    (hnone : (L.queue q).pending k = none) (time : Time) (v : q.Value) :
    Represents (Store.indexPut .internal
        ((q.queue c).indexPendingByTimestampKey time (QueueKey.toText k)) v
        (Store.put .internal ((q.queue c).pendingByKeyTimestamp (QueueKey.toText k) time) v s))
      (L.setPending q k (some (time.second, v))) := by
  refine ((Laid.put h (pendingByKeyTimestamp_eq q c k time) v).indexPut
    (indexPendingByTimestampKey_eq q c k time) v).congr (L.view_setQueue q _ ?_ ?_ ?_)
      (L.indexView_setQueue q _ ?_ ?_ ?_)
  · intro x hx
    exact Function.update_of_ne (fun heq ↦ hx (by rw [heq]; rfl)) _ _
  · intro k' p t
    exact Function.update_of_ne (by simp) _ _
  · intro k' t
    by_cases hk : k' = k
    · subst hk
      by_cases ht : t = time.second
      · rw [ht, Function.update_self]
        simp [QueueState.setPending, heldAt]
      · rw [Function.update_of_ne (by simpa using ht)]
        simp [Ledger.view, QueueState.setPending, hnone, heldAt, Ne.symm ht]
    · rw [Function.update_of_ne (by simp [hk])]
      simp [Ledger.view, QueueState.setPending, hk]
  · intro x hx
    exact Function.update_of_ne (fun heq ↦ hx (by rw [heq]; rfl)) _ _
  · intro t k' p
    exact Function.update_of_ne (by simp) _ _
  · intro t k'
    by_cases hk : k' = k
    · subst hk
      by_cases ht : t = time.second
      · rw [ht, Function.update_self]
        simp [QueueState.setPending, heldAt]
      · rw [Function.update_of_ne (by simpa using ht)]
        simp [Ledger.indexView, QueueState.setPending, hnone, heldAt, Ne.symm ht]
    · rw [Function.update_of_ne (by simp [hk])]
      simp [Ledger.indexView, QueueState.setPending, hk]

end Represents

end Felidae
