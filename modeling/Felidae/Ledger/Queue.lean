import Felidae.Ledger.Basic

/-!
# The vote queues on the ledger

What the operations of a vote queue do to the store is, on the ledger, a change of one component:
recording a vote, clearing the votes of a key, expiring a set of votes, setting or promoting
pending changes. Each is proved for both queues at once.
-/

open Classical

namespace Felidae

/-! ## Operations on a queue -/

namespace QueueState

variable {K V : Type}

/-- The party's vote for the key becomes `v`, made in second `t`. -/
noncomputable def record (Q : QueueState K V) (k : K) (party : Bytes) (t : Second) (v : V) :
    QueueState K V :=
  { Q with
    votes := fun k' p ↦ if k' = k ∧ p = party then some (t, v) else Q.votes k' p
    voteIndex := fun t' k' p ↦
      if t' = t ∧ k' = k ∧ p = party then some v else Q.voteIndex t' k' p }

/-- All votes for the key are gone, and their index entries with them. -/
noncomputable def clear (Q : QueueState K V) (k : K) : QueueState K V :=
  { Q with
    votes := fun k' p ↦ if k' = k then none else Q.votes k' p
    voteIndex := fun t k' p ↦
      if k' = k ∧ (heldAt (Q.votes k' p) t).isSome then none else Q.voteIndex t k' p }

/-- The votes in `D`, given by second, key and party, are gone. -/
noncomputable def expire (Q : QueueState K V) (D : Set (Second × K × Bytes)) : QueueState K V :=
  { Q with
    votes := fun k p ↦ (Q.votes k p).bind fun e ↦ if (e.1, k, p) ∈ D then none else some e
    voteIndex := fun t k p ↦ if (t, k, p) ∈ D then none else Q.voteIndex t k p }

noncomputable def setPending (Q : QueueState K V) (k : K) (o : Option (Second × V)) :
    QueueState K V :=
  { Q with pending := Function.update Q.pending k o }

/-- The pending changes of the keys in `D` are gone. -/
noncomputable def promote (Q : QueueState K V) (D : Set K) : QueueState K V :=
  { Q with pending := without Q.pending D }

/-! ### What the operations leave -/

section Lemmas

variable (Q : QueueState K V) (k : K) (party : Bytes) (t : Second) (v : V)
  (D : Set (Second × K × Bytes)) (o : Option (Second × V))

@[simp] theorem pending_record : (Q.record k party t v).pending = Q.pending := rfl

@[simp] theorem pending_clear : (Q.clear k).pending = Q.pending := rfl

@[simp] theorem pending_expire : (Q.expire D).pending = Q.pending := rfl

@[simp] theorem votes_setPending : (Q.setPending k o).votes = Q.votes := rfl

@[simp] theorem voteIndex_setPending : (Q.setPending k o).voteIndex = Q.voteIndex := rfl

@[simp] theorem votes_promote (D : Set K) : (Q.promote D).votes = Q.votes := rfl

@[simp] theorem voteIndex_promote (D : Set K) : (Q.promote D).voteIndex = Q.voteIndex := rfl

@[simp] theorem votes_record_self : (Q.record k party t v).votes k party = some (t, v) :=
  if_pos ⟨rfl, rfl⟩

theorem votes_record_of_ne {k' : K} {p : Bytes} (h : ¬(k' = k ∧ p = party)) :
    (Q.record k party t v).votes k' p = Q.votes k' p := if_neg h

@[simp] theorem votes_clear_self (p : Bytes) : (Q.clear k).votes k p = none := if_pos rfl

theorem votes_clear_of_ne {k' : K} (h : k' ≠ k) (p : Bytes) :
    (Q.clear k).votes k' p = Q.votes k' p := if_neg h

theorem votes_expire_eq_some {p : Bytes} {e : Second × V} :
    (Q.expire D).votes k p = some e ↔ Q.votes k p = some e ∧ (e.1, k, p) ∉ D := by
  rw [expire, Option.bind_eq_some_iff]
  constructor
  · rintro ⟨e', he', hite⟩
    by_cases hD : (e'.1, k, p) ∈ D
    · rw [if_pos hD] at hite
      cases hite
    · rw [if_neg hD, Option.some_inj] at hite
      subst hite
      exact ⟨he', hD⟩
  · rintro ⟨he, hD⟩
    exact ⟨e, he, if_neg hD⟩

theorem voteIndex_record_of_ne {t' : Second} {k' : K} {p : Bytes}
    (h : ¬(t' = t ∧ k' = k ∧ p = party)) :
    (Q.record k party t v).voteIndex t' k' p = Q.voteIndex t' k' p := if_neg h

theorem voteIndex_clear_of_ne {k' : K} (h : k' ≠ k) (t : Second) (p : Bytes) :
    (Q.clear k).voteIndex t k' p = Q.voteIndex t k' p := if_neg fun hk ↦ h hk.1

/-- The index entries of the votes that are cleared go, and no others. -/
theorem voteIndex_clear_of_heldAt_eq_none {t : Second} {k' : K} {p : Bytes}
    (h : heldAt (Q.votes k' p) t = none) :
    (Q.clear k).voteIndex t k' p = Q.voteIndex t k' p := by
  simp [clear, h]

theorem voteIndex_of_clear {t : Second} {k' : K} {p : Bytes}
    {k : K} (h : ((Q.clear k).voteIndex t k' p).isSome) : (Q.voteIndex t k' p).isSome := by
  rw [clear] at h
  dsimp only at h
  split at h
  · cases h
  · exact h

theorem voteIndex_expire (t : Second) (k : K) (p : Bytes) :
    (Q.expire D).voteIndex t k p = if (t, k, p) ∈ D then none else Q.voteIndex t k p := rfl

theorem voteIndex_of_expire {t : Second} {k' : K} {p : Bytes}
    (h : ((Q.expire D).voteIndex t k' p).isSome) : (Q.voteIndex t k' p).isSome := by
  rw [expire] at h
  dsimp only at h
  split at h
  · cases h
  · exact h

@[simp] theorem pending_setPending_self : (Q.setPending k o).pending k = o := by
  simp [setPending]

theorem pending_setPending_of_ne {k' : K} (h : k' ≠ k) :
    (Q.setPending k o).pending k' = Q.pending k' := by
  simp [setPending, h]

@[simp] theorem promote_empty : Q.promote ∅ = Q := by
  rw [promote, without_empty]

theorem pending_promote_of_mem {D : Set K} {k : K} (h : k ∈ D) :
    (Q.promote D).pending k = none :=
  without_apply_of_mem h

theorem pending_promote_of_notMem {D : Set K} {k : K} (h : k ∉ D) :
    (Q.promote D).pending k = Q.pending k :=
  without_apply_of_notMem h

theorem pending_promote_eq_some {D : Set K} {e : Second × V} :
    (Q.promote D).pending k = some e ↔ Q.pending k = some e ∧ k ∉ D := by
  by_cases hk : k ∈ D <;> simp [promote, without, hk]

end Lemmas

theorem heldAt_expire (Q : QueueState K V) (D : Set (Second × K × Bytes)) (k : K) (p : Bytes)
    (t : Second) : heldAt ((Q.expire D).votes k p) t
      = if (t, k, p) ∈ D then none else heldAt (Q.votes k p) t :=
  heldAt_bind (Q.votes k p) (fun t ↦ (t, k, p) ∈ D) t

end QueueState

namespace Ledger

def setQueue (L : Ledger) (q : QueueId) (Q : QueueState q.Key q.Value) : Ledger :=
  { L with queue := Function.update L.queue q Q }

@[simp] theorem queue_setQueue (L : Ledger) (q : QueueId) (Q : QueueState q.Key q.Value) :
    (L.setQueue q Q).queue q = Q := Function.update_self ..

theorem queue_setQueue_of_ne (L : Ledger) {q q' : QueueId} (h : q' ≠ q)
    (Q : QueueState q.Key q.Value) : (L.setQueue q Q).queue q' = L.queue q' :=
  Function.update_of_ne h ..

@[simp] theorem setQueue_setQueue (L : Ledger) (q : QueueId) (Q Q' : QueueState q.Key q.Value) :
    (L.setQueue q Q).setQueue q Q' = L.setQueue q Q' := by
  simp [setQueue]

@[simp] theorem config_setQueue (L : Ledger) (q : QueueId) (Q : QueueState q.Key q.Value) :
    (L.setQueue q Q).config = L.config := rfl

end Ledger

/-- The queue a key belongs to. -/
def Key.queue? : Key → Option QueueId
  | .vote q _ _ _ | .pending q _ _ => some q
  | _ => none

def IndexKey.queueId : IndexKey → QueueId
  | .vote q _ _ _ | .pending q _ _ => q

namespace Ledger

variable [Host] (L : Ledger) (q : QueueId) (Q : QueueState q.Key q.Value)

/-- Replacing one queue replaces its keys and leaves the others. -/
theorem view_setQueue {F : Key → Option Proto.Stored}
    (hother : ∀ k, k.queue? ≠ some q → F k = L.view k)
    (hvote : ∀ k p t, F (.vote q k p t) = (heldAt (Q.votes k p) t).map DomainType.toStored)
    (hpending : ∀ k t, F (.pending q k t) = (heldAt (Q.pending k) t).map DomainType.toStored) :
    (L.setQueue q Q).view = F := by
  funext k
  cases k with
  | vote q' k p t =>
    by_cases hq : q' = q
    · subst hq
      rw [hvote, view, queue_setQueue]
    · rw [hother _ (by simpa [Key.queue?] using hq), view, view, queue_setQueue_of_ne _ hq]
  | pending q' k t =>
    by_cases hq : q' = q
    · subst hq
      rw [hpending, view, queue_setQueue]
    · rw [hother _ (by simpa [Key.queue?] using hq), view, view, queue_setQueue_of_ne _ hq]
  | _ =>
    rw [hother _ (by simp [Key.queue?])]
    rfl

theorem indexView_setQueue {F : IndexKey → Option Proto.Stored}
    (hother : ∀ k, k.queueId ≠ q → F k = L.indexView k)
    (hvote : ∀ t k p, F (.vote q t k p) = (Q.voteIndex t k p).map DomainType.toStored)
    (hpending : ∀ t k, F (.pending q t k) = (heldAt (Q.pending k) t).map DomainType.toStored) :
    (L.setQueue q Q).indexView = F := by
  funext k
  cases k with
  | vote q' t k p =>
    by_cases hq : q' = q
    · subst hq
      rw [hvote, indexView, queue_setQueue]
    · rw [hother _ (by simpa [IndexKey.queueId] using hq), indexView, indexView,
      queue_setQueue_of_ne _ hq]
  | pending q' t k =>
    by_cases hq : q' = q
    · subst hq
      rw [hpending, indexView, queue_setQueue]
    · rw [hother _ (by simpa [IndexKey.queueId] using hq), indexView, indexView,
      queue_setQueue_of_ne _ hq]

variable {L q Q}

/-- Replacing a queue leaves the keys whose entries are the same in both. -/
theorem view_setQueue_of_eq {x : Key}
    (hvote : ∀ k p t, x = .vote q k p t →
      heldAt (Q.votes k p) t = heldAt ((L.queue q).votes k p) t)
    (hpending : ∀ k t, x = .pending q k t →
      heldAt (Q.pending k) t = heldAt ((L.queue q).pending k) t) :
    (L.setQueue q Q).view x = L.view x := by
  cases x with
  | vote q' k p t =>
    by_cases hq : q' = q
    · subst hq
      rw [view, view, queue_setQueue, hvote k p t rfl]
    · rw [view, view, queue_setQueue_of_ne _ hq]
  | pending q' k t =>
    by_cases hq : q' = q
    · subst hq
      rw [view, view, queue_setQueue, hpending k t rfl]
    · rw [view, view, queue_setQueue_of_ne _ hq]
  | _ => rfl

theorem indexView_setQueue_of_eq {x : IndexKey}
    (hvote : ∀ t k p, x = .vote q t k p → Q.voteIndex t k p = (L.queue q).voteIndex t k p)
    (hpending : ∀ t k, x = .pending q t k →
      heldAt (Q.pending k) t = heldAt ((L.queue q).pending k) t) :
    (L.setQueue q Q).indexView x = L.indexView x := by
  cases x with
  | vote q' t k p =>
    by_cases hq : q' = q
    · subst hq
      rw [indexView, indexView, queue_setQueue, hvote t k p rfl]
    · rw [indexView, indexView, queue_setQueue_of_ne _ hq]
  | pending q' t k =>
    by_cases hq : q' = q
    · subst hq
      rw [indexView, indexView, queue_setQueue, hpending t k rfl]
    · rw [indexView, indexView, queue_setQueue_of_ne _ hq]

end Ledger

/-! ## Writes of a queue -/

section Writes

variable [Host] [LawfulHost] {s : Store} {L : Ledger} {view : Key → Option Proto.Stored}
  {index : IndexKey → Option Proto.Stored} (q : QueueId) (c : Config)

theorem Laid.deleteVote (h : Laid s view index) (k : q.Key) (party : Bytes) (time : Time) :
    Laid ((q.queue c).deleteVote (QueueKey.toText k) (hexEncode party) time s)
      (without view {.vote q k party time.second}) (without index {.vote q time.second k party}) :=
  (h.delete (votesByKeyPartyTimestamp_eq q c k party time)).indexDelete
    (indexVotesByTimestampKeyParty_eq q c k party time)

theorem Laid.deletePending (h : Laid s view index) (k : q.Key) (time : Time) :
    Laid ((q.queue c).deletePending (QueueKey.toText k) time s)
      (without view {.pending q k time.second}) (without index {.pending q time.second k}) :=
  (h.delete (pendingByKeyTimestamp_eq q c k time)).indexDelete
    (indexPendingByTimestampKey_eq q c k time)

/-- Deleting the votes in a list of second, key and party. -/
theorem Represents.deleteVotes (h : Represents s L) (D : List (Second × q.Key × Bytes)) :
    Represents (D.foldl (fun s d ↦ (q.queue c).deleteVote (QueueKey.toText d.2.1)
      (hexEncode d.2.2) d.1.toTime s) s) (L.setQueue q ((L.queue q).expire {d | d ∈ D})) := by
  have hlaid := Laid.foldl_delete
    (f := fun (d : Second × q.Key × Bytes) s ↦ (q.queue c).deleteVote (QueueKey.toText d.2.1)
      (hexEncode d.2.2) d.1.toTime s)
    (fun d s _ _ hs ↦ hs.deleteVote q c d.2.1 d.2.2 d.1.toTime) D h
  refine hlaid.congr (L.view_setQueue q _ ?_ ?_ ?_) (L.indexView_setQueue q _ ?_ ?_ ?_)
  · intro k hk
    refine without_apply_of_notMem ?_
    rintro ⟨d, -, rfl⟩
    exact hk rfl
  · intro k p t
    rw [QueueState.heldAt_expire]
    by_cases hd : (t, k, p) ∈ {d | d ∈ D}
    · rw [if_pos hd]
      exact without_apply_of_mem ⟨(t, k, p), hd, rfl⟩
    · rw [if_neg hd, without_apply_of_notMem]
      · rfl
      · rintro ⟨d, hdD, hd'⟩
        simp only [Key.vote.injEq, heq_eq_eq, true_and, Second.second_toTime] at hd'
        obtain ⟨rfl, rfl, rfl⟩ := hd'
        exact hd hdD
  · intro k t
    exact without_apply_of_notMem (by rintro ⟨_, _, hd⟩; cases hd)
  · intro k hk
    refine without_apply_of_notMem ?_
    rintro ⟨d, -, rfl⟩
    exact hk rfl
  · intro t k p
    simp only [QueueState.expire]
    by_cases hd : (t, k, p) ∈ {d | d ∈ D}
    · rw [if_pos hd]
      exact without_apply_of_mem ⟨(t, k, p), hd, rfl⟩
    · rw [if_neg hd, without_apply_of_notMem]
      · rfl
      · rintro ⟨d, hdD, hd'⟩
        simp only [IndexKey.vote.injEq, heq_eq_eq, true_and, Second.second_toTime] at hd'
        obtain ⟨rfl, rfl, rfl⟩ := hd'
        exact hd hdD
  · intro t k
    exact without_apply_of_notMem (by rintro ⟨_, _, hd⟩; cases hd)

/-- Deleting the pending changes in a list of second and key. -/
theorem Represents.deletePendings (h : Represents s L) {D : List (Second × q.Key)}
    (hD : ∀ d ∈ D, ∃ v, (L.queue q).pending d.2 = some (d.1, v)) :
    Represents (D.foldl (fun s d ↦ (q.queue c).deletePending (QueueKey.toText d.2) d.1.toTime s) s)
      (L.setQueue q ((L.queue q).promote {k | ∃ d ∈ D, d.2 = k})) := by
  have hlaid := Laid.foldl_delete
    (f := fun (d : Second × q.Key) s ↦
      (q.queue c).deletePending (QueueKey.toText d.2) d.1.toTime s)
    (fun d s _ _ hs ↦ hs.deletePending q c d.2 d.1.toTime) D h
  -- an entry is gone exactly if its key is: a key has only one pending change
  have hheld : ∀ k t, heldAt (((L.queue q).promote {k | ∃ d ∈ D, d.2 = k}).pending k) t
      = if (t, k) ∈ D then none else heldAt ((L.queue q).pending k) t := by
    intro k t
    have hpromote : ((L.queue q).promote {k | ∃ d ∈ D, d.2 = k}).pending k
        = without (L.queue q).pending {k | ∃ d ∈ D, d.2 = k} k := rfl
    rw [hpromote]
    by_cases hk : k ∈ {k | ∃ d ∈ D, d.2 = k}
    · rw [without_apply_of_mem hk]
      obtain ⟨d, hdD, rfl⟩ := hk
      obtain ⟨v, hv⟩ := hD d hdD
      by_cases ht : (t, d.2) ∈ D
      · rw [if_pos ht]
        rfl
      · have hne : d.1 ≠ t := by
          rintro rfl
          exact ht hdD
        rw [if_neg ht, hv]
        simp [heldAt, hne]
    · rw [without_apply_of_notMem hk, if_neg fun ht ↦ hk ⟨_, ht, rfl⟩]
  refine hlaid.congr (L.view_setQueue q _ ?_ ?_ ?_) (L.indexView_setQueue q _ ?_ ?_ ?_)
  · intro k hk
    refine without_apply_of_notMem ?_
    rintro ⟨d, -, rfl⟩
    exact hk rfl
  · intro k p t
    exact without_apply_of_notMem (by rintro ⟨_, _, hd⟩; cases hd)
  · intro k t
    rw [hheld]
    by_cases hd : (t, k) ∈ D
    · rw [if_pos hd]
      exact without_apply_of_mem ⟨(t, k), hd, rfl⟩
    · rw [if_neg hd, without_apply_of_notMem]
      · rfl
      · rintro ⟨d, hdD, hd'⟩
        simp only [Key.pending.injEq, heq_eq_eq, true_and, Second.second_toTime] at hd'
        obtain ⟨rfl, rfl⟩ := hd'
        exact hd hdD
  · intro k hk
    refine without_apply_of_notMem ?_
    rintro ⟨d, -, rfl⟩
    exact hk rfl
  · intro t k p
    exact without_apply_of_notMem (by rintro ⟨_, _, hd⟩; cases hd)
  · intro t k
    rw [hheld]
    by_cases hd : (t, k) ∈ D
    · rw [if_pos hd]
      exact without_apply_of_mem ⟨(t, k), hd, rfl⟩
    · rw [if_neg hd, without_apply_of_notMem]
      · rfl
      · rintro ⟨d, hdD, hd'⟩
        simp only [IndexKey.pending.injEq, heq_eq_eq, true_and, Second.second_toTime] at hd'
        obtain ⟨rfl, rfl⟩ := hd'
        exact hd hdD

end Writes

end Felidae
