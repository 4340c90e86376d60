import Felidae.Chain.Outcomes
import Felidae.Properties.Pending

/-!
# Dropped winners

A winner that would be one domain too many is dropped. By then the pending change of its domain has
been deleted to make room for it, and it is not put back: the pending queue is left alone exactly
if nothing was pending for the domain.
-/

namespace Felidae

section Queue

variable [Host] {q : QueueId} {s t : Store} {L L' : Ledger}

/-- The two stores of the pending changes are what they were. -/
structure SamePending (q : QueueId) (s t : Store) : Prop where
  pending : (Table.pending q).entries t = (Table.pending q).entries s
  pendingIndex : (IndexTable.pending q).entries t = (IndexTable.pending q).entries s

/-- The stores of the pending changes show nothing but these. -/
theorem Represents.samePending (hs : Represents s L) (ht : Represents t L')
    (h : (L'.queue q).pending = (L.queue q).pending) : SamePending q s t := by
  constructor
  · funext body
    refine hs.verifiable.getElem?_congr ht.verifiable List.nil_prefix fun x hx ↦ ?_
    have htable : x.table = .pending q :=
      Key.head_prefix_text_iff.mp ⟨body, hx.trans (List.nil_append _)⟩
    cases x with
    | pending q' k second =>
      obtain rfl := Table.pending.inj htable
      rw [Ledger.view, Ledger.view, h]
    | _ => cases htable
  · funext body
    refine hs.nonverifiable.getElem?_congr ht.nonverifiable List.nil_prefix fun x hx ↦ ?_
    have htable : x.table = .pending q :=
      IndexKey.head_prefix_bytes_iff.mp ⟨body, hx.trans (List.nil_append _)⟩
    cases x with
    | pending q' second k =>
      obtain rfl := IndexTable.pending.inj htable
      rw [Ledger.indexView, Ledger.indexView, h]
    | vote => cases htable

/-- They show whether something is pending for a key. -/
theorem SamePending.pending_ne_none (h : SamePending q s t) (hs : Represents s L)
    (ht : Represents t L') {k : q.Key} (hp : (L.queue q).pending k ≠ none) :
    (L'.queue q).pending k ≠ none := by
  intro hnone
  obtain ⟨⟨second, v⟩, hp⟩ := Option.ne_none_iff_exists'.mp hp
  have hbefore := hs.verifiable.get (.pending q k second)
  have hafter := ht.verifiable.get (.pending q k second)
  have hsame := congrFun h.pending (Key.body (.pending q k second))
  rw [Ledger.view, hp] at hbefore
  rw [Ledger.view, hnone] at hafter
  have hne := hafter.symm.trans (hsame.trans hbefore)
  simp [heldAt] at hne

end Queue

namespace Ledger

variable {L L' : Ledger} {q : QueueId} {k : q.Key} {party : Bytes} {t : Second} {v w : q.Value}

/-- A dropped winner takes the pending change of its key with it. -/
theorem CastEnds.of_dropped (h : L.CastEnds q k party t v (.dropped w) L') :
    L' = ((L.record q k party t v).clear q k).setPending q k none := by
  cases h with
  | won _ henqueue => cases henqueue with | dropped => rfl

/-- The pending changes of the other keys stay. -/
theorem CastEnds.pending_of_dropped (h : L.CastEnds q k party t v (.dropped w) L') :
    (L'.queue q).pending k = none ∧
      ∀ k', k' ≠ k → (L'.queue q).pending k' = (L.queue q).pending k' :=
  ⟨by rw [h.of_dropped, queue_setPending, QueueState.pending_setPending_self],
    fun _ hk ↦ h.cast.pending_of_ne hk⟩

end Ledger

section Runs

variable [Host] [LawfulHost] {genesis : InitChain} {requests : List FinalizeBlock}
  {ms : List (Moment Store Event)} {s : Store} {m : Moment Store Event} {d : PrefixOrderDomain}
  {now : Time} {w : OracleVoteValue}

/-- In every run, an accepted observation whose winner is dropped leaves the pending queue as it is
exactly if nothing was pending for the domain before; what was pending is gone. -/
theorem Run.dropped_leaves_pending_iff (hrun : Run genesis requests ms s) (hm : m ∈ ms)
    (hdropped : outcomeAt m = some (d, now, .dropped w)) :
    (SamePending .oracle m.before m.after ↔ HasNoPending .oracle d m.before) ∧
      HasNoPending .oracle d m.after := by
  obtain ⟨h, L, hshown⟩ := hrun.exists_shown
  obtain ⟨L₀, L₁, party, v, hs, hL, -, ht, hL', -, hends⟩ := hshown.castEnds hrun hm hdropped
  obtain ⟨hself, hothers⟩ := hends.pending_of_dropped
  rw [hs.hasNoPending_iff hL, ht.hasNoPending_iff hL']
  refine ⟨⟨fun hsame ↦ ?_, fun hnone ↦ hs.samePending ht ?_⟩, hself⟩
  · by_contra hp
    exact hsame.pending_ne_none hs ht hp hself
  · funext d'
    by_cases hd : d' = d
    · rw [hd, hself, hnone]
    · exact hothers d' hd

end Runs

namespace Reference

/-- A chain that may enrol one domain below each name. A domain is observed, a domain below it, and
then the first domain again under the name below its zone. -/
def crowding : List FinalizeBlock :=
  [blockAt 2 20 [observeByAlice, observeDeepByAlice, observeNarrowByAlice],
    blockAt 1 10 [foundSingle]]

/-- A winner is dropped for a domain that has something pending. -/
def dropsPending (m : Moment Store Event) : Bool :=
  match outcomeAt m with
  | some (d, now, .dropped _) => decide (d = www) && decide (now = timeAt 20) &&
    decide (((QueueId.oracle.queue State.defaultConfig).pendingUnder (QueueKey.toText www)
      m.before).toOption ≠ some [])
  | _ => false

theorem of_dropsPending {m : Moment Store Event} (h : dropsPending m = true) :
    (∃ w, outcomeAt m = some (www, timeAt 20, .dropped w)) ∧
      ¬HasNoPending .oracle www m.before := by
  rw [dropsPending] at h
  split at h
  next d now w hout =>
    rw [Bool.and_eq_true, Bool.and_eq_true, decide_eq_true_iff, decide_eq_true_iff,
      decide_eq_true_iff] at h
    obtain ⟨⟨rfl, rfl⟩, hpending⟩ := h
    refine ⟨⟨w, hout⟩, fun hnone ↦ hpending ?_⟩
    rw [hnone State.defaultConfig]
    rfl
  next => cases h

theorem exists_dropsPending :
    ∃ ms s, Run genesis crowding ms s ∧ ∃ m ∈ ms, dropsPending m = true := by
  obtain ⟨ms, s, hrun, hany⟩ := exists_run_of_any genesis listed crowding
    (fun r ↦ r.1.any dropsPending) (by decide +kernel)
  exact ⟨ms, s, hrun, List.any_eq_true.mp hany⟩

/-- The pending change of a domain is gone after a winner has been dropped. -/
theorem not_samePending_crowding : ∃ ms s, Run genesis crowding ms s ∧ ∃ m ∈ ms,
    (∃ w, outcomeAt m = some (www, timeAt 20, .dropped w)) ∧
      ¬HasNoPending .oracle www m.before ∧ HasNoPending .oracle www m.after ∧
      ¬SamePending .oracle m.before m.after := by
  obtain ⟨ms, s, hrun, m, hm, hdrops⟩ := exists_dropsPending
  obtain ⟨⟨w, hout⟩, hpending⟩ := of_dropsPending hdrops
  obtain ⟨h, L, hshown⟩ := hrun.exists_shown
  obtain ⟨L₀, L₁, party, v, hs, hL, -, ht, hL', -, hends⟩ := hshown.castEnds hrun hm hout
  have hnone := hends.pending_of_dropped.1
  refine ⟨ms, s, hrun, m, hm, ⟨w, hout⟩, hpending, (ht.hasNoPending_iff hL').mpr hnone,
    fun hsame ↦ ?_⟩
  rw [hs.hasNoPending_iff hL] at hpending
  exact hsame.pending_ne_none hs ht hpending hnone

theorem dropped_leaves_pending_iff_crowding : ∃ ms s, Run genesis crowding ms s ∧ ∃ m ∈ ms,
    (SamePending .oracle m.before m.after ↔ HasNoPending .oracle www m.before) ∧
      HasNoPending .oracle www m.after := by
  obtain ⟨ms, s, hrun, m, hm, hdrops⟩ := exists_dropsPending
  obtain ⟨⟨w, hout⟩, -⟩ := of_dropsPending hdrops
  exact ⟨ms, s, hrun, m, hm, Run.dropped_leaves_pending_iff hrun hm hout⟩

end Reference

end Felidae
