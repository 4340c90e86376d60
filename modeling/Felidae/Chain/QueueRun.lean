import Felidae.Chain.Step
import Felidae.Ledger.Entries
import Felidae.Ledger.Frame

/-!
# Runs of a queue

A vote queue is cast on, expired and promoted from, in any order, under whatever config and at
whatever block time the state has then; between these calls the rest of the state changes, and the
block time does not go back. The values cast decode to themselves and fit their keys, as the
actions see to before they cast.

What a call can do to the ledger is said once, in `Ledger.QueueStep`. The rule for invariants of a
run is about ledgers: the store of a run holds a sound ledger, and what is preserved by the steps
of the ledger holds of it.
-/

namespace Felidae

variable [Host]

/-! ## Runs over stores -/

/-- What happens to a queue. -/
inductive QueueEvent (q : QueueId) where
  | cast (order : IterOrder) (key : q.Key) (party : Bytes) (value : q.Value)
  | timeoutExpiredVotes
  | promotePendingChanges (result : Except Fault (List (q.Key × q.Value)))
  /-- Something outside the queue changes. -/
  | elsewhere

/-- The calls of a queue, and what happens between them. A value that is cast decodes to itself, and
fits its key: the checks of the actions make sure of both. -/
inductive QueueStep (q : QueueId) : Store → QueueEvent q → Store → Prop where
  | cast {s : Store} {c : Config} {now : Time} (order : IterOrder) (k : q.Key) (party : Bytes)
      {v : q.Value} (hconfig : State.config s = .ok c) (htime : State.blockTime s = .ok now)
      (hclean : Clean v) (hfits : q.Fits k v) :
      QueueStep q s (.cast order k party v)
        ((q.queue c).cast order ⟨hexEncode party, now, k, v⟩ s).2
  | timeoutExpiredVotes {s : Store} {c : Config} {now : Time} (hconfig : State.config s = .ok c)
      (htime : State.blockTime s = .ok now) :
      QueueStep q s .timeoutExpiredVotes ((q.queue c).timeoutExpiredVotes s).2
  | promotePendingChanges {s : Store} {c : Config} {now : Time}
      (hconfig : State.config s = .ok c) (htime : State.blockTime s = .ok now) :
      QueueStep q s (.promotePendingChanges ((q.queue c).promotePendingChanges s).1)
        ((q.queue c).promotePendingChanges s).2
  | elsewhere {s t : Store} (hsame : q.SameTables s t) (hsound : ∃ L, Represents t L ∧ L.Sound)
      (hmono : ∀ now, State.blockTime s = .ok now →
        ∃ now', State.blockTime t = .ok now' ∧ now ≤ now') : QueueStep q s .elsewhere t

namespace QueueState

/-- There is nothing in the queue. -/
structure IsEmpty {K V : Type} (Q : QueueState K V) : Prop where
  votes : ∀ k p, Q.votes k p = none
  voteIndex : ∀ t k p, Q.voteIndex t k p = none
  pending : ∀ k, Q.pending k = none

end QueueState

/-- A queue is empty before it is used. -/
def QueueStart (q : QueueId) (s : Store) : Prop :=
  ∃ L, Represents s L ∧ L.Sound ∧ (L.queue q).IsEmpty

/-- The calls a queue has seen, and the state they have led to. -/
abbrev QueueHistory (q : QueueId) : List (Moment Store (QueueEvent q)) → Store → Prop :=
  History (QueueStart q) (QueueStep q)

/-! ## Runs over ledgers -/

omit [Host] in
/-- A second starts before the times in it. -/
theorem Time.toTime_second_le (now : Time) : now.second.toTime.total ≤ now.total := by
  simp only [Time.total, Second.toTime, Time.second]
  omega

/-- What was made in second `t` has reached the age at time `now`. -/
def Elapsed (age : Duration) (now : Time) (t : Second) : Prop :=
  (age : ℤ) ≤ now.total - t.toTime.total

instance (age : Duration) (now : Time) (t : Second) : Decidable (Elapsed age now t) :=
  inferInstanceAs (Decidable ((age : ℤ) ≤ _))

omit [Host] in
/-- For a past second this is what the filters of the queue compute. -/
theorem elapsed_iff {age : Duration} {now : Time} {t : Second} (h : t.toTime ≤ now) :
    Elapsed age now t ↔ age ≤ now.ageOf t.toTime := by
  have hle : t.toTime.total ≤ now.total := h
  rw [Elapsed, Time.ageOf, Time.durationSince, if_pos hle, Option.getD_some]
  exact (Int.le_toNat (by omega)).symm

namespace Ledger

/-- What the calls of a queue do to the ledger. -/
inductive QueueStep (q : QueueId) : Ledger → QueueEvent q → Ledger → Prop where
  | cast {L L' : Ledger} {now : Time} {order : IterOrder} {k : q.Key} {party : Bytes} {v : q.Value}
      (htime : L.time = some now) (hclean : Clean v) (hfits : q.Fits k v)
      (hcast : L.Cast q k party now.second v L') : QueueStep q L (.cast order k party v) L'
  | expired {L : Ledger} {now : Time} {D : Set (Second × q.Key × Bytes)}
      (htime : L.time = some now) (hexpiring : L.Expiring q now D) :
      QueueStep q L .timeoutExpiredVotes (L.expire q D)
  | promoted {L : Ledger} {now : Time} {es : List (Second × q.Key × q.Value)}
      (htime : L.time = some now) (hpromoting : L.Promoting q now es) :
      QueueStep q L (.promotePendingChanges (.ok (es.map Prod.snd)))
        (L.promote q {k | ∃ e ∈ es, e.2.1 = k})
  | elsewhere {L L' : Ledger} (hqueue : L'.queue q = L.queue q) (hsound : L'.Sound)
      (hmono : ∀ now, L.time = some now → ∃ now', L'.time = some now' ∧ now ≤ now') :
      QueueStep q L .elsewhere L'

variable {q : QueueId} {L L' : Ledger} {e : QueueEvent q}

theorem QueueStep.sound (h : L.QueueStep q e L') (hL : L.Sound) : L'.Sound := by
  cases h with
  | cast _ hclean hfits hcast => exact hL.cast hclean hfits hcast
  | expired => exact hL.expire _
  | promoted => exact hL.promote _
  | elsewhere _ hsound _ => exact hsound

/-- A pending change after a step was pending before it, or a cast has just installed it. -/
theorem QueueStep.pending (h : L.QueueStep q e L') {k : q.Key} {x : Second × q.Value}
    (hx : (L'.queue q).pending k = some x) : (L.queue q).pending k = some x ∨
      ∃ order party v now, e = .cast order k party v ∧ L.time = some now ∧ now.second = x.1 := by
  cases h with
  | @cast _ now order k' party v htime _ _ hcast =>
    by_cases hk : k = k'
    · subst hk
      rcases hcast.pending_self with hsame | hnone | ⟨w, -, hsome, -⟩
      · exact .inl (hsame ▸ hx)
      · cases hnone.symm.trans hx
      · obtain rfl := Option.some.inj (hsome.symm.trans hx)
        exact .inr ⟨order, party, v, now, rfl, htime, rfl⟩
    · exact .inl (hcast.pending_of_ne hk ▸ hx)
  | expired =>
    rw [expire, queue_setQueue] at hx
    exact .inl hx
  | promoted =>
    rw [queue_promote] at hx
    exact .inl ((QueueState.pending_promote_eq_some _ _).mp hx).1
  | elsewhere hqueue _ _ =>
    rw [hqueue] at hx
    exact .inl hx

/-- An index entry after a step was there before it, or a cast has just made it. -/
theorem QueueStep.voteIndex (h : L.QueueStep q e L') {t : Second} {k : q.Key} {p : Bytes}
    (hx : ((L'.queue q).voteIndex t k p).isSome) : ((L.queue q).voteIndex t k p).isSome ∨
      ∃ order v now, e = .cast order k p v ∧ L.time = some now ∧ now.second = t := by
  cases h with
  | @cast _ now order k' party v htime _ _ hcast =>
    rcases hcast.voteIndex hx with hbefore | ⟨rfl, rfl, rfl⟩
    · exact .inl hbefore
    · exact .inr ⟨order, v, now, rfl, htime, rfl⟩
  | expired =>
    rw [expire, queue_setQueue] at hx
    exact .inl (QueueState.voteIndex_of_expire _ _ hx)
  | promoted =>
    rw [queue_promote] at hx
    exact .inl hx
  | elsewhere hqueue _ _ =>
    rw [hqueue] at hx
    exact .inl hx

/-- The block time does not go back. -/
theorem QueueStep.time_mono (h : L.QueueStep q e L') (now : Time) (hnow : L.time = some now) :
    ∃ now', L'.time = some now' ∧ now ≤ now' := by
  have hrefl : now ≤ now := le_refl now.total
  cases h with
  | cast _ _ _ hcast =>
    obtain ⟨Q, rfl⟩ := hcast.frame
    exact ⟨now, hnow, hrefl⟩
  | expired => exact ⟨now, hnow, hrefl⟩
  | promoted => exact ⟨now, hnow, hrefl⟩
  | elsewhere _ _ hmono => exact hmono now hnow

/-! ### Dates -/

/-- A second from 1970 on that is not later than the block time. -/
def Past (L : Ledger) (t : Second) : Prop :=
  0 ≤ t.secs ∧ ∃ now, L.time = some now ∧ t.toTime ≤ now

/-- The indexes of a queue hold nothing but entries of past seconds. -/
structure Dated (L : Ledger) (q : QueueId) : Prop where
  voteIndex : ∀ t k p, ((L.queue q).voteIndex t k p).isSome → L.Past t
  pending : ∀ k t v, (L.queue q).pending k = some (t, v) → L.Past t

omit [Host] in
theorem Past.elapsed_iff {t : Second} (h : L.Past t) {now : Time} (hnow : L.time = some now)
    {age : Duration} : Elapsed age now t ↔ age ≤ now.ageOf t.toTime := by
  obtain ⟨-, now', hnow', hle⟩ := h
  obtain rfl := Option.some.inj (hnow'.symm.trans hnow)
  exact Felidae.elapsed_iff hle

theorem QueueStep.dated (h : L.QueueStep q e L') (hL : L.Dated q)
    (hepoch : ∀ now, L.time = some now → 0 ≤ now.unixTimestamp) : L'.Dated q := by
  have hkeep : ∀ {t}, L.Past t → L'.Past t := by
    rintro t ⟨hsecs, now, hnow, hle⟩
    obtain ⟨now', hnow', hle'⟩ := h.time_mono now hnow
    exact ⟨hsecs, now', hnow', le_trans (show t.toTime.total ≤ now.total from hle) hle'⟩
  have hnew : ∀ {now}, L.time = some now → L'.Past now.second := by
    intro now hnow
    obtain ⟨now', hnow', hle'⟩ := h.time_mono now hnow
    exact ⟨hepoch now hnow, now', hnow', le_trans now.toTime_second_le hle'⟩
  constructor
  · intro t k p hx
    rcases h.voteIndex hx with hx | ⟨_, _, now, -, hnow, rfl⟩
    · exact hkeep (hL.voteIndex t k p hx)
    · exact hnew hnow
  · intro k t v hx
    rcases h.pending hx with hx | ⟨_, _, _, now, -, hnow, rfl⟩
    · exact hkeep (hL.pending k t v hx)
    · exact hnew hnow

end Ledger

/-! ## From stores to ledgers -/

section Refinement

variable [LawfulHost] {q : QueueId} {s t : Store} {L M : Ledger}

omit [LawfulHost] in
theorem Represents.blockTime_eq_ok (h : Represents s L) {now : Time} :
    State.blockTime s = .ok now ↔ L.time = some now := by
  rw [h.blockTime, okOr_eq_ok]

omit [LawfulHost] in
/-- A queue whose tables have not changed is the same queue. -/
theorem Represents.of_sameTables (hs : Represents s L) (ht : Represents t M)
    (hsame : q.SameTables s t) : Represents t (M.setQueue q (L.queue q)) := by
  refine Laid.congr ht (M.view_setQueue q _ (fun _ _ ↦ rfl) (fun k p t' ↦ ?_) fun k t' ↦ ?_)
    (M.indexView_setQueue q _ (fun _ _ ↦ rfl) (fun t' k p ↦ ?_) fun t' k ↦ ?_)
  · exact (ht.verifiable.get (.vote q k p t')).symm.trans
      ((congrFun hsame.votes _).trans (hs.verifiable.get (.vote q k p t')))
  · exact (ht.verifiable.get (.pending q k t')).symm.trans
      ((congrFun hsame.pending _).trans (hs.verifiable.get (.pending q k t')))
  · exact (ht.nonverifiable.get (.vote q t' k p)).symm.trans
      ((congrFun hsame.voteIndex _).trans (hs.nonverifiable.get (.vote q t' k p)))
  · exact (ht.nonverifiable.get (.pending q t' k)).symm.trans
      ((congrFun hsame.pendingIndex _).trans (hs.nonverifiable.get (.pending q t' k)))

omit [LawfulHost] in
theorem Ledger.Sound.transplant (hM : M.Sound) (hL : L.Sound) :
    (M.setQueue q (L.queue q)).Sound :=
  hM.setQueue (fun _ _ _ _ he ↦ hL.votes he) (hL.pending_clean q)

/-- Every call of a queue is a step of the ledger. -/
theorem QueueStep.outcome {e : QueueEvent q} (h : QueueStep q s e t) (hs : Represents s L)
    (hL : L.Sound) : ∃ L', L.QueueStep q e L' ∧ Represents t L' := by
  cases h with
  | cast order k party hconfig htime hclean hfits =>
    obtain rfl := Except.ok.inj (hs.config.symm.trans hconfig)
    obtain ⟨t', L', hrun, ht, hcast⟩ := hs.cast hL q order k party _ hclean hfits
    rw [hrun]
    exact ⟨L', .cast (hs.blockTime_eq_ok.mp htime) hclean hfits hcast, ht⟩
  | timeoutExpiredVotes hconfig htime =>
    obtain rfl := Except.ok.inj (hs.config.symm.trans hconfig)
    have hnow := hs.blockTime_eq_ok.mp htime
    obtain ⟨D, t', hrun, ht, hexpiring⟩ := hs.timeoutExpiredVotes q hnow
    rw [hrun]
    exact ⟨_, .expired hnow hexpiring, ht⟩
  | promotePendingChanges hconfig htime =>
    obtain rfl := Except.ok.inj (hs.config.symm.trans hconfig)
    have hnow := hs.blockTime_eq_ok.mp htime
    obtain ⟨es, t', hrun, ht, hpromoting⟩ := hs.promotePendingChanges hL q hnow
    rw [hrun]
    exact ⟨_, .promoted hnow hpromoting, ht⟩
  | elsewhere hsame hsound hmono =>
    obtain ⟨M, ht, hM⟩ := hsound
    refine ⟨M.setQueue q (L.queue q), .elsewhere (Ledger.queue_setQueue ..) (hM.transplant hL)
      fun now hnow ↦ ?_, hs.of_sameTables ht hsame⟩
    obtain ⟨now', hnow', hle⟩ := hmono now (hs.blockTime_eq_ok.mpr hnow)
    exact ⟨now', ht.blockTime_eq_ok.mp hnow', hle⟩

/-- The rule for invariants of a queue: what holds of an empty queue and is preserved by its steps
holds of a ledger that the store represents. -/
theorem QueueHistory.invariant {I : Ledger → Prop} {ms : List (Moment Store (QueueEvent q))}
    (hist : QueueHistory q ms s) (hinit : ∀ L, L.Sound → (L.queue q).IsEmpty → I L)
    (hstep : ∀ m ∈ ms, ∀ L L', Represents m.before L → L.Sound → I L →
      L.QueueStep q m.event L' → I L') : ∃ L, Represents s L ∧ L.Sound ∧ I L := by
  induction hist with
  | start hstart =>
    obtain ⟨L, hs, hL, hempty⟩ := hstart
    exact ⟨L, hs, hL, hinit L hL hempty⟩
  | next _ hst ih =>
    obtain ⟨L, hs, hL, hI⟩ := ih fun m hm ↦ hstep m (List.mem_cons_of_mem _ hm)
    obtain ⟨L', hL', ht⟩ := hst.outcome hs hL
    exact ⟨L', ht, hL'.sound hL, hstep _ List.mem_cons_self L L' hs hL hI hL'⟩

/-- The store of a run holds a sound ledger. -/
theorem QueueHistory.exists_ledger {ms : List (Moment Store (QueueEvent q))}
    (hist : QueueHistory q ms s) : ∃ L, Represents s L ∧ L.Sound := by
  obtain ⟨L, hs, hL, -⟩ := hist.invariant (I := fun _ ↦ True) (fun _ _ _ ↦ trivial)
    fun _ _ _ _ _ _ _ _ ↦ trivial
  exact ⟨L, hs, hL⟩

/-- As long as the block times are not before 1970, the entries of a queue are of past seconds. -/
theorem QueueHistory.exists_dated {ms : List (Moment Store (QueueEvent q))}
    (hist : QueueHistory q ms s) (hepoch : ∀ m ∈ ms, ∀ now,
      State.blockTime m.before = .ok now → 0 ≤ now.unixTimestamp) :
    ∃ L, Represents s L ∧ L.Sound ∧ L.Dated q := by
  refine hist.invariant (fun L _ hempty ↦ ⟨fun t k p hx ↦ ?_, fun k t v hx ↦ ?_⟩)
    fun m hm L L' hs _ hdated hstep ↦ hstep.dated hdated fun now hnow ↦
      hepoch m hm now (hs.blockTime_eq_ok.mpr hnow)
  · cases (congrArg Option.isSome (hempty.voteIndex t k p)).symm.trans hx
  · cases (hempty.pending k).symm.trans hx

end Refinement

end Felidae
