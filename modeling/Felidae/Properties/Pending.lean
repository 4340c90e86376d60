import Felidae.Chain.QueueOfRun

/-!
# The pending changes

A pending change is in two stores, by key and by second. Whatever a queue is asked for, in any
order, the two hold the same entries and at most one for each key. From the cast that installs a
pending change until the promotion that hands it on it is pending at every moment, so it is
promoted once, and not after something else has become pending in its place.

From 1970 on the index is in the order of time, and promotion is exact: it hands on and removes
the changes that have waited long enough, and no others.
-/

namespace Felidae

section Queue

variable [Host]

/-! ## Two stores -/

/-- The two stores of the pending changes hold the same entries, one for each key at most. -/
structure PendingAgree (q : QueueId) (c : Config) (s : Store) : Prop where
  entries : ∃ byKey byTimestamp, (q.queue c).pendingEntries s = .ok byKey ∧
    (q.queue c).pendingIndexEntries s = .ok byTimestamp ∧ byKey.Perm byTimestamp ∧
    (byKey.map fun e ↦ e.2.1).Nodup
  single : ∀ k : q.Key, ∃ o, (q.queue c).pendingForKey k s = .ok o

/-- The pending change of the key is the value, made in second `t`. -/
def HasPending (q : QueueId) (k : q.Key) (t : Second) (v : q.Value) (s : Store) : Prop :=
  ∀ c, (q.queue c).pendingUnder (QueueKey.toText k) s = .ok [(t.toTime, v)]

/-- Nothing is pending for the key. -/
def HasNoPending (q : QueueId) (k : q.Key) (s : Store) : Prop :=
  ∀ c, (q.queue c).pendingUnder (QueueKey.toText k) s = .ok []

theorem HasPending.not_hasNoPending {q : QueueId} {k : q.Key} {t : Second} {v : q.Value}
    {s : Store} (h : HasPending q k t v s) : ¬HasNoPending q k s := fun hnone ↦ by
  cases (h State.defaultConfig).symm.trans (hnone State.defaultConfig)

/-- A cast at a moment has installed the value as the pending change of the key. -/
def InstallsAt {q : QueueId} (m : Moment Store (QueueEvent q)) (k : q.Key) (t : Second)
    (v : q.Value) : Prop :=
  (∃ order party w now, m.event = .cast order k party w ∧ State.blockTime m.before = .ok now ∧
    now.second = t) ∧ ¬HasPending q k t v m.before ∧ HasPending q k t v m.after

/-- A promotion hands on the value of the key. -/
def PromotesAt {q : QueueId} (m : Moment Store (QueueEvent q)) (k : q.Key) (v : q.Value) : Prop :=
  ∃ promoted, m.event = .promotePendingChanges (.ok promoted) ∧ (k, v) ∈ promoted

variable [LawfulHost] {q : QueueId} {s t : Store} {L : Ledger}

theorem Represents.pendingAgree (hs : Represents s L) (hL : L.Sound) (c : Config) :
    PendingAgree q c s := by
  obtain ⟨es, hes, hmem, hnodup⟩ := hs.pendingEntries q c hL
  obtain ⟨is, his, hmem', hnodup'⟩ := hs.pendingIndexEntries q c hL
  refine ⟨⟨_, _, hes, his, List.Perm.map _ ?_, ?_⟩, fun k ↦ ⟨_, hs.pendingForKey hL q c k⟩⟩
  · refine (List.perm_ext_iff_of_nodup (List.Nodup.of_map _ hnodup) hnodup').mpr ?_
    rintro ⟨t, k, v⟩
    rw [hmem, hmem']
  · have hkeys : (es.map q.readPending).map (fun e ↦ e.2.1)
        = (es.map fun e ↦ e.2.1).map QueueKey.toText := by
      rw [List.map_map, List.map_map]
      rfl
    rw [hkeys]
    exact hnodup.map q.toText_injective

theorem Represents.hasPending_iff (hs : Represents s L) (hL : L.Sound) {k : q.Key} {t : Second}
    {v : q.Value} : HasPending q k t v s ↔ (L.queue q).pending k = some (t, v) := by
  constructor
  · intro h
    have hlist := Except.ok.inj ((hs.pendingUnder hL q L.config k).symm.trans (h L.config))
    rcases hp : (L.queue q).pending k with _ | ⟨t', v'⟩ <;> rw [hp] at hlist
    · cases hlist
    · obtain ⟨htime, hvalue⟩ := Prod.mk.inj (List.cons.inj hlist).1
      exact congrArg some (Prod.ext (Second.toTime_injective htime) hvalue)
  · intro h c
    rw [hs.pendingUnder hL q c k, h]
    rfl

theorem Represents.hasNoPending_iff (hs : Represents s L) (hL : L.Sound) {k : q.Key} :
    HasNoPending q k s ↔ (L.queue q).pending k = none := by
  constructor
  · intro h
    have hlist := Except.ok.inj ((hs.pendingUnder hL q L.config k).symm.trans (h L.config))
    rcases hp : (L.queue q).pending k with _ | e
    · rfl
    · rw [hp] at hlist
      cases hlist
  · intro h c
    rw [hs.pendingUnder hL q c k, h]
    rfl

/-- What is pending after a step was pending before it, or a cast has installed it. -/
theorem QueueStep.hasPending {e : QueueEvent q} (h : QueueStep q s e t) (hs : Represents s L)
    (hL : L.Sound) {k : q.Key} {second : Second} {v : q.Value} (hv : HasPending q k second v t) :
    InstallsAt ⟨s, e, t⟩ k second v ∨ HasPending q k second v s := by
  by_cases hbefore : HasPending q k second v s
  · exact .inr hbefore
  obtain ⟨L', hstep, ht⟩ := h.outcome hs hL
  rcases hstep.pending ((ht.hasPending_iff (hstep.sound hL)).mp hv) with
    hsame | ⟨order, party, w, now, rfl, hnow, rfl⟩
  · exact absurd ((hs.hasPending_iff hL).mpr hsame) hbefore
  · exact .inl ⟨⟨order, party, w, now, rfl, hs.blockTime_eq_ok.mpr hnow, rfl⟩, hbefore, hv⟩

/-- What is pending in a run was installed by a cast, and has been pending since. -/
theorem QueueHistory.exists_install {ms : List (Moment Store (QueueEvent q))}
    (hist : QueueHistory q ms s) {k : q.Key} {second : Second} {v : q.Value}
    (hv : HasPending q k second v s) :
    ∃ newer m older, ms = newer ++ m :: older ∧ InstallsAt m k second v ∧
      ∀ x ∈ newer, HasPending q k second v x.before ∧ HasPending q k second v x.after := by
  obtain ⟨newer, m, older, rfl, hmade, -, hnewer⟩ := hist.origin (HasPending q k second v)
    (fun m ↦ InstallsAt m k second v)
    (fun s hstart hp ↦ by
      obtain ⟨L, hs, hL, hempty⟩ := hstart
      cases (hempty.pending k).symm.trans ((hs.hasPending_iff hL).mp hp))
    (fun ms s e t hist hstep hp ↦ by
      obtain ⟨L, hs, hL⟩ := QueueHistory.exists_ledger hist
      exact hstep.hasPending hs hL hp) hv
  exact ⟨newer, m, older, rfl, hmade, fun x hx ↦ (hnewer x hx).2⟩

/-- A promotion hands on what is pending, each key once, and leaves nothing pending for it. -/
theorem QueueStep.promotes {result : Except Fault (List (q.Key × q.Value))}
    (h : QueueStep q s (.promotePendingChanges result) t) (hs : Represents s L) (hL : L.Sound) :
    ∃ promoted, result = .ok promoted ∧ (promoted.map Prod.fst).Nodup ∧
      ∀ e ∈ promoted, (∃ second, HasPending q e.1 second e.2 s) ∧ HasNoPending q e.1 t := by
  obtain ⟨L', hstep, ht⟩ := h.outcome hs hL
  have hL' := hstep.sound hL
  cases hstep with
  | @promoted _ es _ hpromoting =>
    refine ⟨es.map Prod.snd, rfl, ?_, fun e he ↦ ?_⟩
    · rw [List.map_map]
      exact hpromoting.nodup_keys
    · obtain ⟨x, hx, rfl⟩ := List.mem_map.mp he
      have hmem : x.2.1 ∈ {k | ∃ e ∈ es, e.2.1 = k} := ⟨x, hx, rfl⟩
      refine ⟨⟨x.1, (hs.hasPending_iff hL).mpr (hpromoting.ripe x hx).1⟩, ?_⟩
      rw [ht.hasNoPending_iff hL', Ledger.queue_promote]
      exact QueueState.pending_promote_of_mem _ hmem

/-- The pending queue is consistent in every state that any sequence of calls can lead to, if what
is cast decodes to itself and fits its key, as the actions make sure of. Its two stores agree, with
at most one entry for each key; and each value that a promotion hands on was installed by an earlier
cast, has been pending at every moment since, was not promoted before, and is gone from both stores
after. -/
theorem QueueHistory.pending_consistent {ms : List (Moment Store (QueueEvent q))}
    (hist : QueueHistory q ms s) :
    (∀ c, PendingAgree q c s) ∧
    ∀ newer m older result, ms = newer ++ m :: older → m.event = .promotePendingChanges result →
      ∃ promoted, result = .ok promoted ∧ (promoted.map Prod.fst).Nodup ∧ ∀ e ∈ promoted,
        HasNoPending q e.1 m.after ∧
        ∃ second between install before, older = between ++ install :: before ∧
          InstallsAt install e.1 second e.2 ∧ HasPending q e.1 second e.2 m.before ∧
          ∀ x ∈ between, HasPending q e.1 second e.2 x.before ∧
            HasPending q e.1 second e.2 x.after ∧ ∀ v, ¬PromotesAt x e.1 v := by
  constructor
  · intro c
    obtain ⟨L, hs, hL⟩ := hist.exists_ledger
    exact hs.pendingAgree hL c
  rintro newer m older result rfl hevent
  obtain ⟨hbefore, hstep⟩ := History.split hist
  obtain ⟨L, hs, hL⟩ := QueueHistory.exists_ledger hbefore
  rw [hevent] at hstep
  obtain ⟨promoted, rfl, hnodup, hpromoted⟩ := hstep.promotes hs hL
  refine ⟨promoted, rfl, hnodup, fun e he ↦ ⟨(hpromoted e he).2, ?_⟩⟩
  obtain ⟨second, hpending⟩ := (hpromoted e he).1
  obtain ⟨between, install, before, rfl, hinstall, hbetween⟩ :=
    QueueHistory.exists_install hbefore hpending
  refine ⟨second, between, install, before, rfl, hinstall, hpending, fun x hx ↦
    ⟨(hbetween x hx).1, (hbetween x hx).2, ?_⟩⟩
  -- a promotion in between would have left nothing pending
  rintro v ⟨promoted', hevent', hmem⟩
  obtain ⟨front, back, rfl⟩ := List.append_of_mem hx
  rw [List.append_assoc, List.cons_append] at hbefore
  obtain ⟨hx', hstep'⟩ := History.split hbefore
  obtain ⟨M, hxs, hM⟩ := QueueHistory.exists_ledger hx'
  rw [hevent'] at hstep'
  obtain ⟨_, hok, -, hgone⟩ := hstep'.promotes hxs hM
  obtain rfl := Except.ok.inj hok
  exact (hbetween x hx).2.not_hasNoPending (hgone _ hmem).2

/-! ## Promotion -/

/-- A promotion at time `now` with the given delay leads from one store to the other and hands on
the list: the changes that are pending for long enough, in order of time, each once. Their entries
go from both stores; everything else stays. -/
structure Promotes (q : QueueId) (delay : Duration) (now : Time) (s : Store)
    (promoted : List (q.Key × q.Value)) (t : Store) : Prop where
  handed : ∃ es : List (Second × q.Key × q.Value), promoted = es.map Prod.snd ∧
    (es.Pairwise fun e e' ↦ e.1.secs ≤ e'.1.secs) ∧ (promoted.map Prod.fst).Nodup ∧
    ∀ second k v, (second, k, v) ∈ es ↔ HasPending q k second v s ∧ Elapsed delay now second
  pending : ∀ k second, t.verifiable[(Key.pending q k second).text]?
    = if Elapsed delay now second then none else s.verifiable[(Key.pending q k second).text]?
  index : ∀ k second, t.nonverifiable[(IndexKey.pending q second k).bytes]?
    = if Elapsed delay now second then none
      else s.nonverifiable[(IndexKey.pending q second k).bytes]?
  others : ∀ key, (∀ k second, key ≠ (Key.pending q k second).text) →
    t.verifiable[key]? = s.verifiable[key]?
  otherIndexes : ∀ key, (∀ k second, key ≠ (IndexKey.pending q second k).bytes) →
    t.nonverifiable[key]? = s.nonverifiable[key]?

namespace Ledger

variable {now : Time} {es : List (Second × q.Key × q.Value)}

omit [Host] [LawfulHost] in
/-- In a dated queue the promoted changes are those whose delay has elapsed. -/
theorem Promoting.mem_iff (h : L.Promoting q now es) (hL : L.Dated q) (hnow : L.time = some now)
    {second : Second} {k : q.Key} {v : q.Value} : (second, k, v) ∈ es ↔
      (L.queue q).pending k = some (second, v) ∧
        Elapsed (q.voting L.config).delay now second := by
  constructor
  · intro he
    obtain ⟨hp, hripe⟩ := h.ripe _ he
    exact ⟨hp, ((hL.pending k second v hp).elapsed_iff hnow).mpr hripe⟩
  · rintro ⟨hp, helapsed⟩
    exact h.complete (fun k t v hp ↦ (hL.pending k t v hp).1) k second v hp
      (((hL.pending k second v hp).elapsed_iff hnow).mp helapsed)

omit [Host] [LawfulHost] in
/-- What promotion leaves of the entries of one second. -/
theorem Promoting.heldAt (h : L.Promoting q now es) (hL : L.Dated q) (hnow : L.time = some now)
    (k : q.Key) (second : Second) :
    Felidae.heldAt (((L.queue q).promote {k | ∃ e ∈ es, e.2.1 = k}).pending k) second
      = if Elapsed (q.voting L.config).delay now second then none
        else Felidae.heldAt ((L.queue q).pending k) second := by
  by_cases hk : k ∈ {k | ∃ e ∈ es, e.2.1 = k}
  · -- the pending change of the key is promoted, so its second has elapsed
    rw [QueueState.pending_promote_of_mem _ hk]
    obtain ⟨e, he, rfl⟩ := hk
    obtain ⟨hp, helapsed⟩ := (h.mem_iff hL hnow).mp he
    split_ifs with helapsed'
    · rfl
    · rw [hp]
      have hne : e.1 ≠ second := by
        rintro rfl
        exact helapsed' helapsed
      simp [Felidae.heldAt, hne]
  · rw [QueueState.pending_promote_of_notMem _ hk]
    split_ifs with helapsed
    · rcases hv : Felidae.heldAt ((L.queue q).pending k) second with _ | v
      · rfl
      · exact absurd ⟨(second, k, v),
          (h.mem_iff hL hnow).mpr ⟨heldAt_eq_some.mp hv, helapsed⟩, rfl⟩ hk
    · rfl

end Ledger

/-- Promotion is exact in every state of a queue whose block times are from 1970 on, with whatever
delay is in force, if what is cast decodes to itself and fits its key; and promoting again at the
same time hands on nothing. -/
theorem QueueHistory.promotes_exactly {ms : List (Moment Store (QueueEvent q))}
    (hist : QueueHistory q ms s) (hepoch : ∀ m ∈ ms, ∀ now,
      State.blockTime m.before = .ok now → 0 ≤ now.unixTimestamp)
    {c : Config} {now : Time} (hconfig : State.config s = .ok c)
    (hnow : State.blockTime s = .ok now) :
    ∃ promoted t, (q.queue c).promotePendingChanges s = (.ok promoted, t) ∧
      Promotes q (q.voting c).delay now s promoted t ∧
      (q.queue c).promotePendingChanges t = (.ok [], t) := by
  obtain ⟨L, hs, hL, hdated⟩ := hist.exists_dated hepoch
  obtain rfl := Except.ok.inj (hs.config.symm.trans hconfig)
  have htime := hs.blockTime_eq_ok.mp hnow
  obtain ⟨es, t, hrun, ht, hpromoting⟩ := hs.promotePendingChanges hL q htime
  refine ⟨_, t, hrun, ?_, ?_⟩
  · refine ⟨⟨es, rfl, hpromoting.ordered fun k t v hp ↦ (hdated.pending k t v hp).1, ?_,
      fun second k v ↦ ?_⟩, fun k second ↦ ?_, fun k second ↦ ?_, fun key hkey ↦ ?_,
      fun key hkey ↦ ?_⟩
    · rw [List.map_map]
      exact hpromoting.nodup_keys
    · rw [hpromoting.mem_iff hdated htime, hs.hasPending_iff hL]
    · have hbefore := hs.verifiable.get (.pending q k second)
      have hafter := ht.verifiable.get (.pending q k second)
      rw [List.nil_append] at hbefore hafter
      rw [hbefore, hafter, Ledger.view, Ledger.queue_promote, hpromoting.heldAt hdated htime]
      split_ifs <;> rfl
    · have hbefore := hs.nonverifiable.get (.pending q second k)
      have hafter := ht.nonverifiable.get (.pending q second k)
      rw [List.nil_append] at hbefore hafter
      rw [hbefore, hafter, Ledger.indexView, Ledger.queue_promote, hpromoting.heldAt hdated htime]
      split_ifs <;> rfl
    · refine hs.verifiable.getElem?_congr ht.verifiable List.nil_prefix fun x hx ↦
        Ledger.view_setQueue_of_eq (fun _ _ _ _ ↦ rfl) ?_
      rintro k second rfl
      exact absurd hx (hkey k second)
    · refine hs.nonverifiable.getElem?_congr ht.nonverifiable List.nil_prefix fun x hx ↦
        Ledger.indexView_setQueue_of_eq (fun _ _ _ _ ↦ rfl) ?_
      rintro second k rfl
      exact absurd hx (hkey k second)
  · -- what is still pending has not waited long enough
    obtain ⟨es', hripe, hes', -⟩ :=
      ht.ripePending (hL.promote (q := q) {k | ∃ e ∈ es, e.2.1 = k}) q L.config now
    have hnil : es' = [] := by
      refine List.eq_nil_iff_forall_not_mem.mpr fun e he ↦ ?_
      obtain ⟨hp, hold⟩ := hes' e he
      rw [Ledger.queue_promote, QueueState.pending_promote_eq_some] at hp
      have helapsed := ((hdated.pending _ _ _ hp.1).elapsed_iff htime).mpr hold
      exact hp.2 ⟨e, (hpromoting.mem_iff hdated htime).mpr ⟨hp.1, helapsed⟩, rfl⟩
    rw [hnil] at hripe
    rw [VoteQueue.promotePendingChanges, Exec.read_bind_of_ok (ht.blockTime_eq_ok.mpr htime),
      Exec.read_bind_of_ok hripe]
    rfl

end Queue

namespace Reference

/-- How many changes are pending in the oracle queue. -/
def countPending (s : Store) : Option ℕ :=
  ((QueueId.oracle.queue State.defaultConfig).pendingEntries s).toOption.map List.length

theorem pending_consistent_awaiting : ∃ ms s, QueueHistory .oracle ms s ∧
    countPending s = some 1 ∧ ∀ c, PendingAgree .oracle c s := by
  obtain ⟨ms, s, -, hist, -, -, -, hcount⟩ := exists_queueHistory .oracle awaiting (timeAt 30)
    (by decide) (fun s ↦ decide (countPending s = some 1)) (by decide +kernel)
  exact ⟨ms, s, hist, of_decide_eq_true hcount, (QueueHistory.pending_consistent hist).1⟩

/-- A change that has waited for 1000 seconds is promoted, and leaves the queue. -/
theorem promotes_exactly_awaiting : ∃ s c now promoted t,
    countPending s = some 1 ∧ countPending t = some 0 ∧ promoted.length = 1 ∧
      (QueueId.oracle.queue c).promotePendingChanges s = (.ok promoted, t) ∧
      Promotes .oracle (QueueId.oracle.voting c).delay now s promoted t ∧
      (QueueId.oracle.queue c).promotePendingChanges t = (.ok [], t) := by
  obtain ⟨ms, s, c, hist, hepoch, hconfig, hnow, htest⟩ :=
    exists_queueHistory .oracle awaiting (timeAt 1100) (by decide)
      (fun s ↦ decide (countPending s = some 1) &&
        (State.config s).toOption.any fun c ↦
          let r := (QueueId.oracle.queue c).promotePendingChanges s
          decide (countPending r.2 = some 0) &&
            decide (r.1.toOption.map List.length = some 1)) (by decide +kernel)
  obtain ⟨promoted, t, hrun, hpromotes, hagain⟩ :=
    QueueHistory.promotes_exactly hist hepoch hconfig hnow
  rw [hconfig] at htest
  obtain ⟨hbefore, hafter⟩ := Bool.and_eq_true_iff.mp htest
  obtain ⟨hafter, hlength⟩ := Bool.and_eq_true_iff.mp hafter
  rw [hrun] at hafter hlength
  exact ⟨s, c, _, promoted, t, of_decide_eq_true hbefore, of_decide_eq_true hafter,
    Option.some.inj (of_decide_eq_true hlength), hrun, hpromotes, hagain⟩

end Reference

end Felidae
