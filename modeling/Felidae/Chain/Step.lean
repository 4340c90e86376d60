import Felidae.Chain.Run
import Felidae.Ledger.Genesis

/-!
# Steps of the ledger

The moments of a run as steps of a transition system on ledgers. What a step can do is said once,
in `Ledger.Step`; the lemmas after it say what each kind of step leaves alone.
-/

open Classical

namespace Felidae

namespace Ledger

/-- What the moments of a run do to the ledger. -/
inductive Step [Host] : Ledger → Event → Ledger → Prop where
  | begin {L L' : Ledger} {request : FinalizeBlock}
      (hmono : ∀ time, L.time = some time → time ≤ request.time)
      (hbegins : L.Begins request L') : Step L (.begin request) L'
  | accept {L L' : Ledger} {order : IterOrder} {action : Action} {now : Time}
      (htime : L.time = some now) (hreadable : action.Readable) (hpermits : L.Permits now action)
      (hcasts : L.Casts now action L') : Step L (.act order action (.ok ())) L'
  | refuse {L : Ledger} {order : IterOrder} {action : Action} {e : Fault} {now : Time}
      (htime : L.time = some now) (hrejects : e.Rejects) (hpermits : ¬L.Permits now action) :
      Step L (.act order action (.error e)) L
  | finish {L L' : Ledger} {now : Time} (htime : L.time = some now) (hends : L.Ends now L') :
      Step L .finish L'

/-- Where histories of ledgers start. -/
def IsGenesis (L : Ledger) : Prop :=
  ∃ chainId config validators, L = genesis chainId config validators

/-! ## What a cast leaves -/

theorem setQueue_queue (L : Ledger) (q : QueueId) : L.setQueue q (L.queue q) = L := by
  simp [setQueue]

section Queue

variable (L : Ledger) (q : QueueId) (k : q.Key) (party : Bytes) (t : Second) (v : q.Value)

@[simp] theorem queue_record :
    (L.record q k party t v).queue q = (L.queue q).record k party t v := queue_setQueue ..

@[simp] theorem queue_clear : (L.clear q k).queue q = (L.queue q).clear k := queue_setQueue ..

@[simp] theorem queue_setPending (o : Option (Second × q.Value)) :
    (L.setPending q k o).queue q = (L.queue q).setPending k o := queue_setQueue ..

end Queue

section Cast

variable {L L' : Ledger} {q : QueueId} {k k' : q.Key} {party p : Bytes} {t : Second}
  {v w : q.Value}

/-- Enqueuing sets the pending change of the key, if anything. -/
theorem Enqueue.outcome (h : L.Enqueue q k t w L') :
    ∃ o, L' = L.setPending q k o ∧
      (o = (L.queue q).pending k ∨ o = none ∨ o = some (t, w) ∧
        (∀ t', (L.queue q).pending k ≠ some (t', w)) ∧ (L.setPending q k none).Admits q k w) := by
  cases h with
  | unchanged hpending =>
    have hsame : (L.queue q).setPending k ((L.queue q).pending k) = L.queue q := by
      simp [QueueState.setPending]
    exact ⟨(L.queue q).pending k, by rw [setPending, hsame, setQueue_queue], .inl rfl⟩
  | dropped => exact ⟨none, rfl, .inr (.inl rfl)⟩
  | enqueued hpending hadmits => exact ⟨some (t, w), rfl, .inr (.inr ⟨rfl, hpending, hadmits⟩)⟩

/-- A cast only records the vote, if nothing has a quorum then; otherwise it also clears the votes
of the key and sets its pending change, if anything. -/
theorem Cast.outcome (h : L.Cast q k party t v L') :
    (L' = L.record q k party t v ∧
      ∀ w, ¬((L.queue q).record k party t v).HasQuorum (q.voting L.config).quorum k w) ∨
    ∃ w o, ((L.queue q).record k party t v).HasQuorum (q.voting L.config).quorum k w ∧
      L' = ((L.record q k party t v).clear q k).setPending q k o ∧
      (o = (L.queue q).pending k ∨ o = none ∨ o = some (t, w) ∧
        (∀ t', (L.queue q).pending k ≠ some (t', w)) ∧
        (((L.record q k party t v).clear q k).setPending q k none).Admits q k w) := by
  cases h with
  | waiting hwait =>
    rw [queue_record] at hwait
    exact .inl ⟨rfl, hwait⟩
  | won hwin henqueue =>
    rw [queue_record] at hwin
    obtain ⟨o, rfl, ho⟩ := henqueue.outcome
    simp only [queue_clear, queue_record, QueueState.pending_clear,
      QueueState.pending_record] at ho
    exact .inr ⟨_, o, hwin, rfl, ho⟩

/-- A cast changes nothing but its queue. -/
theorem Cast.frame (h : L.Cast q k party t v L') : ∃ Q, L' = L.setQueue q Q := by
  rcases h.outcome with ⟨rfl, -⟩ | ⟨w, o, -, rfl, -⟩
  · exact ⟨_, rfl⟩
  · refine ⟨(((L.record q k party t v).clear q k).queue q).setPending k o, ?_⟩
    rw [setPending]
    nth_rewrite 1 [clear, record]
    rw [setQueue_setQueue, setQueue_setQueue]

theorem Cast.queue_of_ne (h : L.Cast q k party t v L') {p : QueueId} (hp : p ≠ q) :
    L'.queue p = L.queue p := by
  obtain ⟨Q, rfl⟩ := h.frame
  exact queue_setQueue_of_ne _ hp _

/-- A vote after a cast is the one cast or was there before. -/
theorem Cast.vote (h : L.Cast q k party t v L') {e : Second × q.Value}
    (he : (L'.queue q).votes k' p = some e) :
    (k' = k ∧ p = party ∧ e = (t, v)) ∨
      (¬(k' = k ∧ p = party) ∧ (L.queue q).votes k' p = some e) := by
  have hrecord : ((L.queue q).record k party t v).votes k' p = some e := by
    rcases h.outcome with ⟨rfl, -⟩ | ⟨w, o, -, rfl, -⟩
    · rwa [queue_record] at he
    · rw [queue_setPending, queue_clear, queue_record, QueueState.votes_setPending] at he
      by_cases hk : k' = k
      · subst hk
        cases (QueueState.votes_clear_self _ _ _).symm.trans he
      · rwa [QueueState.votes_clear_of_ne _ _ hk] at he
  by_cases hkp : k' = k ∧ p = party
  · obtain ⟨rfl, rfl⟩ := hkp
    rw [QueueState.votes_record_self, Option.some_inj] at hrecord
    exact .inl ⟨rfl, rfl, hrecord.symm⟩
  · rw [QueueState.votes_record_of_ne _ _ _ _ _ hkp] at hrecord
    exact .inr ⟨hkp, hrecord⟩

/-- The votes of the other keys stay. -/
theorem Cast.votes_of_ne (h : L.Cast q k party t v L') (hk : k' ≠ k) :
    (L'.queue q).votes k' = (L.queue q).votes k' := by
  funext p
  rcases h.outcome with ⟨rfl, -⟩ | ⟨w, o, -, rfl, -⟩
  · rw [queue_record, QueueState.votes_record_of_ne _ _ _ _ _ fun hkp ↦ hk hkp.1]
  · rw [queue_setPending, queue_clear, queue_record, QueueState.votes_setPending,
      QueueState.votes_clear_of_ne _ _ hk,
      QueueState.votes_record_of_ne _ _ _ _ _ fun hkp ↦ hk hkp.1]

/-- A cast makes one index entry. -/
theorem Cast.voteIndex {t' : Second} (h : L.Cast q k party t v L')
    (hx : ((L'.queue q).voteIndex t' k' p).isSome) :
    ((L.queue q).voteIndex t' k' p).isSome ∨ t' = t ∧ k' = k ∧ p = party := by
  have hrecord : (((L.queue q).record k party t v).voteIndex t' k' p).isSome := by
    rcases h.outcome with ⟨rfl, -⟩ | ⟨w, o, -, rfl, -⟩
    · rwa [queue_record] at hx
    · rw [queue_setPending, queue_clear, queue_record, QueueState.voteIndex_setPending] at hx
      exact QueueState.voteIndex_of_clear _ hx
  by_cases hnew : t' = t ∧ k' = k ∧ p = party
  · exact .inr hnew
  · rw [QueueState.voteIndex_record_of_ne _ _ _ _ _ hnew] at hrecord
    exact .inl hrecord

/-- The pending changes of the other keys stay. -/
theorem Cast.pending_of_ne (h : L.Cast q k party t v L') (hk : k' ≠ k) :
    (L'.queue q).pending k' = (L.queue q).pending k' := by
  rcases h.outcome with ⟨rfl, -⟩ | ⟨w, o, -, rfl, -⟩
  · rw [queue_record, QueueState.pending_record]
  · rw [queue_setPending, queue_clear, queue_record, QueueState.pending_setPending_of_ne _ _ _ hk,
      QueueState.pending_clear, QueueState.pending_record]

/-- The pending change of the key stays, or goes, or becomes a value with a quorum. -/
theorem Cast.pending_self (h : L.Cast q k party t v L') :
    (L'.queue q).pending k = (L.queue q).pending k ∨ (L'.queue q).pending k = none ∨
    ∃ w, ((L.queue q).record k party t v).HasQuorum (q.voting L.config).quorum k w ∧
      (L'.queue q).pending k = some (t, w) ∧ (∀ t', (L.queue q).pending k ≠ some (t', w)) ∧
      (((L.record q k party t v).clear q k).setPending q k none).Admits q k w := by
  rcases h.outcome with ⟨rfl, -⟩ | ⟨w, o, hw, rfl, ho⟩
  · rw [queue_record]
    exact .inl rfl
  · rw [queue_setPending, QueueState.pending_setPending_self]
    rcases ho with ho | ho | ⟨ho, hpending, hadmits⟩
    · exact .inl ho
    · exact .inr (.inl ho)
    · exact .inr (.inr ⟨w, hw, ho, hpending, hadmits⟩)

/-- If something has a quorum when the votes are tallied, no vote is left under the key. -/
theorem Cast.votes_of_hasQuorum (h : L.Cast q k party t v L')
    (hw : ((L.queue q).record k party t v).HasQuorum (q.voting L.config).quorum k w) (p : Bytes) :
    (L'.queue q).votes k p = none := by
  rcases h.outcome with ⟨-, hwait⟩ | ⟨w', o, -, rfl, -⟩
  · exact absurd hw (hwait w)
  · rw [queue_setPending, queue_clear, QueueState.votes_setPending, QueueState.votes_clear_self]

/-- After a cast nothing has a quorum under its key. -/
theorem Cast.settled (h : L.Cast q k party t v L') (w : q.Value) :
    ¬(L'.queue q).HasQuorum (q.voting L.config).quorum k w := by
  rcases h.outcome with ⟨rfl, hwait⟩ | ⟨w, o, -, rfl, -⟩
  · rw [queue_record]
    exact hwait w
  · rintro ⟨⟨p, t', hp⟩, -⟩
    rw [queue_setPending, queue_clear, QueueState.votes_setPending,
      QueueState.votes_clear_self] at hp
    cases hp

end Cast

theorem Casts.frame {L L' : Ledger} {now : Time} {action : Action} (h : L.Casts now action L') :
    ∃ Q, L' = L.setQueue action.queue Q := by
  cases action with
  | observe o => exact Cast.frame h
  | reconfigure r => exact Cast.frame h

/-! ## What the end of a block leaves -/

section Ends

variable {L L' : Ledger} {now : Time}

/-- The config in force stays, or becomes the pending one if that is newer. -/
theorem ConfigPromotion.outcome [Host] (h : L.ConfigPromotion now L') (hL : L.Sound) :
    L' = L ∨ ∃ t c, (L.queue .admin).pending Empty.mk = some (t, c) ∧
      L.config.admins.voting.delay ≤ now.ageOf t.toTime ∧
      L'.queue .admin = (L.queue .admin).promote {Empty.mk} ∧
      L'.queue .oracle = L.queue .oracle ∧ L'.canonical = L.canonical ∧
      L'.config = if c.version ≤ L.config.version then L.config else c := by
  cases h with
  | kept => exact .inl rfl
  | @promoted t c hpending hripe =>
    have hclean : c.readBack = c :=
      Config.readBack_of_clean (hL.pending_clean .admin Empty.mk (t, c) hpending)
    refine .inr ⟨t, c, hpending, hripe, L.queue_promote .admin {Empty.mk},
      L.queue_promote_of_ne (by decide : QueueId.oracle ≠ .admin) {Empty.mk}, rfl, ?_⟩
    rw [config, applyConfig]
    by_cases hversion : c.version ≤ L.config.version
    · rw [if_pos hversion]
      exact congrArg Config.readBack (if_pos hversion)
    · rw [if_neg hversion]
      exact (congrArg Config.readBack (if_neg hversion)).trans hclean

/-- The end of a block promotes a config, if any, and then observations under the config in
force. -/
theorem Ends.outcome (h : L.Ends now L') : ∃ L₁ D, L.ConfigPromotion now L₁ ∧
    (∀ d ∈ D, ∃ e : Second × OracleVoteValue, (L₁.queue .oracle).pending d = some e ∧
      L₁.config.oracles.voting.delay ≤ now.ageOf e.1.toTime) ∧
    L'.config = L₁.config ∧ L'.queue .admin = L₁.queue .admin ∧
    L'.queue .oracle = (L₁.queue .oracle).promote D ∧
    ∀ d, L'.canonical d = if d ∈ D then
      ((L₁.queue .oracle).pending d).bind fun e ↦
        HashObserved.hash? (OracleVoteValue.hashObserved e.2)
      else L₁.canonical d := by
  obtain ⟨hconfig, D, hripe⟩ := h
  exact ⟨_, D, hconfig, hripe, rfl, queue_promote_of_ne _ (by decide : QueueId.admin ≠ .oracle) D,
    queue_promote _ .oracle D, fun _ ↦ rfl⟩

/-- Both queues lose the pending changes that are promoted, and nothing else. -/
theorem Ends.queue (h : L.Ends now L') (q : QueueId) :
    ∃ D, L'.queue q = (L.queue q).promote D := by
  obtain ⟨L₁, D, hpromotion, -, -, hadmin, horacle, -⟩ := h.outcome
  cases q with
  | admin =>
    rw [hadmin]
    cases hpromotion with
    | kept => exact ⟨∅, by rw [QueueState.promote_empty]⟩
    | promoted => exact ⟨{Empty.mk}, L.queue_promote .admin {Empty.mk}⟩
  | oracle =>
    rw [horacle]
    refine ⟨D, congrArg (QueueState.promote · D) ?_⟩
    cases hpromotion with
    | kept => rfl
    | promoted => exact L.queue_promote_of_ne (by decide : QueueId.oracle ≠ .admin) {Empty.mk}

end Ends

/-! ## Soundness along a history -/

section Sound

variable [Host] {L L' : Ledger} {q : QueueId} {k : q.Key} {party : Bytes} {t : Second}
  {v : q.Value}

theorem Sound.cast (hL : L.Sound) (hclean : Clean v) (hfits : q.Fits k v)
    (h : L.Cast q k party t v L') : L'.Sound := by
  have hrecord := hL.record hclean hfits party t
  rcases h.outcome with ⟨rfl, -⟩ | ⟨w, o, ⟨⟨p, t', hvote⟩, -⟩, rfl, ho⟩
  · exact hrecord
  · refine (hrecord.clear k).setPending k fun e he ↦ ?_
    rcases ho with ho | ho | ⟨ho, -⟩
    · exact hL.pending_clean q k e (ho.symm.trans he)
    · cases ho.symm.trans he
    · obtain rfl := Option.some.inj (ho.symm.trans he)
      exact hrecord.vote_clean q k p (t', w) (by rw [queue_record]; exact hvote)

theorem Sound.casts [LawfulHost] (hL : L.Sound) {now : Time} {action : Action} (hreadable :
  action.Readable)
    (hpermits : L.Permits now action) (h : L.Casts now action L') : L'.Sound := by
  cases action with
  | observe o =>
    exact hL.cast (q := .oracle) (k := .ofDomain o.observation.domain)
      (v := ⟨o.observation.hashObserved, o.observation.zone⟩) (OracleVoteValue.clean _)
      hpermits.2.2.below h
  | reconfigure r => exact hL.cast (q := .admin) hreadable trivial h

theorem Sound.begins (hL : L.Sound) {request : FinalizeBlock} (h : L.Begins request L') :
    L'.Sound := by
  obtain ⟨root, D, E, -, -⟩ := h
  have hset : ((L.recordRoot root).setBlock request.height request.time).Sound :=
    ⟨hL.vote_clean, hL.pending_clean, hL.vote_fits, hL.indexed⟩
  exact (hset.expire D).expire E

theorem Sound.ends (hL : L.Sound) {now : Time} (h : L.Ends now L') : L'.Sound := by
  obtain ⟨hconfig, D, -⟩ := h
  obtain ⟨hvotes, hpending, hfits, hindexed⟩ := (hconfig.sound hL).promote (q := .oracle) D
  exact ⟨hvotes, hpending, hfits, hindexed⟩

theorem Sound.step [LawfulHost] (hL : L.Sound) {e : Event} (h : L.Step e L') : L'.Sound := by
  cases h with
  | begin _ hbegins => exact hL.begins hbegins
  | accept _ hreadable hpermits hcasts => exact hL.casts hreadable hpermits hcasts
  | refuse => exact hL
  | finish _ hends => exact hL.ends hends

theorem IsGenesis.sound (h : L.IsGenesis) : L.Sound := by
  obtain ⟨_, _, _, rfl⟩ := h
  exact Sound.genesis ..

end Sound

end Ledger

end Felidae
