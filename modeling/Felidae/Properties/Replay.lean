import Felidae.Chain.Provenance
import Felidae.Chain.Refusal
import Felidae.Reference

/-!
# Replayed observations

The blockstamp is the only thing in an observation that ages, and nothing remembers which
observations have been delivered. So one that is delivered again while the block it is stamped with
is recent can be accepted again: it replaces the vote its oracle has cast since, and can be counted
in a second quorum. Neither happens in the runs in which an observation is only delivered again once
it is stale: when that block has timed out, or its signer is no oracle any more.
-/

open Classical

namespace Felidae

/-- An observation that was accepted once is only delivered again when it is stale: when its signer
is no oracle, or the block it is stamped with has reached the observation timeout. -/
def ReplaysStale [Host] (ms : List (Moment Store Event)) : Prop :=
  ∀ newer m older, ms = newer ++ m :: older → ∀ order o result,
    m.event = .act order (.observe o) result → AcceptedIn older o → State.Stale o m.before

theorem ReplaysStale.refuses [Host] {ms newer older : List (Moment Store Event)}
    {m : Moment Store Event} (h : ReplaysStale ms) (hsplit : ms = newer ++ m :: older)
    {order : IterOrder} {o : Observe} {result : Except Fault Unit}
    (hevent : m.event = .act order (.observe o) result) (haccepted : AcceptedIn older o) :
    State.Refuses o m.before :=
  (h newer m older hsplit order o result hevent haccepted).refuses

/-- At this moment, after the older ones, a quorum is reached for a domain. The vote that the
observation cast is among those tallied: its oracle has cast no other since. -/
structure ConsumedAt (m : Moment Ledger Event) (older : List (Moment Ledger Event)) (o : Observe) :
    Prop where
  tallied : ∃ party t v w t',
    CastAt m .oracle (.ofDomain o.observation.domain) party t v ∧
    ((m.before.queue .oracle).record (.ofDomain o.observation.domain) party t v).HasQuorum
      m.before.config.oracles.voting.quorum (.ofDomain o.observation.domain) w ∧
    ((m.before.queue .oracle).record (.ofDomain o.observation.domain) party t v).votes
      (.ofDomain o.observation.domain) o.oracle.identity
        = some (t', ⟨o.observation.hashObserved, o.observation.zone⟩)
  cast : ∃ newer x older' order, m :: older = newer ++ x :: older' ∧
    x.event = .act order (.observe o) (.ok ()) ∧
    ∀ y ∈ newer, ∀ t v, ¬CastAt y .oracle (.ofDomain o.observation.domain) o.oracle.identity t v

/-- What freshness of observations should come to: one that is delivered again changes nothing,
neither a later vote of its oracle nor a pending change, and its vote is consumed by one quorum at
most. -/
structure NoReplay (ms : List (Moment Store Event)) (h : List (Moment Ledger Event)) : Prop where
  inert : ∀ newer m older, ms = newer ++ m :: older → ∀ order o result,
    m.event = .act order (.observe o) result → AcceptedIn older o → m.after = m.before
  kept : ∀ newer m older, h = newer ++ m :: older → ∀ order o result,
    m.event = .act order (.observe o) result → AcceptedIn older o → m.after = m.before
  consumed_once : ∀ newer m₂ mid m₁ older, h = newer ++ m₂ :: (mid ++ m₁ :: older) → ∀ o,
    ConsumedAt m₁ older o → ¬ConsumedAt m₂ (mid ++ m₁ :: older) o

section Runs

variable [Host] [LawfulHost] {ms : List (Moment Store Event)} {s : Store}
  {h : List (Moment Ledger Event)} {L : Ledger}

omit [LawfulHost] in
/-- A quorum leaves no vote for its domain, so that a vote tallied later was cast later. -/
theorem ConsumedAt.accepted_after {m₁ m₂ : Moment Ledger Event}
    {mid older : List (Moment Ledger Event)} {o : Observe}
    (hist : LedgerHistory (m₂ :: (mid ++ m₁ :: older)) L)
    (h₁ : ConsumedAt m₁ older o) (h₂ : ConsumedAt m₂ (mid ++ m₁ :: older) o) :
    AcceptedIn (m₂ :: mid) o := by
  obtain ⟨_, _, _, w, _, hcast₁, hquorum₁, -⟩ := h₁.tallied
  obtain ⟨party, t, v, -, t', hcast₂, -, htallied⟩ := h₂.tallied
  obtain ⟨newer, x, older', order, hsplit, hevent, hlast⟩ := h₂.cast
  by_contra hnot
  -- otherwise the oracle casts no vote after the first quorum
  have hnone : ∀ y ∈ m₂ :: mid, ∀ t v,
      ¬CastAt y .oracle (.ofDomain o.observation.domain) o.oracle.identity t v := by
    rcases List.append_eq_append_iff.mp
      (show (m₂ :: mid) ++ m₁ :: older = newer ++ x :: older' from hsplit) with
      ⟨extra, hnewer, -⟩ | ⟨extra, hmid, hrest⟩
    · exact fun y hy ↦ hlast y (hnewer ▸ List.mem_append_left _ hy)
    · cases extra with
      | nil =>
        rw [List.append_nil] at hmid
        exact fun y hy ↦ hlast y (hmid ▸ hy)
      | cons x' extra =>
        obtain ⟨rfl, -⟩ := List.cons.inj hrest
        exact absurd ⟨x, hmid ▸ List.mem_append_right _ List.mem_cons_self, order, hevent⟩ hnot
  have hbefore : (m₂.before.queue .oracle).votes (.ofDomain o.observation.domain)
      o.oracle.identity = none := by
    have hist₂ : LedgerHistory (mid ++ m₁ :: older) m₂.before := by
      cases hist with
      | next hist _ => exact hist
    refine hist₂.kept (P := fun L ↦ (L.queue .oracle).votes (.ofDomain o.observation.domain)
      o.oracle.identity = none) (hcast₁.cast.votes_of_hasQuorum hquorum₁ _) fun y hy hy' ↦ ?_
    rcases hafter : (y.after.queue .oracle).votes (.ofDomain o.observation.domain)
      o.oracle.identity with _ | e
    · rfl
    · have hstep := History.step_of_mem hist
        (List.mem_cons_of_mem _ (List.mem_append_left _ hy))
      rcases hstep.vote hafter with hcast | hkept
      · exact absurd hcast (hnone y (List.mem_cons_of_mem _ hy) _ _)
      · cases hy'.symm.trans hkept
  by_cases hparty : o.oracle.identity = party
  · subst hparty
    exact hnone m₂ List.mem_cons_self t v hcast₂
  · rw [QueueState.votes_record_of_ne _ _ _ _ _ fun hne ↦ hparty hne.2, hbefore] at htallied
    cases htallied

/-- If replays are stale, no observation is accepted twice. -/
theorem Shown.not_acceptedIn (hshown : Shown ms s h L) (hstale : ReplaysStale ms)
    {newer older : List (Moment Ledger Event)} {M : Moment Ledger Event}
    (hsplit : h = newer ++ M :: older) {order : IterOrder} {o : Observe}
    (hevent : M.event = .act order (.observe o) (.ok ())) : ¬AcceptedIn older o := by
  rintro ⟨X, hX, order', haccepted⟩
  obtain ⟨newer', m, older', rfl, -, hshow, holder⟩ :=
    exists_split_of_forall₂ (hsplit ▸ hshown.moments).flip
  obtain ⟨x, hx, hshow'⟩ := exists_of_mem_forall₂ holder hX
  have hm : m ∈ newer' ++ m :: older' := List.mem_append_right _ List.mem_cons_self
  obtain ⟨e, he⟩ := (hshown.refuses_iff hm (hshow.event.trans hevent)).mp
    (hstale.refuses rfl (hshow.event.trans hevent) ⟨x, hx, order', hshow'.event.trans haccepted⟩)
  cases he

/-- Nothing is replayed in a run in which an observation is only delivered again when its signer is
no oracle any more, or the block it is stamped with has timed out. -/
theorem Run.noReplay_of_stale {genesis : InitChain} {requests : List FinalizeBlock}
    (hrun : Run genesis requests ms s) : ∃ h L, Shown ms s h L ∧
      (ReplaysStale ms → NoReplay ms h) := by
  obtain ⟨h, L, hshown⟩ := hrun.exists_shown
  refine ⟨h, L, hshown, fun hstale ↦ ⟨?_, ?_, ?_⟩⟩
  · rintro newer m older rfl order o result hevent haccepted
    obtain ⟨e, he⟩ := (hstale.refuses rfl hevent haccepted).observe_eq order
    have happly := hrun.applyAction_of_mem (List.mem_append_right _ List.mem_cons_self) hevent
    exact (congrArg Prod.snd (happly.symm.trans he))
  · rintro newer M older hsplit order o result hevent haccepted
    have hnot : result ≠ .ok () := by
      rintro rfl
      exact hshown.not_acceptedIn hstale hsplit hevent haccepted
    have hstep := (hsplit ▸ hshown.history : LedgerHistory (newer ++ M :: older) L).split.2
    obtain ⟨before, event, after⟩ := M
    obtain rfl : event = _ := hevent
    cases hstep with
    | accept => exact absurd rfl hnot
    | refuse => rfl
  · rintro newer m₂ mid m₁ older hsplit o h₁ h₂
    have hist : LedgerHistory (newer ++ m₂ :: (mid ++ m₁ :: older)) L := hsplit ▸ hshown.history
    -- two votes of one observation would need it to be accepted again in between
    obtain ⟨x, hx, order, hevent⟩ := h₁.accepted_after hist.upTo h₂
    obtain ⟨newer', x', older', order', hcast, hevent', -⟩ := h₁.cast
    obtain ⟨before, after, hmid⟩ := List.append_of_mem hx
    have hfirst : x' ∈ after ++ m₁ :: older := by
      rw [hcast]
      exact List.mem_append_right _ (List.mem_append_right _ List.mem_cons_self)
    have hsecond : h = (newer ++ before) ++ x :: (after ++ m₁ :: older) := by
      rw [hsplit, ← List.cons_append, hmid]
      simp only [List.append_assoc, List.cons_append]
    exact hshown.not_acceptedIn hstale hsecond hevent ⟨x', hfirst, order', hevent'⟩

end Runs

namespace Reference

/-- Alice observes one hash and then another one; the first observation is delivered again. -/
def replaying : List FinalizeBlock :=
  [blockAt 2 20 [observeByAlice, observeOtherByAlice, observeByAlice], blockAt 1 10 [foundPair]]

/-- The last action of the run is an observation that was accepted before, two actions earlier; it
is accepted again, and changes the state. -/
def replaysLast (ms : List (Moment Store Event)) : Bool :=
  match ms with
  | _ :: ⟨s, .act _ (.observe o) (.ok ()), t⟩ :: _ :: ⟨_, .act _ (.observe o') (.ok ()), _⟩ :: _ =>
    o = o' && s.verifiable.toList ≠ t.verifiable.toList
  | _ => false

theorem exists_of_replaysLast {ms : List (Moment Store Event)} (h : replaysLast ms = true) :
    ∃ newer m older order o, ms = newer ++ m :: older ∧ m.event = .act order (.observe o) (.ok ()) ∧
      AcceptedIn older o ∧ m.after ≠ m.before := by
  unfold replaysLast at h
  split at h
  next f s order o t x y order' o' z older =>
    rw [Bool.and_eq_true, decide_eq_true_iff, decide_eq_true_iff] at h
    obtain ⟨rfl, hne⟩ := h
    exact ⟨[f], ⟨s, _, t⟩, _, order, o, rfl, rfl,
      ⟨_, List.mem_cons_of_mem _ List.mem_cons_self, order', rfl⟩,
      fun (heq : t = s) ↦ hne (heq ▸ rfl)⟩
  next => cases h

/-- An observation that was accepted, and whose oracle has voted otherwise since, is accepted
again. -/
theorem not_noReplay_replaying : ∃ ms s, Run genesis replaying ms s ∧
    (∃ newer m older order o, ms = newer ++ m :: older ∧
      m.event = .act order (.observe o) (.ok ()) ∧ AcceptedIn older o ∧ m.after ≠ m.before) ∧
    ∀ h, ¬NoReplay ms h := by
  obtain ⟨ms, s, hrun, hreplays⟩ := exists_run_of_any genesis listed replaying
    (fun r ↦ replaysLast r.1) (by decide +kernel)
  obtain ⟨newer, m, older, order, o, hsplit, hevent, haccepted, hne⟩ :=
    exists_of_replaysLast hreplays
  exact ⟨ms, s, hrun, ⟨newer, m, older, order, o, hsplit, hevent, haccepted, hne⟩,
    fun h hno ↦ hne (hno.inert newer m older hsplit order o _ hevent haccepted)⟩

/-- Alice observes a domain, and her observation is delivered again when its block has timed out. -/
def outdating : List FinalizeBlock :=
  [blockAt 3 1100 [observeByAlice], blockAt 2 20 [observeByAlice], blockAt 1 10 [foundPair]]

def acceptedIn (older : List (Moment Store Event)) (o : Observe) : Bool :=
  older.any fun x ↦
    match x.event with
    | .act _ (.observe o') (.ok _) => o' = o
    | _ => false

theorem acceptedIn_iff {older : List (Moment Store Event)} {o : Observe} :
    acceptedIn older o = true ↔ AcceptedIn older o := by
  rw [acceptedIn, List.any_eq_true]
  refine exists_congr fun x ↦ and_congr_right fun _ ↦ ?_
  constructor
  · intro h
    split at h
    next order o' _ hevent => exact ⟨order, of_decide_eq_true h ▸ hevent⟩
    next => cases h
  · rintro ⟨order, hevent⟩
    rw [hevent]
    exact decide_eq_true rfl

def expired (o : Observe) (s : Store) : Bool :=
  match State.config s, State.blockTime s,
    State.timeOfBlock o.observation.blockstamp.blockHeight s with
  | .ok c, .ok now, .ok stamped =>
    (now.durationSince stamped).any fun age ↦ c.oracles.observationTimeout ≤ age
  | _, _, _ => false

theorem expired_of_expired {o : Observe} {s : Store} (h : expired o s = true) :
    State.Expired o s := by
  rw [expired] at h
  split at h
  next c now stamped hc hnow hstamped =>
    obtain ⟨age, hage, hold⟩ := (Option.any_eq_true ..).mp h
    exact ⟨c, now, stamped, age, hc, hnow, hstamped, hage, of_decide_eq_true hold⟩
  next => cases h

/-- The moment is no delivery of an observation that was accepted before, or the observation is
out of date. -/
def staleAt (m : Moment Store Event) (older : List (Moment Store Event)) : Bool :=
  match m.event with
  | .act _ (.observe o) _ => !acceptedIn older o || expired o m.before
  | _ => true

def replaysStale : List (Moment Store Event) → Bool
  | [] => true
  | m :: older => staleAt m older && replaysStale older

theorem staleAt_of_replaysStale {m : Moment Store Event} {older : List (Moment Store Event)} :
    ∀ {newer : List (Moment Store Event)}, replaysStale (newer ++ m :: older) = true →
      staleAt m older = true
  | [], h => (Bool.and_eq_true_iff.mp h).1
  | _ :: _, h => staleAt_of_replaysStale (Bool.and_eq_true_iff.mp h).2

theorem replaysStale_of_replaysStale {ms : List (Moment Store Event)}
    (h : replaysStale ms = true) : ReplaysStale ms := by
  rintro newer m older rfl order o result hevent haccepted
  have hstale := staleAt_of_replaysStale h
  rw [staleAt, hevent] at hstale
  rcases (Bool.or_eq_true ..).mp hstale with hnot | hexpired
  · rw [acceptedIn_iff.mpr haccepted] at hnot
    cases hnot
  · exact Or.inr (expired_of_expired hexpired)

/-- An observation that was accepted before is refused. -/
def refusesReplay : List (Moment Store Event) → Bool
  | _ :: ⟨_, .act _ (.observe o) (.error _), _⟩ :: older => acceptedIn older o
  | _ => false

theorem exists_of_refusesReplay {ms : List (Moment Store Event)} (h : refusesReplay ms = true) :
    ∃ newer m older order o e, ms = newer ++ m :: older ∧
      m.event = .act order (.observe o) (.error e) ∧ AcceptedIn older o := by
  unfold refusesReplay at h
  split at h
  next f s order o e t older =>
    exact ⟨[f], _, older, order, o, e, rfl, rfl, acceptedIn_iff.mp h⟩
  next => cases h

/-- The observation is delivered again when it is out of date, and nothing is replayed. -/
theorem noReplay_outdating : ∃ ms s, Run genesis outdating ms s ∧
    (∃ newer m older order o e, ms = newer ++ m :: older ∧
      m.event = .act order (.observe o) (.error e) ∧ AcceptedIn older o) ∧
    ∃ h L, Shown ms s h L ∧ NoReplay ms h := by
  obtain ⟨ms, s, hrun, htest⟩ := exists_run_of_any genesis listed outdating
    (fun r ↦ refusesReplay r.1 && replaysStale r.1) (by decide +kernel)
  obtain ⟨hrefuses, hstale⟩ := Bool.and_eq_true_iff.mp htest
  obtain ⟨h, L, hshown, hno⟩ := Run.noReplay_of_stale hrun
  exact ⟨ms, s, hrun, exists_of_refusesReplay hrefuses, h, L, hshown,
    hno (replaysStale_of_replaysStale hstale)⟩

end Reference

end Felidae
