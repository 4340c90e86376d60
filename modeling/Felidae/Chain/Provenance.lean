import Felidae.Chain.Refine

/-!
# Where votes and pending changes come from

Every stored vote was cast by an accepted action, the last one of its party for its key, and every
pending change was enqueued by a cast after which its value had a quorum. Both have stayed in
their queue ever since. The origins are found by `History.origin`, so all that has to be said here
is what a single step can add to a queue.
-/

open Classical

namespace Felidae

/-- The vote an action casts. -/
inductive Action.Votes : Action → (q : QueueId) → q.Key → Bytes → q.Value → Prop where
  | observe (o : Observe) : Votes (.observe o) .oracle (.ofDomain o.observation.domain)
      o.oracle.identity ⟨o.observation.hashObserved, o.observation.zone⟩
  | reconfigure (r : Reconfigure) : Votes (.reconfigure r) .admin Empty.mk r.admin.identity r.config

/-- An action casts one vote. -/
theorem Action.Votes.unique {action : Action} {q : QueueId} {k k' : q.Key} {p p' : Bytes}
    {v v' : q.Value} (h : action.Votes q k p v) (h' : action.Votes q k' p' v') :
    k = k' ∧ p = p' ∧ v = v' := by
  cases h <;> cases h' <;> exact ⟨rfl, rfl, rfl⟩

/-- Votes on domains are cast by observations. -/
theorem Action.Votes.exists_observe {action : Action} {d : PrefixOrderDomain} {p : Bytes}
    {v : OracleVoteValue} (h : action.Votes .oracle d p v) : ∃ o, action = .observe o ∧
      d = .ofDomain o.observation.domain ∧ p = o.oracle.identity := by
  cases h with
  | observe o => exact ⟨o, rfl, rfl, rfl⟩

/-- At this moment an action of the party is accepted, and casts its vote. -/
structure CastAt (m : Moment Ledger Event) (q : QueueId) (k : q.Key) (party : Bytes) (t : Second)
    (v : q.Value) : Prop where
  accepted : ∃ order action now, m.event = .act order action (.ok ()) ∧
    m.before.time = some now ∧ now.second = t ∧ action.Votes q k party v ∧
      m.before.Permits now action
  cast : m.before.Cast q k party t v m.after

/-- At this moment the cast of a vote makes a value with a quorum the pending change of its key. -/
structure EnqueuedAt (m : Moment Ledger Event) (q : QueueId) (k : q.Key) (t : Second)
    (w : q.Value) : Prop where
  won : ∃ party v, CastAt m q k party t v ∧
    ((m.before.queue q).record k party t v).HasQuorum (q.voting m.before.config).quorum k w
  fresh : ∀ t', (m.before.queue q).pending k ≠ some (t', w)
  pending : (m.after.queue q).pending k = some (t, w)

/-- At this moment, the end of a block, a pending observation is carried over into the canonical
state. -/
structure PromotedAt (m : Moment Ledger Event) (d : PrefixOrderDomain) (t : Second)
    (w : OracleVoteValue) : Prop where
  event : m.event = .finish
  pending : (m.before.queue .oracle).pending d = some (t, w)
  removed : (m.after.queue .oracle).pending d = none
  canonical : m.after.canonical d = w.hashObserved.hash?
  ripe : ∃ now, m.before.time = some now ∧
    m.after.config.oracles.voting.delay ≤ now.ageOf t.toTime

/-- At this moment another config is put in force. -/
def PutsInForce (m : Moment Ledger Event) : Prop := m.after.config ≠ m.before.config

namespace Ledger

variable {L L' : Ledger} {now : Time} {action : Action} {q : QueueId} {k : q.Key} {p : Bytes}
  {e : Second × q.Value}

/-! ## What a step can add -/

/-- An action leaves a queue alone, or casts its vote there. -/
theorem Casts.queue_cases (h : L.Casts now action L') (q : QueueId) :
    L'.queue q = L.queue q ∨
      ∃ k party v, action.Votes q k party v ∧ L.Cast q k party now.second v L' := by
  cases action with
  | observe o =>
    cases q with
    | admin => exact .inl (Cast.queue_of_ne h (by decide))
    | oracle => exact .inr ⟨_, _, _, .observe o, h⟩
  | reconfigure r =>
    cases q with
    | admin => exact .inr ⟨_, _, _, .reconfigure r, h⟩
    | oracle => exact .inl (Cast.queue_of_ne h (by decide))

/-- A cast leaves the pending change of a key, deletes it, or enqueues a value. -/
theorem Casts.pending_cases (h : L.Casts now action L') (q : QueueId) (k : q.Key) :
    (L'.queue q).pending k = (L.queue q).pending k ∨ (L'.queue q).pending k = none ∨
      ∃ party v w, action.Votes q k party v ∧ L.Cast q k party now.second v L' ∧
        ((L.queue q).record k party now.second v).HasQuorum (q.voting L.config).quorum k w ∧
        (L'.queue q).pending k = some (now.second, w) ∧
        ∀ t', (L.queue q).pending k ≠ some (t', w) := by
  rcases h.queue_cases q with hsame | ⟨k', party, v, hvotes, hcast⟩
  · exact .inl (by rw [hsame])
  · by_cases hk : k = k'
    · subst hk
      rcases hcast.pending_self with hsame | hnone | ⟨w, hw, hpending, hfresh, -⟩
      · exact .inl hsame
      · exact .inr (.inl hnone)
      · exact .inr (.inr ⟨party, v, w, hvotes, hcast, hw, hpending, hfresh⟩)
    · exact .inl (hcast.pending_of_ne hk)

section Step

variable [Host]

/-- A vote is there after a step because it is cast, or was there before. -/
theorem Step.vote {event : Event} (h : L.Step event L')
    (he : (L'.queue q).votes k p = some e) :
    CastAt ⟨L, event, L'⟩ q k p e.1 e.2 ∨ (L.queue q).votes k p = some e := by
  cases h with
  | begin _ hbegins =>
    obtain ⟨D, -, hqueue⟩ := hbegins.queue q
    rw [hqueue] at he
    exact .inr ((QueueState.votes_expire_eq_some _ _ _).mp he).1
  | @accept _ order action now htime _ hpermits hcasts =>
    rcases hcasts.queue_cases q with hsame | ⟨k', party, v, hvotes, hcast⟩
    · exact .inr (by rwa [← hsame])
    · rcases hcast.vote he with ⟨rfl, rfl, rfl⟩ | ⟨-, hbefore⟩
      · exact .inl ⟨⟨order, action, now, rfl, htime, rfl, hvotes, hpermits⟩, hcast⟩
      · exact .inr hbefore
  | refuse => exact .inr he
  | finish _ hends =>
    obtain ⟨D, hqueue⟩ := hends.queue q
    rw [hqueue, QueueState.votes_promote] at he
    exact .inr he

/-- A change is pending after a step because it is enqueued, or was pending before. -/
theorem Step.pending {event : Event} (h : L.Step event L')
    (he : (L'.queue q).pending k = some e) :
    EnqueuedAt ⟨L, event, L'⟩ q k e.1 e.2 ∨ (L.queue q).pending k = some e := by
  cases h with
  | begin _ hbegins =>
    obtain ⟨D, -, hqueue⟩ := hbegins.queue q
    rw [hqueue, QueueState.pending_expire] at he
    exact .inr he
  | @accept _ order action now htime _ hpermits hcasts =>
    rcases hcasts.pending_cases q k with hsame | hnone | ⟨party, v, w, hvotes, hcast, hw, hpending,
      hfresh⟩
    · exact .inr (by rwa [← hsame])
    · cases hnone.symm.trans he
    · obtain rfl := Option.some.inj (hpending.symm.trans he)
      exact .inl ⟨⟨party, v, ⟨⟨order, action, now, rfl, htime, rfl, hvotes, hpermits⟩, hcast⟩, hw⟩,
        hfresh, hpending⟩
  | refuse => exact .inr he
  | finish _ hends =>
    obtain ⟨D, hqueue⟩ := hends.queue q
    rw [hqueue] at he
    exact .inr ((QueueState.pending_promote_eq_some _ _).mp he).1

/-- Nothing happens to a domain in a step that does not promote its pending observation. -/
theorem Step.canonical {event : Event} (h : L.Step event L') (hL : L.Sound)
    (d : PrefixOrderDomain) :
    (∃ t w, PromotedAt ⟨L, event, L'⟩ d t w) ∨ L'.canonical d = L.canonical d ∧
      (event = .finish → (L'.queue .oracle).pending d = (L.queue .oracle).pending d) := by
  cases h with
  | begin _ hbegins => exact .inr ⟨congrFun hbegins.canonical d, fun he ↦ by cases he⟩
  | accept _ _ _ hcasts =>
    obtain ⟨Q, rfl⟩ := hcasts.frame
    exact .inr ⟨rfl, fun he ↦ by cases he⟩
  | refuse => exact .inr ⟨rfl, fun _ ↦ rfl⟩
  | @finish _ now htime hends =>
    obtain ⟨L₁, D, hpromotion, hripe, hconfig, -, horacle, hcanonical⟩ := hends.outcome
    have hsame : L₁.queue .oracle = L.queue .oracle ∧ L₁.canonical = L.canonical := by
      rcases hpromotion.outcome hL with rfl | ⟨_, _, _, _, _, hqueue, hcanon, _⟩
      · exact ⟨rfl, rfl⟩
      · exact ⟨hqueue, hcanon⟩
    rw [hsame.1, hsame.2] at hcanonical
    rw [hsame.1] at horacle hripe
    by_cases hd : d ∈ D
    · obtain ⟨⟨t, w⟩, hpending, hdelay⟩ := hripe d hd
      refine .inl ⟨t, w, rfl, hpending, ?_, ?_, now, htime, by rwa [hconfig]⟩
      · exact horacle ▸ QueueState.pending_promote_of_mem _ hd
      · rw [hcanonical d, if_pos hd, hpending]
        rfl
    · refine .inr ⟨by rw [hcanonical d, if_neg hd], fun _ ↦ ?_⟩
      exact horacle ▸ QueueState.pending_promote_of_notMem _ hd

/-- The config in force is only ever replaced by the pending one, at the end of a block. -/
theorem Step.config {event : Event} (h : L.Step event L') (hL : L.Sound) :
    L'.config = L.config ∨ event = .finish ∧ ∃ t now, L.time = some now ∧
      (L.queue .admin).pending Empty.mk = some (t, L'.config) ∧
      L.config.admins.voting.delay ≤ now.ageOf t.toTime ∧
      (L'.queue .admin).pending Empty.mk = none ∧ (L'.queue .admin).votes = (L.queue .admin).votes ∧
      (L'.queue .oracle).votes = (L.queue .oracle).votes := by
  cases h with
  | begin _ hbegins => exact .inl hbegins.config
  | accept _ _ _ hcasts =>
    obtain ⟨Q, rfl⟩ := hcasts.frame
    exact .inl rfl
  | refuse => exact .inl rfl
  | @finish _ now htime hends =>
    obtain ⟨L₁, D, hpromotion, -, hconfig, hadmin, horacle, -⟩ := hends.outcome
    rcases hpromotion.outcome hL with rfl | ⟨t, c, hpending, hripe, hqueue, hqueue', -, hforce⟩
    · exact .inl hconfig
    · by_cases hversion : c.version ≤ L.config.version
      · exact .inl (by rw [hconfig, hforce, if_pos hversion])
      · rw [if_neg hversion] at hforce
        refine .inr ⟨rfl, t, now, htime, by rw [hconfig, hforce, hpending], hripe, ?_, ?_, ?_⟩
        · rw [hadmin, hqueue]
          exact QueueState.pending_promote_of_mem _ rfl
        · rw [hadmin, hqueue, QueueState.votes_promote]
        · rw [horacle, hqueue', QueueState.votes_promote]

end Step

end Ledger

/-! ## Origins -/

section Origins

variable [Host] {h : List (Moment Ledger Event)} {L : Ledger} {q : QueueId} {k : q.Key}

omit [Host] in
/-- A moment at which the vote of a party changes is the cast of another vote. -/
theorem CastAt.eq_of_after {m : Moment Ledger Event} {p : Bytes} {t : Second} {v : q.Value}
    (hm : CastAt m q k p t v) {e : Second × q.Value}
    (he : (m.after.queue q).votes k p = some e) : e = (t, v) := by
  rcases hm.cast.vote he with ⟨-, -, he⟩ | ⟨hne, -⟩
  · exact he
  · exact absurd ⟨rfl, rfl⟩ hne

/-- A stored vote was cast by the last accepted action of its party for its key. -/
theorem LedgerHistory.vote_origin (hist : LedgerHistory h L) {p : Bytes} {e : Second × q.Value}
    (he : (L.queue q).votes k p = some e) :
    ∃ newer m older, h = newer ++ m :: older ∧ CastAt m q k p e.1 e.2 ∧
      ∀ x ∈ newer, (∀ t v, ¬CastAt x q k p t v) ∧
        (x.before.queue q).votes k p = some e ∧ (x.after.queue q).votes k p = some e := by
  obtain ⟨newer, m, older, hh, hm, -, hnewer⟩ := hist.origin
    (fun L ↦ (L.queue q).votes k p = some e) (fun m ↦ CastAt m q k p e.1 e.2)
    (fun L hinit hP ↦ by
      obtain ⟨_, _, _, rfl⟩ := hinit
      cases hP)
    (fun _ _ _ _ _ hstep hP ↦ hstep.vote hP) he
  refine ⟨newer, m, older, hh, hm, fun x hx ↦ ⟨fun t v hcast ↦ ?_, (hnewer x hx).2⟩⟩
  obtain rfl := hcast.eq_of_after (hnewer x hx).2.2
  exact (hnewer x hx).1 hcast

/-- A vote that is counted in a tally was cast by the last accepted action of its party for its
key, which may be the one that is tallied. -/
theorem LedgerHistory.counted_origin {newer older : List (Moment Ledger Event)}
    {m : Moment Ledger Event} (hist : LedgerHistory (newer ++ m :: older) L) {party : Bytes}
    {t : Second} {v : q.Value} (hm : CastAt m q k party t v) {p : Bytes} {e : Second × q.Value}
    (he : ((m.before.queue q).record k party t v).votes k p = some e) :
    ∃ newer' x older', m :: older = newer' ++ x :: older' ∧ CastAt x q k p e.1 e.2 ∧
      ∀ y ∈ newer', ∀ t' v', ¬CastAt y q k p t' v' := by
  by_cases hp : p = party
  · subst hp
    obtain rfl := Option.some.inj ((QueueState.votes_record_self _ _ _ _ _).symm.trans he)
    exact ⟨[], m, older, rfl, hm, fun y hy ↦ absurd hy List.not_mem_nil⟩
  · rw [QueueState.votes_record_of_ne _ _ _ _ _ fun h ↦ hp h.2] at he
    obtain ⟨newer', x, older', rfl, hx, hnewer⟩ := LedgerHistory.vote_origin hist.split.1 he
    refine ⟨m :: newer', x, older', rfl, hx, fun y hy t' v' hcast ↦ ?_⟩
    rcases List.mem_cons.mp hy with rfl | hy
    · obtain ⟨order, action, now, hevent, -, -, hvotes, -⟩ := hm.accepted
      obtain ⟨order', action', now', hevent', -, -, hvotes', -⟩ := hcast.accepted
      obtain ⟨-, rfl, -⟩ := Event.act.inj (hevent.symm.trans hevent')
      exact hp (hvotes.unique hvotes').2.1.symm
    · exact (hnewer y hy).1 t' v' hcast

/-- A pending change was enqueued, and has been pending ever since. -/
theorem LedgerHistory.pending_origin (hist : LedgerHistory h L) {e : Second × q.Value}
    (he : (L.queue q).pending k = some e) :
    ∃ newer m older, h = newer ++ m :: older ∧ EnqueuedAt m q k e.1 e.2 ∧
      ∀ x ∈ newer, (x.before.queue q).pending k = some e ∧
        (x.after.queue q).pending k = some e := by
  obtain ⟨newer, m, older, hh, hm, -, hnewer⟩ := hist.origin
    (fun L ↦ (L.queue q).pending k = some e) (fun m ↦ EnqueuedAt m q k e.1 e.2)
    (fun L hinit hP ↦ by
      obtain ⟨_, _, _, rfl⟩ := hinit
      cases hP)
    (fun _ _ _ _ _ hstep hP ↦ hstep.pending hP) he
  exact ⟨newer, m, older, hh, hm, fun x hx ↦ (hnewer x hx).2⟩

/-- What is enqueued, somebody has voted for. -/
theorem LedgerHistory.exists_supporter {newer older : List (Moment Ledger Event)}
    {m : Moment Ledger Event} (hist : LedgerHistory (newer ++ m :: older) L) {t : Second}
    {w : q.Value} (hm : EnqueuedAt m q k t w) : ∃ x ∈ m :: older, ∃ p t', CastAt x q k p t' w := by
  obtain ⟨party, v, hcast, ⟨p, t', hp⟩, -⟩ := hm.won
  obtain ⟨newer', x, older', hsplit, hx, -⟩ := LedgerHistory.counted_origin hist hcast hp
  exact ⟨x, hsplit ▸ List.mem_append_right _ List.mem_cons_self, p, t', hx⟩

omit [Host] in
/-- A config that is voted for has passed the checks. -/
theorem CastAt.supersedes {m : Moment Ledger Event} {k : QueueId.admin.Key} {p : Bytes}
    {t : Second} {c : Config} (h : CastAt m .admin k p t c) : c.Supersedes m.before.config := by
  obtain ⟨order, action, now, -, -, -, hvotes, hpermits⟩ := h.accepted
  cases hvotes with
  | reconfigure r => exact hpermits.2.2.2.1

/-- So has a config that is pending. -/
theorem LedgerHistory.checked_of_pending (hist : LedgerHistory h L) {t : Second} {c : Config}
    (he : (L.queue .admin).pending Empty.mk = some (t, c)) : c.Checked := by
  obtain ⟨newer, m, older, rfl, hm, -⟩ := LedgerHistory.pending_origin hist he
  obtain ⟨x, -, p, t', hx⟩ := LedgerHistory.exists_supporter hist hm
  exact hx.supersedes.checked

/-- The time was set by the last block to begin. -/
theorem LedgerHistory.exists_begin (hist : LedgerHistory h L) {now : Time}
    (htime : L.time = some now) :
    ∃ newer m older, h = newer ++ m :: older ∧
      (∃ request, m.event = .begin request ∧ request.time = now) ∧
      ∀ x ∈ newer, ∀ request, x.event ≠ .begin request := by
  obtain ⟨newer, m, older, hh, hm, -, hnewer⟩ := hist.origin
    (fun L ↦ L.time = some now)
    (fun m ↦ ∃ request, m.event = .begin request ∧ request.time = now)
    (fun L hinit hP ↦ by
      obtain ⟨_, _, _, rfl⟩ := hinit
      cases hP)
    (fun _ L e L' _ hstep hP ↦ by
      cases hstep with
      | begin _ hbegins =>
        exact .inl ⟨_, rfl, Option.some.inj (hbegins.time.symm.trans hP)⟩
      | accept _ _ _ hcasts =>
        obtain ⟨Q, rfl⟩ := hcasts.frame
        exact .inr hP
      | refuse => exact .inr hP
      | finish _ hends => exact .inr (hends.time ▸ hP)) htime
  refine ⟨newer, m, older, hh, hm, fun x hx request hevent ↦ ?_⟩
  -- a later block would have set the time, and would be the last one itself
  subst hh
  obtain ⟨newer₁, newer₂, rfl⟩ := List.append_of_mem hx
  have hstep := History.step_of_mem hist (List.mem_append_left _ hx)
  obtain ⟨hno, -, hafter⟩ := hnewer x hx
  rw [hevent] at hstep hno
  cases hstep with
  | begin _ hbegins => exact hno ⟨request, rfl, Option.some.inj (hbegins.time.symm.trans hafter)⟩

end Origins

end Felidae
