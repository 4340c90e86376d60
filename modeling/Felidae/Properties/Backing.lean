import Felidae.Chain.QueueRun
import Felidae.Properties.Revocation

/-!
# What stands behind the canonical state

A canonical entry is only written by the promotion of a pending observation, and a pending
observation was enqueued by a cast with a quorum of votes for it: each the last one of its party,
cast when the party was an oracle. What has not timed out when the block of that cast begins is
counted, and so is every vote of the block itself, whatever the timeout.

The expiry of votes stops at the first young entry of the index, which is in the order of time from
1970 on only: before that, votes may be counted that should have timed out.
-/

namespace Felidae

/-- A block begins. -/
def StartsBlock (m : Moment Ledger Event) : Prop := ∃ request, m.event = .begin request

/-- When the block of the moment `m` began, less time had passed since second `t` than the timeout
of oracle votes. -/
def Young (older : List (Moment Ledger Event)) (m : Moment Ledger Event) (t : Second) : Prop :=
  ∃ since b earlier request, older = since ++ b :: earlier ∧ b.event = .begin request ∧
    (∀ x ∈ since, ¬StartsBlock x) ∧ m.before.time = some request.time ∧
    request.time.ageOf t.toTime < b.before.config.oracles.voting.timeout

/-- The vote of the party that is counted at the moment `m` was cast before the moments `since`, by
an accepted observation: when the party was an oracle, and as its last vote for the domain. -/
structure LastVote (older : List (Moment Ledger Event)) (m : Moment Ledger Event)
    (d : PrefixOrderDomain) (p : Bytes) (t : Second) (w : OracleVoteValue)
    (since : List (Moment Ledger Event)) : Prop where
  cast : ∃ x before, m :: older = since ++ x :: before ∧ CastAt x .oracle d p t w ∧
    x.before.config.Authorizes .oracle p
  last : ∀ y ∈ since, ∀ t' v, ¬CastAt y .oracle d p t' v

/-- What stands behind the promotion of an observation at the moment `m`: it was enqueued by a cast
with a quorum of parties whose stored votes are for it, each the last vote of its party and fresh;
its delay has elapsed; and since then nothing else has been pending for the domain. -/
def Backed (Fresh : List (Moment Ledger Event) → Moment Ledger Event → Second →
    List (Moment Ledger Event) → Prop) (older : List (Moment Ledger Event))
    (m : Moment Ledger Event) (d : PrefixOrderDomain) : Prop :=
  ∃ t w between x before party v, PromotedAt m d t w ∧ older = between ++ x :: before ∧
    CastAt x .oracle d party t v ∧
    ((x.before.queue .oracle).record d party t v).HasQuorum
      x.before.config.oracles.voting.quorum d w ∧
    (∀ p t', ((x.before.queue .oracle).record d party t v).votes d p = some (t', w) →
      ∃ since, LastVote before x d p t' w since ∧ Fresh before x t' since) ∧
    (∃ now, m.before.time = some now ∧ Elapsed m.after.config.oracles.voting.delay now t) ∧
    ∀ y ∈ between, (y.before.queue .oracle).pending d = some (t, w) ∧
      (y.after.queue .oracle).pending d = some (t, w)

/-- Nothing is written for the domain: its canonical entry is the same, and nothing pending for it
is promoted. -/
def Untouched (m : Moment Ledger Event) (d : PrefixOrderDomain) : Prop :=
  m.after.canonical d = m.before.canonical d ∧
    (m.event = .finish → (m.after.queue .oracle).pending d = (m.before.queue .oracle).pending d)

namespace CastAt

variable {m : Moment Ledger Event} {q : QueueId} {k k' : q.Key} {p p' : Bytes} {t t' : Second}
  {v v' : q.Value}

theorem unique (h : CastAt m q k p t v) (h' : CastAt m q k' p' t' v') : p = p' ∧ t = t' := by
  obtain ⟨_, _, now, hevent, hnow, rfl, hvotes, -⟩ := h.accepted
  obtain ⟨_, _, now', hevent', hnow', rfl, hvotes', -⟩ := h'.accepted
  obtain ⟨-, rfl, -⟩ := Event.act.inj (hevent.symm.trans hevent')
  obtain rfl := Option.some.inj (hnow.symm.trans hnow')
  exact ⟨(hvotes.unique hvotes').2.1, rfl⟩

theorem not_startsBlock (h : CastAt m q k p t v) : ¬StartsBlock m := by
  rintro ⟨request, hbegin⟩
  obtain ⟨_, _, _, hevent, -⟩ := h.accepted
  cases hevent.symm.trans hbegin

end CastAt

/-- Every moment of a history writes nothing for a domain, or has a quorum of votes behind it. -/
def AllBacked (Fresh : List (Moment Ledger Event) → Moment Ledger Event → Second →
    List (Moment Ledger Event) → Prop) (h : List (Moment Ledger Event)) : Prop :=
  ∀ newer m older, h = newer ++ m :: older → ∀ d, Backed Fresh older m d ∨ Untouched m d

section Histories

variable [Host] {L L' : Ledger} {e : Event} {h newer older : List (Moment Ledger Event)}
  {m : Moment Ledger Event}

/-! ## Time -/

theorem Ledger.Step.time_le (hstep : L.Step e L') {now : Time} (hnow : L.time = some now) :
    ∃ now', L'.time = some now' ∧ now ≤ now' := by
  have hrefl : now ≤ now := le_refl now.total
  cases hstep with
  | begin hmono hbegins => exact ⟨_, hbegins.time, hmono now hnow⟩
  | accept _ _ _ hcasts => exact ⟨now, hcasts.sameBlock.time.trans hnow, hrefl⟩
  | refuse => exact ⟨now, hnow, hrefl⟩
  | finish _ hends => exact ⟨now, hends.time.trans hnow, hrefl⟩

/-- The time only changes when a block begins. -/
theorem Ledger.Step.time_eq (hstep : L.Step e L') (he : ¬∃ request, e = .begin request) :
    L'.time = L.time := by
  cases hstep with
  | begin _ _ => exact absurd ⟨_, rfl⟩ he
  | accept _ _ _ hcasts => exact hcasts.sameBlock.time
  | refuse => rfl
  | finish _ hends => exact hends.time

theorem LedgerHistory.time_le (hist : LedgerHistory (newer ++ m :: older) L) {now : Time}
    (hnow : m.before.time = some now) : ∃ now', L.time = some now' ∧ now ≤ now' := by
  refine hist.kept (P := fun L ↦ ∃ now', L.time = some now' ∧ now ≤ now') ?_ fun x hx hbefore ↦ ?_
  · exact Ledger.Step.time_le hist.split.2 hnow
  · obtain ⟨now', hnow', hle⟩ := hbefore
    obtain ⟨now'', hnow'', hle'⟩ :=
      Ledger.Step.time_le (hist.step_of_mem (List.mem_append_left _ hx)) hnow'
    exact ⟨now'', hnow'', le_trans (show now.total ≤ now'.total from hle) hle'⟩

theorem LedgerHistory.time_eq (hist : LedgerHistory (newer ++ m :: older) L)
    (hm : ¬StartsBlock m) (hnewer : ∀ x ∈ newer, ¬StartsBlock x) : L.time = m.before.time :=
  hist.kept (P := fun L ↦ L.time = m.before.time) (Ledger.Step.time_eq hist.split.2 hm)
    fun x hx hbefore ↦ (Ledger.Step.time_eq (hist.step_of_mem (List.mem_append_left _ hx))
      (hnewer x hx)).trans hbefore

/-! ## Timeouts -/

/-- The entries of the index, and the block time, are from 1970 on. -/
structure Ledger.SinceEpoch (L : Ledger) : Prop where
  time : ∀ now, L.time = some now → 0 ≤ now.unixTimestamp
  voteIndex : ∀ t k p, ((L.queue .oracle).voteIndex t k p).isSome → 0 ≤ t.secs

theorem Ledger.SinceEpoch.step (hL : L.SinceEpoch) (hstep : L.Step e L')
    (hepoch : ∀ request, e = .begin request → 0 ≤ request.time.unixTimestamp) : L'.SinceEpoch := by
  cases hstep with
  | @begin _ request _ hbegins =>
    obtain ⟨D, -, hqueue⟩ := hbegins.queue .oracle
    refine ⟨fun now hnow ↦ ?_, fun t k p hx ↦ hL.voteIndex t k p ?_⟩
    · rw [← Option.some.inj (hbegins.time.symm.trans hnow)]
      exact hepoch request rfl
    · rw [hqueue] at hx
      exact QueueState.voteIndex_of_expire _ _ hx
  | accept htime _ _ hcasts =>
    refine ⟨fun now hnow ↦ hL.time now (hcasts.sameBlock.time.symm.trans hnow), fun t k p hx ↦ ?_⟩
    rcases hcasts.queue_cases .oracle with hsame | ⟨k', party, v, -, hcast⟩
    · exact hL.voteIndex t k p (hsame ▸ hx)
    · rcases hcast.voteIndex hx with hbefore | ⟨rfl, -, -⟩
      · exact hL.voteIndex t k p hbefore
      · exact hL.time _ htime
  | refuse => exact hL
  | finish _ hends =>
    obtain ⟨D, hqueue⟩ := hends.queue .oracle
    refine ⟨fun now hnow ↦ hL.time now (hends.time.symm.trans hnow), fun t k p hx ↦ ?_⟩
    rw [hqueue] at hx
    exact hL.voteIndex t k p hx

theorem LedgerHistory.sinceEpoch (hist : LedgerHistory h L)
    (hepoch : ∀ x ∈ h, ∀ request, x.event = .begin request → 0 ≤ request.time.unixTimestamp) :
    L.SinceEpoch := by
  induction hist with
  | start hinit =>
    obtain ⟨_, _, _, rfl⟩ := hinit
    refine ⟨fun now hnow ↦ ?_, fun t k p hx ↦ ?_⟩
    · cases hnow
    · cases hx
  | next _ hstep ih =>
    exact (ih fun x hx ↦ hepoch x (List.mem_cons_of_mem _ hx)).step hstep
      (hepoch _ List.mem_cons_self)

/-- A vote that is there after a block has begun is younger than the timeout. -/
theorem Ledger.Begins.young {request : FinalizeBlock} (hbegins : L.Begins request L')
    (hL : L.Sound) (hepoch : L.SinceEpoch) {d : PrefixOrderDomain} {p : Bytes} {t : Second}
    {w : OracleVoteValue} (hvote : (L'.queue .oracle).votes d p = some (t, w)) :
    request.time.ageOf t.toTime < L.config.oracles.voting.timeout := by
  obtain ⟨D, hexpiring, hqueue⟩ := hbegins.queue .oracle
  rw [hqueue] at hvote
  obtain ⟨hbefore, hkept⟩ := (QueueState.votes_expire_eq_some _ _ _).mp hvote
  by_contra hold
  refine hkept (hexpiring.complete hepoch.voteIndex t d p ?_ (not_lt.mp hold))
  rw [hL.indexed .oracle d p t w hbefore]
  rfl

end Histories

/-! ## Provenance -/

section Provenance

variable [Host] [LawfulHost] {L : Ledger} {newer older : List (Moment Ledger Event)}
  {m : Moment Ledger Event} {d : PrefixOrderDomain} {party : Bytes} {t : Second}
  {v w : OracleVoteValue}

omit [Host] [LawfulHost] in
/-- Two splittings of a list, one at its first element of a kind: that element is in the front part
of the other, if one of its kind is. -/
theorem mem_of_append_eq {α : Type*} {P : α → Prop} {xs ys xs' ys' : List α} {a b : α}
    (h : xs ++ a :: ys = xs' ++ b :: ys') (ha : ¬P a) (hb : P b) (hxs' : ∀ x ∈ xs', ¬P x)
    (hxs : ∃ x ∈ xs, P x) : b ∈ xs := by
  rcases List.append_eq_append_iff.mp h with ⟨c, rfl, -⟩ | ⟨c, rfl, hc⟩
  · obtain ⟨x, hx, hP⟩ := hxs
    exact absurd hP (hxs' x (List.mem_append_left _ hx))
  · cases c with
    | nil => exact absurd hb ((List.cons.inj hc).1 ▸ ha)
    | cons c cs =>
      rw [(List.cons.inj hc).1]
      exact List.mem_append_right _ List.mem_cons_self

/-- A vote that is counted is the last one of its party, and younger than the timeout unless its
block is the one in which it is counted. -/
theorem LedgerHistory.exists_lastVote (hist : LedgerHistory (newer ++ m :: older) L)
    (hm : CastAt m .oracle d party t v) {p : Bytes} {t' : Second}
    (hvote : ((m.before.queue .oracle).record d party t v).votes d p = some (t', w)) :
    ∃ since, LastVote older m d p t' w since ∧
      ((∀ x ∈ older, ∀ request, x.event = .begin request → 0 ≤ request.time.unixTimestamp) →
        Young older m t' ∨ ∀ y ∈ since, ¬StartsBlock y) := by
  obtain ⟨order, action, now, hevent, hnow, -⟩ := hm.accepted
  by_cases hp : p = party
  · subst hp
    have heq := (QueueState.votes_record_self _ _ _ _ _).symm.trans hvote
    obtain ⟨rfl, rfl⟩ := Prod.mk.inj (Option.some.inj heq)
    exact ⟨[], ⟨⟨m, older, rfl, hm, hm.authorizes⟩, fun y hy ↦ absurd hy List.not_mem_nil⟩,
      fun _ ↦ .inr fun y hy ↦ absurd hy List.not_mem_nil⟩
  · rw [QueueState.votes_record_of_ne _ _ _ _ _ fun h ↦ hp h.2] at hvote
    obtain ⟨hbefore, -⟩ := hist.split
    obtain ⟨kept, x, before, rfl, hx, hkept⟩ := LedgerHistory.vote_origin hbefore hvote
    refine ⟨m :: kept, ⟨⟨x, before, rfl, hx, hx.authorizes⟩, fun y hy t v hcast ↦ ?_⟩,
      fun hepoch ↦ ?_⟩
    · rcases List.mem_cons.mp hy with rfl | hy
      · exact hp (hcast.unique hm).1
      · exact (hkept y hy).1 t v hcast
    by_cases hstarts : ∃ y ∈ kept, StartsBlock y
    · -- a block has begun since the vote was cast, and the vote is still there after that
      obtain ⟨front, b, earlier, hsplit, ⟨request, hbegin, htime⟩, hfront⟩ :=
        LedgerHistory.exists_begin hbefore hnow
      have hmem : b ∈ kept := mem_of_append_eq hsplit hx.not_startsBlock ⟨request, hbegin⟩
        (fun y hy hy' ↦ hy'.elim (hfront y hy)) hstarts
      rw [hsplit] at hbefore hepoch
      obtain ⟨hearlier, hstep⟩ := hbefore.split
      refine .inl ⟨front, b, earlier, request, hsplit, hbegin,
        fun y hy hy' ↦ hy'.elim (hfront y hy), by rw [hnow, htime], ?_⟩
      rw [hbegin] at hstep
      have hstored := (hkept b hmem).2.2
      cases hstep with
      | begin _ hbegins =>
        exact hbegins.young (LedgerHistory.sound hearlier) (LedgerHistory.sinceEpoch hearlier
          fun y hy ↦ hepoch y (List.mem_append_right _ (List.mem_cons_of_mem _ hy))) hstored
    · refine .inr fun y hy hy' ↦ ?_
      rcases List.mem_cons.mp hy with rfl | hy
      · exact hm.not_startsBlock hy'
      · exact hstarts ⟨y, hy, hy'⟩

/-- A moment of a history either writes nothing for a domain, or has a quorum of votes behind it. -/
theorem LedgerHistory.backed (hist : LedgerHistory (newer ++ m :: older) L)
    (d : PrefixOrderDomain) :
    Backed (fun older x t since ↦
      (∀ y ∈ older, ∀ request, y.event = .begin request → 0 ≤ request.time.unixTimestamp) →
        Young older x t ∨ ∀ y ∈ since, ¬StartsBlock y) older m d ∨ Untouched m d := by
  obtain ⟨hbefore, hstep⟩ := hist.split
  rcases hstep.canonical (LedgerHistory.sound hbefore) d with ⟨t, w, hpromoted⟩ | hsame
  · obtain ⟨between, x, before, rfl, hx, hkept⟩ :=
      LedgerHistory.pending_origin hbefore hpromoted.pending
    obtain ⟨party, v, hcast, hquorum⟩ := hx.won
    obtain ⟨now, hnow, hripe⟩ := hpromoted.ripe
    obtain ⟨_, _, cast, -, hcastTime, rfl, -⟩ := hcast.accepted
    obtain ⟨now', hnow', hle⟩ := LedgerHistory.time_le hbefore hcastTime
    obtain rfl := Option.some.inj (hnow'.symm.trans hnow)
    refine .inl ⟨_, w, between, x, before, party, v, hpromoted, rfl, hcast, hquorum,
      fun p t' hvote ↦ LedgerHistory.exists_lastVote hbefore hcast hvote, ⟨now', hnow, ?_⟩, hkept⟩
    exact (elapsed_iff (le_trans cast.toTime_second_le hle)).mpr hripe
  · exact .inr hsame

/-- In every run a canonical entry is only written with a quorum of votes behind it. If no block is
earlier than 1970, each of these votes is younger than the timeout when the block begins in which it
is counted, or is cast in that very block. -/
theorem Run.canonical_backed {genesis : InitChain} {requests : List FinalizeBlock}
    {ms : List (Moment Store Event)} {s : Store} (hrun : Run genesis requests ms s) :
    ∃ h L, Shown ms s h L ∧ AllBacked (fun older x t since ↦
      (∀ request ∈ requests, 0 ≤ request.time.unixTimestamp) →
        Young older x t ∨ ∀ y ∈ since, ¬StartsBlock y) h := by
  obtain ⟨h, L, hshown⟩ := hrun.exists_shown
  refine ⟨h, L, hshown, ?_⟩
  rintro newer m older rfl d
  refine (LedgerHistory.backed hshown.history d).imp_left fun hbacked ↦ ?_
  obtain ⟨t, w, between, x, before, party, v, hpromoted, rfl, hcast, hquorum, hvotes, hrest⟩ :=
    hbacked
  refine ⟨t, w, between, x, before, party, v, hpromoted, rfl, hcast, hquorum, fun p t' hvote ↦ ?_,
    hrest⟩
  obtain ⟨since, hlast, hfresh⟩ := hvotes p t' hvote
  refine ⟨since, hlast, fun hepoch ↦ hfresh fun y hy request hbegin ↦ ?_⟩
  have hmem : y ∈ newer ++ m :: (between ++ x :: before) := by
    simp [hy]
  obtain ⟨y₀, hy₀, hshow⟩ := hshown.exists_shows hmem
  exact hepoch request (hrun.mem_requests_of_begin hy₀ (hshow.event.trans hbegin))

end Provenance

namespace Reference

/-- The chain is founded with a timeout of zero, and a domain observed. -/
def instant : List FinalizeBlock := [blockAt 2 20 [observeByAlice], blockAt 1 10 [foundInstant]]

/-- The chain is founded before 1970. A vote is cast in the next second; when it should time out,
the first entry of the index is a younger one, and the vote is counted together with another. -/
def early : List FinalizeBlock :=
  [blockAt 4 5 [observeByBob], blockAt 3 0 [observeOrgByBob], blockAt 2 (-9) [observeByAlice],
    blockAt 1 (-10) [foundPair]]

/-- At this moment a domain is enrolled, by what is pending since a second. -/
def enrolls (d : PrefixOrderDomain) (time : Time) (m : Moment Store Event) : Bool :=
  decide ((State.canonicalHash d.toDomain m.before).toOption = some none) &&
    (State.canonicalHash d.toDomain m.after).toOption.any Option.isSome &&
    decide (((QueueId.oracle.queue State.defaultConfig).pendingUnder d.display
      m.before).toOption.map (List.map Prod.fst) = some [time])

/-- Observations of a domain are only accepted from these parties, in these seconds, and under this
quorum; and the block that begins in the given second does so under the given timeout. -/
def observedBy (d : PrefixOrderDomain) (parties : List (Bytes × Time)) (quorum : ℕ)
    (start : Time × Duration) (m : Moment Store Event) : Bool :=
  match m.event with
  | .act _ (.observe o) (.ok _) => (PrefixOrderDomain.ofDomain o.observation.domain != d) ||
      ((State.config m.before).toOption.any (fun c ↦ c.oracles.voting.quorum.toNat == quorum) &&
        parties.any fun p ↦ decide (o.oracle.identity = p.1 ∧
          (State.blockTime m.before).toOption = some p.2))
  | .begin request => request.time != start.1 ||
      (State.config m.before).toOption.any fun c ↦ c.oracles.voting.timeout == start.2
  | _ => true

section Tests

variable {ms : List (Moment Store Event)} {s : Store} {h : List (Moment Ledger Event)} {L : Ledger}
  {d : PrefixOrderDomain} {parties : List (Bytes × Time)} {quorum : ℕ} {start : Time × Duration}

/-- What stands behind an enrolment. -/
theorem exists_backed_of_enrolls {Fresh : List (Moment Ledger Event) → Moment Ledger Event →
    Second → List (Moment Ledger Event) → Prop} (hshown : Shown ms s h L) {time : Time}
    (hany : ms.any (enrolls d time) = true) (hall : AllBacked Fresh h) :
    ∃ newer x before w party v, h = newer ++ x :: before ∧
      CastAt x .oracle d party time.second v ∧
      ((x.before.queue .oracle).record d party time.second v).HasQuorum
        x.before.config.oracles.voting.quorum d w ∧
      ∀ p t', ((x.before.queue .oracle).record d party time.second v).votes d p
        = some (t', w) → ∃ since, LastVote before x d p t' w since ∧ Fresh before x t' since := by
  obtain ⟨m₀, hm₀, henrolls⟩ := List.any_eq_true.mp hany
  obtain ⟨m, hm, hshow⟩ := hshown.exists_of_mem hm₀
  obtain ⟨newer, older, rfl⟩ := List.append_of_mem hm
  have hsound : m.before.Sound := LedgerHistory.sound hshown.history.split.1
  rw [enrolls, hshow.before.canonicalHash, hshow.after.canonicalHash, Bool.and_eq_true,
    Bool.and_eq_true] at henrolls
  obtain ⟨⟨hnone, hsome⟩, hpending⟩ := henrolls
  have hnone' : m.before.canonical d = none := Option.some.inj (of_decide_eq_true hnone)
  have hsome' : (m.after.canonical d).isSome = true := hsome
  rcases hall newer m older rfl d with hbacked | ⟨hsame, -⟩
  · obtain ⟨t, w, between, x, before, party, v, hpromoted, rfl, hcast, hquorum, hvotes, -⟩ :=
      hbacked
    -- the time that the scan shows is the second of the pending change
    have ht : t = time.second := by
      have hread := hshow.before.pendingUnder hsound .oracle State.defaultConfig d
      rw [hpromoted.pending] at hread
      change decide (((QueueId.oracle.queue State.defaultConfig).pendingUnder (QueueKey.toText d)
        m₀.before).toOption.map (List.map Prod.fst) = some [time]) = true at hpending
      rw [hread] at hpending
      have htime : t.toTime = time :=
        (List.cons.inj (Option.some.inj (of_decide_eq_true hpending))).1
      rw [← htime, Second.second_toTime]
    subst ht
    exact ⟨newer ++ m :: between, x, before, w, party, v, by simp, hcast, hquorum, hvotes⟩
  · rw [hsame, hnone'] at hsome'
    cases hsome'

/-- What the test says of an observation. -/
theorem exists_party_of_cast (hshown : Shown ms s h L)
    (hall : ms.all (observedBy d parties quorum start) = true) {x : Moment Ledger Event}
    (hx : x ∈ h) {p : Bytes} {t : Second} {v : OracleVoteValue} (hcast : CastAt x .oracle d p t v) :
    x.before.config.oracles.voting.quorum.toNat = quorum ∧ ∃ e ∈ parties, p = e.1 ∧
      x.before.time = some e.2 ∧ t = e.2.second := by
  obtain ⟨x₀, hx₀, hshow⟩ := hshown.exists_shows hx
  obtain ⟨order, action, now, hevent, hnow, rfl, hvotes, -⟩ := hcast.accepted
  obtain ⟨o, rfl, hd, rfl⟩ := hvotes.exists_observe
  have htest := List.all_eq_true.mp hall x₀ hx₀
  simp only [observedBy, hshow.event, hevent, ← hd, bne_self_eq_false, Bool.false_or,
    hshow.before.config, hshow.before.blockTime, hnow, okOr_some] at htest
  obtain ⟨hquorum, hparty⟩ := Bool.and_eq_true_iff.mp htest
  obtain ⟨e, he, hparty⟩ := List.any_eq_true.mp hparty
  obtain ⟨hidentity, htime⟩ := of_decide_eq_true hparty
  have hnow' : now = e.2 := Option.some.inj htime
  exact ⟨eq_of_beq hquorum, e, he, hidentity, hnow.trans (congrArg some hnow'),
    congrArg Time.second hnow'⟩

theorem timeout_eq_of_any {r : Except Fault Config} {c : Config} {timeout : Duration}
    (hr : r = .ok c)
    (hany : (r.toOption.any fun c ↦ c.oracles.voting.timeout == timeout) = true) :
    c.oracles.voting.timeout = timeout := by
  subst hr
  exact eq_of_beq hany

/-- What it says of the beginning of a block. -/
theorem age_lt_of_young (hshown : Shown ms s h L)
    (hall : ms.all (observedBy d parties quorum start) = true) {x : Moment Ledger Event}
    {before newer : List (Moment Ledger Event)} (hsplit : h = newer ++ x :: before)
    (htime : x.before.time = some start.1) {t : Second} (hyoung : Young before x t) :
    start.1.ageOf t.toTime < start.2 := by
  obtain ⟨since, b, earlier, request, rfl, hbegin, -, hrequest, hage⟩ := hyoung
  obtain ⟨b₀, hb₀, hshow⟩ := hshown.exists_shows (M := b) (by rw [hsplit]; simp)
  have hnow : request.time = start.1 := Option.some.inj (hrequest.symm.trans htime)
  have htest := List.all_eq_true.mp hall b₀ hb₀
  simp only [observedBy, hshow.event, hbegin, hnow, bne_self_eq_false, Bool.false_or] at htest
  rwa [timeout_eq_of_any hshow.before.config htest, hnow] at hage

/-- Who has cast a vote that is counted, and when. -/
theorem exists_party_of_lastVote (hshown : Shown ms s h L)
    (hall : ms.all (observedBy d parties quorum start) = true) {x : Moment Ledger Event}
    {before newer since : List (Moment Ledger Event)} (hsplit : h = newer ++ x :: before)
    {p : Bytes} {t : Second} {w : OracleVoteValue} (hlast : LastVote before x d p t w since) :
    ∃ e ∈ parties, p = e.1 ∧ t = e.2.second ∧
      ((∀ y ∈ since, ¬StartsBlock y) → x.before.time = some e.2) := by
  obtain ⟨y, earlier, hbefore, hcast, -⟩ := hlast.cast
  have hmem : y ∈ h := hsplit ▸ List.mem_append_right _ (hbefore ▸ by simp)
  obtain ⟨-, e, he, hp, htime, ht⟩ := exists_party_of_cast hshown hall hmem hcast
  refine ⟨e, he, hp, ht, fun hsince ↦ ?_⟩
  cases since with
  | nil => exact (List.cons.inj hbefore).1 ▸ htime
  | cons z since =>
    obtain ⟨rfl, rfl⟩ := List.cons.inj hbefore
    subst hsplit
    exact (LedgerHistory.time_eq hshown.history.split.1 hcast.not_startsBlock
      fun z hz ↦ hsince z (List.mem_cons_of_mem _ hz)).trans htime

/-- The one vote that enrols the domain is cast in the block in which it is counted, and its timeout
is zero. -/
theorem not_young_instant : ¬∀ (genesis : InitChain) (requests : List FinalizeBlock)
    (ms : List (Moment Store Event)) (s : Store),
      (∀ request ∈ requests, 0 ≤ request.time.unixTimestamp) → Run genesis requests ms s →
        ∃ h L, Shown ms s h L ∧ AllBacked (fun older x t _ ↦ Young older x t) h := by
  intro hall
  obtain ⟨ms, s, hrun, htest⟩ := exists_run_of_any genesis listed instant
    (fun r ↦ r.1.any (enrolls www (timeAt 20)) &&
      r.1.all (observedBy www [(alice, timeAt 20)] 1 (timeAt 20, 0)))
    (by decide +kernel)
  obtain ⟨henrolls, hobserved⟩ := Bool.and_eq_true_iff.mp htest
  obtain ⟨h, L, hshown, hbacked⟩ := hall genesis instant ms s (by decide) hrun
  obtain ⟨newer, x, before, w, party, v, hsplit, hcast, ⟨⟨p, t', hvote⟩, -⟩, hvotes⟩ :=
    exists_backed_of_enrolls hshown henrolls hbacked
  obtain ⟨since, -, hyoung⟩ := hvotes p t' hvote
  obtain ⟨-, e, he, -, htime, -⟩ :=
    exists_party_of_cast hshown hobserved (hsplit ▸ by simp : x ∈ h) hcast
  rw [List.mem_singleton.mp he] at htime
  exact Nat.not_lt_zero _ (age_lt_of_young hshown hobserved hsplit htime hyoung)

/-- One of the two votes that enrol the domain has timed out when the block begins in which they are
counted. -/
theorem not_fresh_early : ¬∀ (genesis : InitChain) (requests : List FinalizeBlock)
    (ms : List (Moment Store Event)) (s : Store), Run genesis requests ms s →
      ∃ h L, Shown ms s h L ∧ AllBacked (fun older x t since ↦
        Young older x t ∨ ∀ y ∈ since, ¬StartsBlock y) h := by
  intro hall
  obtain ⟨ms, s, hrun, htest⟩ := exists_run_of_any genesis listed early
    (fun r ↦ r.1.any (enrolls www (timeAt 5)) &&
      r.1.all (observedBy www [(alice, timeAt (-9)), (bob, timeAt 5)] 2
        (timeAt 5, 10000000000))) (by decide +kernel)
  obtain ⟨henrolls, hobserved⟩ := Bool.and_eq_true_iff.mp htest
  obtain ⟨h, L, hshown, hbacked⟩ := hall genesis early ms s hrun
  obtain ⟨newer, x, before, w, party, v, hsplit, hcast, ⟨-, hquorum⟩, hvotes⟩ :=
    exists_backed_of_enrolls hshown henrolls hbacked
  obtain ⟨hquorum₂, e, he, -, htime, ht⟩ :=
    exists_party_of_cast hshown hobserved (hsplit ▸ by simp : x ∈ h) hcast
  have hnow : x.before.time = some (timeAt 5) := by
    rcases List.mem_pair.mp he with rfl | rfl
    · exact absurd (congrArg Second.secs ht) (by decide)
    · exact htime
  -- two parties have to have voted, so the first one has
  obtain ⟨t', hvote⟩ : alice ∈ ((x.before.queue .oracle).record www party (timeAt 5).second v
      ).supporters www w := by
    by_contra halice
    have hbob : ((x.before.queue .oracle).record www party (timeAt 5).second v).supporters www w ⊆
        {bob} := by
      rintro p ⟨t, hvote⟩
      obtain ⟨since, hlast, -⟩ := hvotes p t hvote
      obtain ⟨e', he', hp, -⟩ := exists_party_of_lastVote hshown hobserved hsplit hlast
      rcases List.mem_pair.mp he' with rfl | rfl
      · obtain rfl : p = alice := hp
        exact absurd ⟨t, hvote⟩ halice
      · exact hp
    have hle := hquorum.trans ((Set.encard_le_encard hbob).trans_eq (Set.encard_singleton bob))
    rw [hquorum₂] at hle
    exact absurd hle (by decide)
  obtain ⟨since, hlast, hfresh⟩ := hvotes alice t' hvote
  obtain ⟨e', he', hp, rfl, hsame⟩ := exists_party_of_lastVote hshown hobserved hsplit hlast
  rcases List.mem_pair.mp he' with rfl | rfl
  · rcases hfresh with hyoung | hsince
    · exact absurd (age_lt_of_young hshown hobserved hsplit hnow hyoung) (by decide)
    · exact absurd (Option.some.inj (hnow.symm.trans (hsame hsince))) (by decide)
  · exact absurd hp (by decide)

/-- The votes of the block itself are counted whatever their timeout; and before 1970 votes of
earlier blocks are counted that have timed out. -/
theorem not_backed_instant_early :
    (¬∀ (genesis : InitChain) (requests : List FinalizeBlock) (ms : List (Moment Store Event))
      (s : Store), (∀ request ∈ requests, 0 ≤ request.time.unixTimestamp) →
        Run genesis requests ms s →
          ∃ h L, Shown ms s h L ∧ AllBacked (fun older x t _ ↦ Young older x t) h) ∧
    ¬∀ (genesis : InitChain) (requests : List FinalizeBlock) (ms : List (Moment Store Event))
      (s : Store), Run genesis requests ms s →
        ∃ h L, Shown ms s h L ∧ AllBacked (fun older x t since ↦
          Young older x t ∨ ∀ y ∈ since, ¬StartsBlock y) h :=
  ⟨not_young_instant, not_fresh_early⟩

/-- In a run that enrols a domain the enrolment has a quorum behind it. -/
theorem canonical_backed_enrolling : ∃ ms s, Run genesis enrolling ms s ∧ ∃ h L, Shown ms s h L ∧
    AllBacked (fun older x t since ↦
      (∀ request ∈ enrolling, 0 ≤ request.time.unixTimestamp) →
        Young older x t ∨ ∀ y ∈ since, ¬StartsBlock y) h := by
  obtain ⟨ms, s, -, hrun⟩ := exists_run isSome_exec_enrolling
  exact ⟨ms, s, hrun, hrun.canonical_backed⟩

end Tests

end Reference

end Felidae
