import Felidae.Properties.Backing
import Felidae.Properties.Pending
import Felidae.Properties.VoteIndex

/-!
# Deadlines

What a block does before and after its transactions, as a function of the ledger, in runs whose
block times are from 1970 on: the votes that have reached the timeout go, and what is pending goes
where it belongs once it has reached the delay, both on time and nothing else. From this follows
what becomes of every stored vote and of every pending change.
-/

open Classical

namespace Felidae

/-- What has not reached the age. -/
def remaining {V : Type} (age : Duration) (now : Time) (o : Option (Second × V)) :
    Option (Second × V) :=
  o.filter fun e ↦ ¬Elapsed age now e.1

section Remaining

variable {V : Type} {age : Duration} {now : Time} {o : Option (Second × V)} {e : Second × V}

theorem remaining_eq_some : remaining age now o = some e ↔ o = some e ∧ ¬Elapsed age now e.1 := by
  rw [remaining, Option.filter_eq_some_iff, decide_eq_true_iff]

theorem remaining_some_of_elapsed (h : Elapsed age now e.1) :
    remaining age now (some e) = none := by
  rw [remaining, Option.filter_some, if_neg (by simpa using h)]

theorem remaining_some_of_not_elapsed (h : ¬Elapsed age now e.1) :
    remaining age now (some e) = some e :=
  remaining_eq_some.mpr ⟨rfl, h⟩

end Remaining

namespace Ledger

theorem Sound.applyObservations [Host] {L : Ledger} (hL : L.Sound) (D : Set PrefixOrderDomain) :
    (L.applyObservations D).Sound := by
  obtain ⟨hvotes, hpending, hfits, hindexed⟩ := hL.promote (q := .oracle) D
  exact ⟨hvotes, hpending, hfits, hindexed⟩

/-- What a block does before its transactions: in both queues the votes go that have reached the
timeout. -/
structure BeginsOnTime (L : Ledger) (request : FinalizeBlock) (L' : Ledger) : Prop where
  votes : ∀ (q : QueueId) k p, (L'.queue q).votes k p
    = remaining (q.voting L.config).timeout request.time ((L.queue q).votes k p)
  pending : ∀ q, (L'.queue q).pending = (L.queue q).pending
  config : L'.config = L.config
  canonical : L'.canonical = L.canonical
  time : L'.time = some request.time

/-- The config that is in force after a block: the pending one, if it has reached the delay and is
newer. -/
def dueConfig (L : Ledger) (now : Time) : Config :=
  ((L.queue .admin).pending Empty.mk).elim L.config fun e ↦
    if Elapsed L.config.admins.voting.delay now e.1 ∧ L.config.version < e.2.version then e.2
    else L.config

/-- What a block does after its transactions: first the pending config goes if it has reached the
delay, then, under the config that is in force then, the observations that have. -/
structure EndsOnTime (L : Ledger) (now : Time) (L' : Ledger) : Prop where
  config : L'.config = L.dueConfig now
  admin : (L'.queue .admin).pending Empty.mk
    = remaining L.config.admins.voting.delay now ((L.queue .admin).pending Empty.mk)
  oracle : ∀ d, (L'.queue .oracle).pending d
    = remaining (L.dueConfig now).oracles.voting.delay now ((L.queue .oracle).pending d)
  canonical : ∀ d, L'.canonical d = ((L.queue .oracle).pending d).elim (L.canonical d) fun e ↦
    if Elapsed (L.dueConfig now).oracles.voting.delay now e.1 then
      HashObserved.hash? (OracleVoteValue.hashObserved e.2)
    else L.canonical d
  votes : ∀ q, (L'.queue q).votes = (L.queue q).votes
  time : L'.time = L.time

end Ledger

/-! ## Dates along a history -/

section Dates

variable [Host] {L L' : Ledger} {e : Event} {h : List (Moment Ledger Event)}

namespace Ledger

omit [Host] in
theorem Past.mono {t : Second} (h : L.Past t)
    (htime : ∀ now, L.time = some now → ∃ now', L'.time = some now' ∧ now ≤ now') : L'.Past t := by
  obtain ⟨hsecs, now, hnow, hle⟩ := h
  obtain ⟨now', hnow', hle'⟩ := htime now hnow
  exact ⟨hsecs, now', hnow', le_trans (show t.toTime.total ≤ now.total from hle) hle'⟩

theorem Step.dated (h : L.Step e L') (hL : ∀ q, L.Dated q)
    (hepoch : ∀ now, L.time = some now → 0 ≤ now.unixTimestamp) (q : QueueId) : L'.Dated q := by
  have hkeep : ∀ {t}, L.Past t → L'.Past t := fun ht ↦ ht.mono fun now hnow ↦ h.time_le hnow
  -- what a block writes is dated by its own time, and time does not go back
  have hnew : ∀ {now}, L.time = some now → L'.Past now.second := by
    intro now hnow
    have hpast : L.Past now.second := ⟨hepoch now hnow, now, hnow, now.toTime_second_le⟩
    exact hkeep hpast
  cases h with
  | begin _ hbegins =>
    obtain ⟨D, -, hqueue⟩ := hbegins.queue q
    refine ⟨fun t k p hx ↦ hkeep ((hL q).voteIndex t k p ?_),
      fun k t v hx ↦ hkeep ((hL q).pending k t v ?_)⟩
    · rw [hqueue] at hx
      exact QueueState.voteIndex_of_expire _ _ hx
    · rwa [hqueue, QueueState.pending_expire] at hx
  | @accept _ _ action now htime _ _ hcasts =>
    refine ⟨fun t k p hx ↦ ?_, fun k t v hx ↦ ?_⟩
    · rcases hcasts.queue_cases q with hsame | ⟨k', party, v, -, hcast⟩
      · exact hkeep ((hL q).voteIndex t k p (hsame ▸ hx))
      · rcases hcast.voteIndex hx with hbefore | ⟨rfl, -, -⟩
        · exact hkeep ((hL q).voteIndex t k p hbefore)
        · exact hnew htime
    · rcases hcasts.pending_cases q k with hsame | hnone | ⟨_, _, _, -, -, -, hsome, -⟩
      · exact hkeep ((hL q).pending k t v (hsame ▸ hx))
      · cases hnone.symm.trans hx
      · obtain ⟨rfl, -⟩ := Prod.mk.inj (Option.some.inj (hsome.symm.trans hx))
        exact hnew htime
  | refuse => exact hL q
  | finish _ hends =>
    obtain ⟨D, hqueue⟩ := hends.queue q
    refine ⟨fun t k p hx ↦ hkeep ((hL q).voteIndex t k p ?_),
      fun k t v hx ↦ hkeep ((hL q).pending k t v ?_)⟩
    · rwa [hqueue] at hx
    · rw [hqueue] at hx
      exact ((QueueState.pending_promote_eq_some _ _).mp hx).1

end Ledger

/-- As long as no block is earlier than 1970, the queues hold nothing but entries of past
seconds. -/
theorem LedgerHistory.dated (hist : LedgerHistory h L)
    (hepoch : ∀ x ∈ h, ∀ request, x.event = .begin request → 0 ≤ request.time.unixTimestamp)
    (q : QueueId) : L.Dated q := by
  induction hist generalizing q with
  | start hinit =>
    obtain ⟨_, _, _, rfl⟩ := hinit
    refine ⟨fun t k p hx ↦ ?_, fun k t v hx ↦ ?_⟩
    · cases hx
    · cases hx
  | next hist hstep ih =>
    have hepoch' := fun x hx ↦ hepoch x (List.mem_cons_of_mem _ hx)
    exact hstep.dated (fun q ↦ ih hepoch' q) (LedgerHistory.sinceEpoch hist hepoch').time q

end Dates

/-! ## The boundaries of a block -/

section Boundaries

variable {L L' L₂ : Ledger} {now : Time} {cs : List (Second × QueueId.admin.Key × Config)}

namespace Ledger

/-- The votes that time out when a block begins are those that have reached the timeout. -/
theorem Begins.onTime [Host] {request : FinalizeBlock} (h : L.Begins request L') (hL : L.Sound)
    (hdated : ∀ q, L.Dated q) (hmono : ∀ time, L.time = some time → time ≤ request.time) :
    L.BeginsOnTime request L' := by
  refine ⟨fun q k p ↦ ?_, fun q ↦ ?_, h.config, h.canonical, h.time⟩
  · obtain ⟨D, hexpiring, hqueue⟩ := h.queue q
    refine Option.ext fun e ↦ ?_
    rw [hqueue, QueueState.votes_expire_eq_some, remaining_eq_some]
    refine and_congr_right fun hvote ↦ not_congr ?_
    have hindexed : ((L.queue q).voteIndex e.1 k p).isSome := by
      rw [hL.indexed q k p e.1 e.2 hvote]
      rfl
    obtain ⟨-, last, hlast, hle⟩ := (hdated q).voteIndex e.1 k p hindexed
    have hpast : e.1.toTime ≤ request.time :=
      le_trans (show e.1.toTime.total ≤ last.total from hle) (hmono last hlast)
    rw [elapsed_iff hpast]
    exact ⟨hexpiring.old _,
      hexpiring.complete (fun t k p hx ↦ ((hdated q).voteIndex t k p hx).1) e.1 k p hindexed⟩
  · obtain ⟨D, -, hqueue⟩ := h.queue q
    rw [hqueue, QueueState.pending_expire]

/-- The pending config goes if it has reached the delay, and comes into force if it is newer. -/
theorem Reconfigured.onTime [Host] (h : L.Reconfigured cs L₂) (hcs : L.Promoting .admin now cs)
    (hL : L.Sound) (hdated : L.Dated .admin) (hnow : L.time = some now) :
    L₂.config = L.dueConfig now ∧ (L₂.queue .admin).pending Empty.mk
      = remaining L.config.admins.voting.delay now ((L.queue .admin).pending Empty.mk) := by
  cases h with
  | kept =>
    rcases hpending : (L.queue .admin).pending Empty.mk with _ | e
    · rw [dueConfig, hpending]
      exact ⟨rfl, rfl⟩
    · have hwaits : ¬Elapsed L.config.admins.voting.delay now e.1 := fun helapsed ↦
        absurd ((hcs.mem_iff hdated hnow).mpr ⟨hpending, helapsed⟩) List.not_mem_nil
      rw [dueConfig, hpending, remaining_some_of_not_elapsed hwaits, Option.elim_some,
        if_neg fun hdue ↦ hwaits hdue.1]
      exact ⟨rfl, rfl⟩
  | @applied t k c =>
    obtain ⟨hpending, helapsed⟩ := (hcs.mem_iff hdated hnow).mp List.mem_cons_self
    rw [Subsingleton.elim k Empty.mk] at hpending
    have hclean : c.readBack = c :=
      Config.readBack_of_clean (hL.pending_clean .admin Empty.mk (t, c) hpending)
    have hgone : (((L.promote .admin {Empty.mk}).applyConfig c).queue .admin).pending Empty.mk
        = none := by
      rw [applyConfig]
      exact (congrFun (congrArg QueueState.pending (L.queue_promote .admin {Empty.mk})) _).trans
        (QueueState.pending_promote_of_mem _ rfl)
    -- a config that is not newer than the one in force is dropped
    have hforce : ((L.promote .admin {Empty.mk}).applyConfig c).config
        = if c.version ≤ L.config.version then L.config else c := by
      rw [config, applyConfig]
      by_cases hversion : c.version ≤ L.config.version
      · rw [if_pos hversion]
        exact congrArg Config.readBack (if_pos hversion)
      · rw [if_neg hversion]
        exact (congrArg Config.readBack (if_neg hversion)).trans hclean
    refine ⟨hforce.trans ?_, hgone.trans ?_⟩
    · rw [dueConfig, hpending, Option.elim_some]
      by_cases hversion : c.version ≤ L.config.version
      · rw [if_pos hversion, if_neg fun hdue ↦ UInt32.not_lt.mpr hversion hdue.2]
      · rw [if_neg hversion, if_pos ⟨helapsed, UInt32.not_le.mp hversion⟩]
    · rw [hpending, remaining_some_of_elapsed helapsed]

/-- The promotion of a config leaves the observations and all votes alone. -/
theorem Reconfigured.frame (h : L.Reconfigured cs L₂) :
    L₂.queue .oracle = L.queue .oracle ∧ (∀ q, (L₂.queue q).votes = (L.queue q).votes) ∧
      L₂.canonical = L.canonical ∧ L₂.time = L.time := by
  cases h with
  | kept => exact ⟨rfl, fun _ ↦ rfl, rfl, rfl⟩
  | applied =>
    have horacle := L.queue_promote_of_ne (by decide : QueueId.oracle ≠ .admin) {Empty.mk}
    refine ⟨horacle, fun q ↦ ?_, rfl, rfl⟩
    cases q with
    | admin =>
      exact (congrArg QueueState.votes (L.queue_promote .admin {Empty.mk})).trans
        (QueueState.votes_promote _ _)
    | oracle => exact congrArg QueueState.votes horacle

/-- Then the observations that have reached the delay go, and become canonical. -/
theorem Promoting.onTime [Host] {es : List (Second × PrefixOrderDomain × OracleVoteValue)}
    (hcs : L.Promoting .admin now cs) (hL₂ : L.Reconfigured cs L₂)
    (hes : L₂.Promoting .oracle now es) (hL : L.Sound) (hdated : ∀ q, L.Dated q)
    (hnow : L.time = some now) :
    L.EndsOnTime now (L₂.applyObservations {d | ∃ e ∈ es, e.2.1 = d}) := by
  obtain ⟨hconfig, hadmin⟩ := hL₂.onTime hcs hL (hdated .admin) hnow
  obtain ⟨horacle, hvotes, hcanonical, htime⟩ := hL₂.frame
  -- the reconfiguration has left the queue of the oracles and the time alone
  have hdated₂ : L₂.Dated .oracle := by
    obtain ⟨hindex, hpending⟩ := hdated .oracle
    rw [← horacle] at hindex hpending
    refine ⟨fun t k p hx ↦ (hindex t k p hx).mono fun now hnow ↦ ?_,
      fun k t v hx ↦ (hpending k t v hx).mono fun now hnow ↦ ?_⟩ <;>
    exact ⟨now, htime.trans hnow, le_refl now.total⟩
  -- the observations are due under the config that was promoted just before
  have hmem : ∀ d, d ∈ {d | ∃ e ∈ es, e.2.1 = d} ↔ ∃ e, (L.queue .oracle).pending d = some e ∧
      Elapsed (L.dueConfig now).oracles.voting.delay now e.1 := by
    intro d
    rw [← hconfig, ← horacle]
    constructor
    · rintro ⟨e, he, rfl⟩
      exact ⟨(e.1, e.2.2), (hes.mem_iff hdated₂ (htime.trans hnow)).mp he⟩
    · rintro ⟨e, he⟩
      exact ⟨(e.1, d, e.2), (hes.mem_iff hdated₂ (htime.trans hnow)).mpr he, rfl⟩
  have hqueue : ∀ q, q ≠ .oracle →
      (L₂.applyObservations {d | ∃ e ∈ es, e.2.1 = d}).queue q = L₂.queue q :=
    fun q hq ↦ queue_promote_of_ne _ hq _
  have hqueue' : (L₂.applyObservations {d | ∃ e ∈ es, e.2.1 = d}).queue .oracle
      = (L.queue .oracle).promote {d | ∃ e ∈ es, e.2.1 = d} :=
    (queue_promote _ .oracle _).trans (by rw [horacle])
  refine ⟨hconfig, ?_, fun d ↦ ?_, fun d ↦ ?_, fun q ↦ ?_, htime⟩
  · rw [hqueue .admin (by decide), hadmin]
  · rw [hqueue']
    rcases hpending : (L.queue .oracle).pending d with _ | e
    · exact Option.eq_none_iff_forall_ne_some.mpr fun e he ↦ by
        cases hpending.symm.trans ((QueueState.pending_promote_eq_some _ _).mp he).1
    · by_cases helapsed : Elapsed (L.dueConfig now).oracles.voting.delay now e.1
      · rw [remaining_some_of_elapsed helapsed]
        exact QueueState.pending_promote_of_mem _ ((hmem d).mpr ⟨e, hpending, helapsed⟩)
      · rw [remaining_some_of_not_elapsed helapsed, ← hpending]
        refine QueueState.pending_promote_of_notMem _ fun hd ↦ ?_
        obtain ⟨e', he', helapsed'⟩ := (hmem d).mp hd
        exact helapsed (Option.some.inj (he'.symm.trans hpending) ▸ helapsed')
  · rw [applyObservations]
    dsimp only
    rcases hpending : (L.queue .oracle).pending d with _ | e
    · rw [if_neg fun hd ↦ ?_, hcanonical, Option.elim_none]
      obtain ⟨e, he, -⟩ := (hmem d).mp hd
      cases hpending.symm.trans he
    · rw [Option.elim_some, horacle, hpending]
      by_cases helapsed : Elapsed (L.dueConfig now).oracles.voting.delay now e.1
      · rw [if_pos ((hmem d).mpr ⟨e, hpending, helapsed⟩), if_pos helapsed]
        rfl
      · rw [if_neg fun hd ↦ ?_, if_neg helapsed, hcanonical]
        obtain ⟨e', he', helapsed'⟩ := (hmem d).mp hd
        exact helapsed (Option.some.inj (he'.symm.trans hpending) ▸ helapsed')
  · cases q with
    | admin => rw [hqueue .admin (by decide), hvotes]
    | oracle => rw [hqueue', QueueState.votes_promote]

end Ledger

end Boundaries

/-! ## In a run -/

namespace State

variable [Host]

/-- The end of a finalized block succeeds, and the validators can be listed then. -/
theorem endBlock_of_handleFinalizeBlock {orders : ℕ → ℕ → IterOrder} {request : FinalizeBlock}
    {response : FinalizeBlockResponse} {s t : Store}
    (h : handleFinalizeBlock orders request s = (.ok response, t)) :
    ∃ us, endBlock (executedBlock orders request s) = (.ok us, t) ∧
      activeValidators t = .ok us := by
  obtain ⟨_, r, hrecord, h⟩ := Exec.bind_eq_ok.mp h
  obtain ⟨_, r', hfinalize, h⟩ := Exec.bind_eq_ok.mp h
  obtain ⟨_, s₁, hbegin, hfinalize⟩ := Exec.bind_eq_ok.mp hfinalize
  obtain ⟨_, s₂, hexec, hfinalize⟩ := Exec.bind_eq_ok.mp hfinalize
  obtain ⟨us, s₃, hend, hfinalize⟩ := Exec.bind_eq_ok.mp hfinalize
  obtain ⟨_, rfl⟩ := Prod.mk.inj hfinalize
  obtain ⟨_, _, hread, h⟩ := Exec.bind_eq_ok.mp h
  obtain ⟨-, rfl⟩ := Prod.mk.inj hread
  obtain ⟨-, rfl⟩ := Prod.mk.inj h
  have hexecuted : executedBlock orders request s = s₂ := by
    rw [executedBlock, begunBlock, Exec.bind_of_ok hrecord, hbegin, hexec]
  refine ⟨us, by rw [hexecuted, hend], ?_⟩
  obtain ⟨_, _, -, hend⟩ := Exec.bind_eq_ok.mp hend
  obtain ⟨_, _, -, hend⟩ := Exec.bind_eq_ok.mp hend
  obtain ⟨_, _, -, hend⟩ := Exec.bind_eq_ok.mp hend
  obtain ⟨_, _, -, hend⟩ := Exec.bind_eq_ok.mp hend
  obtain ⟨_, _, -, hend⟩ := Exec.bind_eq_ok.mp hend
  obtain ⟨_, _, -, hend⟩ := Exec.bind_eq_ok.mp hend
  obtain ⟨hus, rfl⟩ := Prod.mk.inj hend
  exact hus

end State

section Runs

variable [Host] {genesis : InitChain} {requests : List FinalizeBlock}
  {ms : List (Moment Store Event)} {s : Store} {L M : Ledger}

theorem Run.endBlock_of_mem (hrun : Run genesis requests ms s) {m : Moment Store Event}
    (hm : m ∈ ms) (hfinish : m.event = .finish) :
    ∃ us, State.endBlock m.before = (.ok us, m.after) ∧
      State.activeValidators m.after = .ok us := by
  induction hrun with
  | start => exact absurd hm List.not_mem_nil
  | block orders _ _ hfinalize ih =>
    rcases List.mem_append.mp hm with hm | hm
    · rcases List.mem_cons.mp hm with rfl | hm
      · obtain ⟨us, hend, hus⟩ := State.endBlock_of_handleFinalizeBlock hfinalize
        exact ⟨us, by rw [hend], by rwa [hend]⟩
      · rcases List.mem_append.mp hm with hm | hm
        · obtain ⟨_, _, hevent, -⟩ := State.applies_of_mem_txsMoments hm
          cases hevent.symm.trans hfinish
        · obtain rfl := List.mem_singleton.mp hm
          cases hfinish
    · exact ih hm

variable [LawfulHost]

/-- A store represents one ledger only, but for the index and the history of the blocks. -/
theorem Represents.agree (h : Represents s L) (h' : Represents s M) (hL : L.Sound) (hM : M.Sound) :
    L.config = M.config ∧ L.canonical = M.canonical ∧ L.time = M.time ∧
      ∀ q, (L.queue q).votes = (M.queue q).votes ∧ (L.queue q).pending = (M.queue q).pending := by
  refine ⟨Except.ok.inj (h.config.symm.trans h'.config), ?_, ?_, fun q ↦ ⟨?_, ?_⟩⟩
  · funext d
    exact Except.ok.inj ((h.canonicalHash d).symm.trans (h'.canonicalHash d))
  · exact Option.ext fun now ↦ h.blockTime_eq_ok.symm.trans h'.blockTime_eq_ok
  · have hle : ∀ {L M : Ledger}, Represents s L → Represents s M → L.Sound → M.Sound →
        ∀ k p e, (L.queue q).votes k p = some e → (M.queue q).votes k p = some e := by
      intro L M h h' hL hM k p e he
      have hstored : StoredVote q s (q.readEntry k (p, e)) :=
        (h.storedVote_iff hL).mpr ⟨(p, e), he, rfl⟩
      obtain ⟨e', he', hread⟩ := (h'.storedVote_iff hM).mp hstored
      obtain ⟨hparty, htime, -, hvalue⟩ := Vote.mk.inj hread
      obtain rfl := hexEncode_injective hparty
      obtain rfl : e'.2 = e := Prod.ext (Second.toTime_injective htime) hvalue
      exact he'
    funext k p
    exact Option.ext fun e ↦ ⟨hle h h' hL hM k p e, hle h' h hM hL k p e⟩
  · funext k
    exact Option.ext fun e ↦ (h.hasPending_iff hL).symm.trans (h'.hasPending_iff hM)

/-- The blocks of a run begin and end on time, if none of them is earlier than 1970. -/
theorem Shown.onTime {h : List (Moment Ledger Event)} (hrun : Run genesis requests ms s)
    (hshown : Shown ms s h L) (hepoch : ∀ request ∈ requests, 0 ≤ request.time.unixTimestamp)
    {m : Moment Ledger Event} (hm : m ∈ h) :
    (∀ request, m.event = .begin request → m.before.BeginsOnTime request m.after) ∧
    (m.event = .finish → ∃ now, m.before.time = some now ∧ m.before.EndsOnTime now m.after) := by
  obtain ⟨m₀, hm₀, hshow⟩ := hshown.exists_shows hm
  have hbegins : ∀ x ∈ h, ∀ request, x.event = .begin request → 0 ≤ request.time.unixTimestamp := by
    intro x hx request hbegin
    obtain ⟨x₀, hx₀, hshows⟩ := hshown.exists_shows hx
    exact hepoch request (hrun.mem_requests_of_begin hx₀ (hshows.event.trans hbegin))
  obtain ⟨newer, older, rfl⟩ := List.append_of_mem hm
  obtain ⟨hbefore, hstep⟩ := hshown.history.split
  have hdated : ∀ q, m.before.Dated q := LedgerHistory.dated hbefore fun x hx ↦
    hbegins x (List.mem_append_right _ (List.mem_cons_of_mem _ hx))
  have hsound := LedgerHistory.sound hbefore
  refine ⟨fun request hbegin ↦ ?_, fun hfinish ↦ ?_⟩
  · rw [hbegin] at hstep
    cases hstep with
    | begin hmono hblock => exact hblock.onTime hsound hdated hmono
  · obtain ⟨us, hend, hus⟩ := hrun.endBlock_of_mem hm₀ (hshow.event.trans hfinish)
    -- the block was answered, so all its validators could be read
    have hseated : m.before.Seated := by
      have hafter := hshow.after.activeValidators.mp ⟨us, hus⟩
      rwa [Ledger.Seated, hstep.same.2] at hafter
    rw [hfinish] at hstep
    cases hstep with
    | @finish _ now htime hends =>
      obtain ⟨us', t, L₂, cs, es, hend', ht, hcs, hL₂, hes⟩ :=
        hshow.before.endBlock_promoting hsound hseated htime
      obtain rfl := (Prod.mk.inj (hend'.symm.trans hend)).2
      have hontime := hcs.onTime hL₂ hes hsound hdated htime
      have hsound' := (hL₂.configPromotion hcs).sound hsound |>.applyObservations
        {d | ∃ e ∈ es, e.2.1 = d}
      -- the step and the call end in ledgers of one store
      obtain ⟨hconfig, hcanonical, htimes, hqueue⟩ :=
        ht.agree hshow.after hsound' (hsound.ends hends)
      refine ⟨now, htime, ?_⟩
      exact {
        config := hconfig ▸ hontime.config
        admin := (hqueue .admin).2 ▸ hontime.admin
        oracle := (hqueue .oracle).2 ▸ hontime.oracle
        canonical := hcanonical ▸ hontime.canonical
        votes := fun q ↦ (hqueue q).1 ▸ hontime.votes q
        time := htimes ▸ hontime.time }

end Runs

/-! ## What becomes of a vote and of a pending change -/

/-- The moment takes a vote out of its queue: it times out when a block begins, its party votes
again, or the votes for its key are cleared because something has a quorum. -/
inductive TakesVote (q : QueueId) (k : q.Key) (p : Bytes) (t : Second)
    (m : Moment Ledger Event) : Prop where
  | expired (request : FinalizeBlock) (hevent : m.event = .begin request)
      (helapsed : Elapsed (q.voting m.before.config).timeout request.time t)
  | replaced (t' : Second) (v : q.Value) (hcast : CastAt m q k p t' v)
  | settled (party : Bytes) (t' : Second) (v w : q.Value) (hcast : CastAt m q k party t' v)
      (hwin : ((m.before.queue q).record k party t' v).HasQuorum
        (q.voting m.before.config).quorum k w)

/-- If a block begins, the second has not reached the timeout. -/
def KeepsVote (q : QueueId) (t : Second) (m : Moment Ledger Event) : Prop :=
  ∀ request, m.event = .begin request →
    ¬Elapsed (q.voting m.before.config).timeout request.time t

/-- The config whose delay counts at the end of a block: for a config the one in force before, for
an observation the one in force after. -/
def Moment.delaying (m : Moment Ledger Event) : QueueId → Config
  | .admin => m.before.config
  | .oracle => m.after.config

/-- A pending change is carried out: an observation becomes canonical, a config comes into force if
it is newer than the one in force. -/
def CarriesOut (m : Moment Ledger Event) : ∀ q : QueueId, q.Key → q.Value → Prop
  | .admin, _, c => m.after.config = if m.before.config.version < c.version then c
      else m.before.config
  | .oracle, d, w => m.after.canonical d = w.hashObserved.hash?

/-- The moment takes a pending change out of its queue: at the end of a block it has reached the
delay and is carried out, or a cast gives another value of its key a quorum. -/
inductive TakesPending (q : QueueId) (k : q.Key) (t : Second) (v : q.Value)
    (m : Moment Ledger Event) : Prop where
  | carriedOut (now : Time) (hevent : m.event = .finish) (htime : m.before.time = some now)
      (helapsed : Elapsed (q.voting (m.delaying q)).delay now t) (hcarries : CarriesOut m q k v)
  | superseded (party : Bytes) (t' : Second) (v' w : q.Value) (hcast : CastAt m q k party t' v')
      (hwin : ((m.before.queue q).record k party t' v').HasQuorum
        (q.voting m.before.config).quorum k w) (hne : w ≠ v)

/-- If a block ends, the second has not reached the delay. -/
def KeepsPending (q : QueueId) (t : Second) (m : Moment Ledger Event) : Prop :=
  m.event = .finish → ∀ now, m.before.time = some now →
    ¬Elapsed (q.voting (m.delaying q)).delay now t

section Fates

variable [Host] {L L' : Ledger} {event : Event} {request : FinalizeBlock} {now : Time}
  {q : QueueId} {k : q.Key} {p : Bytes} {t : Second} {v : q.Value}

namespace Ledger

/-- A vote stays in its queue, unless the step takes it out. -/
theorem Step.takesVote (h : L.Step event L')
    (hontime : ∀ request, event = .begin request → L.BeginsOnTime request L')
    (hbefore : (L.queue q).votes k p = some (t, v)) :
    (L'.queue q).votes k p = some (t, v) ∧ KeepsVote q t ⟨L, event, L'⟩ ∨
      TakesVote q k p t ⟨L, event, L'⟩ := by
  cases h with
  | @begin _ request =>
    by_cases helapsed : Elapsed (q.voting L.config).timeout request.time t
    · exact .inr (.expired request rfl helapsed)
    · refine .inl ⟨?_, fun request' hevent ↦ by cases hevent; exact helapsed⟩
      rw [(hontime request rfl).votes, hbefore,
        remaining_some_of_not_elapsed (e := (t, v)) helapsed]
  | @accept _ order action now htime _ hpermits hcasts =>
    have hkeeps : KeepsVote q t ⟨L, .act order action (.ok ()), L'⟩ :=
      fun _ hevent ↦ by cases hevent
    rcases hcasts.queue_cases q with hsame | ⟨k', party, v', hvotes, hcast⟩
    · exact .inl ⟨by rw [hsame, hbefore], hkeeps⟩
    · by_cases hk : k = k'
      · subst hk
        have hat : CastAt ⟨L, .act order action (.ok ()), L'⟩ q k party now.second v' :=
          ⟨⟨order, action, now, rfl, htime, rfl, hvotes, hpermits⟩, hcast⟩
        -- the party has voted again, or another one has, and then with or without a quorum
        by_cases hp : p = party
        · subst hp
          exact .inr (.replaced _ _ hat)
        · rcases hcast.outcome with ⟨rfl, -⟩ | ⟨w, o, hwin, -, -⟩
          · refine .inl ⟨?_, hkeeps⟩
            rw [queue_record, QueueState.votes_record_of_ne _ _ _ _ _ fun hkp ↦ hp hkp.2, hbefore]
          · exact .inr (.settled _ _ _ w hat hwin)
      · exact .inl ⟨by rw [hcast.votes_of_ne hk, hbefore], hkeeps⟩
  | refuse => exact .inl ⟨hbefore, fun _ hevent ↦ by cases hevent⟩
  | finish _ hends =>
    obtain ⟨D, hqueue⟩ := hends.queue q
    refine .inl ⟨?_, fun _ hevent ↦ by cases hevent⟩
    rw [hqueue, QueueState.votes_promote, hbefore]

omit [Host] in
/-- The end of a block that is on time keeps a pending change or carries it out. -/
theorem EndsOnTime.takesPending (h : L.EndsOnTime now L') (htime : L.time = some now)
    (hbefore : (L.queue q).pending k = some (t, v)) :
    (L'.queue q).pending k = some (t, v) ∧ KeepsPending q t ⟨L, .finish, L'⟩ ∨
      TakesPending q k t v ⟨L, .finish, L'⟩ := by
  by_cases helapsed : Elapsed (q.voting (Moment.delaying ⟨L, .finish, L'⟩ q)).delay now t
  · refine .inr (.carriedOut now rfl htime helapsed ?_)
    cases q with
    | admin =>
      obtain rfl := Subsingleton.elim Empty.mk k
      rw [CarriesOut, h.config, dueConfig, hbefore, Option.elim_some]
      exact if_congr (and_iff_right helapsed) rfl rfl
    | oracle =>
      rw [Moment.delaying, h.config] at helapsed
      rw [CarriesOut, h.canonical, hbefore, Option.elim_some]
      exact if_pos helapsed
  · refine .inl ⟨?_, fun _ now' htime' ↦ ?_⟩
    · cases q with
      | admin =>
        obtain rfl := Subsingleton.elim Empty.mk k
        rw [h.admin, hbefore]
        exact remaining_some_of_not_elapsed (e := (t, v)) helapsed
      | oracle =>
        rw [Moment.delaying, h.config] at helapsed
        rw [h.oracle, hbefore]
        exact remaining_some_of_not_elapsed (e := (t, v)) helapsed
    · obtain rfl := Option.some.inj (htime.symm.trans htime')
      exact helapsed

omit [Host] in
/-- The pending change of a key stays in a cast, unless another value has a quorum. -/
theorem Cast.keeps_or_wins {party : Bytes} {t' : Second} {v' : q.Value}
    (h : L.Cast q k party t' v' L') (hbefore : (L.queue q).pending k = some (t, v)) :
    (L'.queue q).pending k = some (t, v) ∨
      ∃ w, ((L.queue q).record k party t' v').HasQuorum (q.voting L.config).quorum k w ∧ w ≠ v := by
  have hsame : (((L.record q k party t' v').clear q k).queue q).pending k = some (t, v) := by
    rw [queue_clear, queue_record, QueueState.pending_clear, QueueState.pending_record, hbefore]
  cases h with
  | waiting => exact .inl (by rw [queue_record, QueueState.pending_record, hbefore])
  | @won w _ hwin henqueue =>
    rw [queue_record] at hwin
    cases henqueue with
    | unchanged => exact .inl hsame
    | dropped hpending | enqueued hpending =>
      refine .inr ⟨w, hwin, ?_⟩
      rintro rfl
      exact hpending t hsame

/-- A pending change stays in its queue, unless the step takes it out. -/
theorem Step.takesPending (h : L.Step event L')
    (hontime : event = .finish → ∃ now, L.time = some now ∧ L.EndsOnTime now L')
    (hbefore : (L.queue q).pending k = some (t, v)) :
    (L'.queue q).pending k = some (t, v) ∧ KeepsPending q t ⟨L, event, L'⟩ ∨
      TakesPending q k t v ⟨L, event, L'⟩ := by
  cases h with
  | begin _ hbegins =>
    obtain ⟨D, -, hqueue⟩ := hbegins.queue q
    refine .inl ⟨?_, fun hevent ↦ by cases hevent⟩
    rw [hqueue, QueueState.pending_expire, hbefore]
  | @accept _ order action now htime _ hpermits hcasts =>
    have hkeeps : KeepsPending q t ⟨L, .act order action (.ok ()), L'⟩ := fun hevent ↦ by
      cases hevent
    rcases hcasts.queue_cases q with hsame | ⟨k', party, v', hvotes, hcast⟩
    · exact .inl ⟨by rw [hsame, hbefore], hkeeps⟩
    · by_cases hk : k = k'
      · subst hk
        have hat : CastAt ⟨L, .act order action (.ok ()), L'⟩ q k party now.second v' :=
          ⟨⟨order, action, now, rfl, htime, rfl, hvotes, hpermits⟩, hcast⟩
        rcases hcast.keeps_or_wins hbefore with hkept | ⟨w, hwin, hne⟩
        · exact .inl ⟨hkept, hkeeps⟩
        · exact .inr (.superseded _ _ _ w hat hwin hne)
      · exact .inl ⟨by rw [hcast.pending_of_ne hk, hbefore], hkeeps⟩
  | refuse => exact .inl ⟨hbefore, fun hevent ↦ by cases hevent⟩
  | finish =>
    obtain ⟨now, htime, hends⟩ := hontime rfl
    exact hends.takesPending htime hbefore

end Ledger

variable [LawfulHost] {genesis : InitChain} {requests : List FinalizeBlock}
  {ms : List (Moment Store Event)} {s : Store}

/-- In a run without blocks earlier than 1970 every block takes away, when it begins, the votes
that have reached the timeout, carries out, when it ends, the changes that have reached the delay,
and leaves all the others. -/
theorem Run.boundaries_onTime (hrun : Run genesis requests ms s)
    (hepoch : ∀ request ∈ requests, 0 ≤ request.time.unixTimestamp) :
    ∃ h L, Shown ms s h L ∧ ∀ m ∈ h,
      (∀ request, m.event = .begin request → m.before.BeginsOnTime request m.after) ∧
      (m.event = .finish → ∃ now, m.before.time = some now ∧ m.before.EndsOnTime now m.after) := by
  obtain ⟨h, L, hshown⟩ := hrun.exists_shown
  exact ⟨h, L, hshown, fun m hm ↦ hshown.onTime hrun hepoch hm⟩

/-- A vote that is stored at some moment of a run stays until it reaches the timeout, its party
votes again or something has a quorum for its key. -/
theorem Run.vote_lasts (hrun : Run genesis requests ms s)
    (hepoch : ∀ request ∈ requests, 0 ≤ request.time.unixTimestamp) :
    ∃ h L, Shown ms s h L ∧ ∀ newer m older, h = newer ++ m :: older →
      ∀ (q : QueueId) k p e, (m.after.queue q).votes k p = some e →
        LastsUntil (fun L ↦ (L.queue q).votes k p = some e) (KeepsVote q e.1)
          (TakesVote q k p e.1) newer L := by
  obtain ⟨h, L, hshown⟩ := hrun.exists_shown
  refine ⟨h, L, hshown, ?_⟩
  rintro newer m older rfl q k p e hafter
  refine History.lastsUntil hshown.history hafter fun x hx hbefore ↦ ?_
  have hmem := List.mem_append_left (m :: older) hx
  exact (hshown.history.step_of_mem hmem).takesVote (hshown.onTime hrun hepoch hmem).1 hbefore

/-- A change that is pending at some moment of a run stays so until it reaches the delay and is
carried out, or another value of its key has a quorum. -/
theorem Run.pending_lasts (hrun : Run genesis requests ms s)
    (hepoch : ∀ request ∈ requests, 0 ≤ request.time.unixTimestamp) :
    ∃ h L, Shown ms s h L ∧ ∀ newer m older, h = newer ++ m :: older →
      ∀ (q : QueueId) k e, (m.after.queue q).pending k = some e →
        LastsUntil (fun L ↦ (L.queue q).pending k = some e) (KeepsPending q e.1)
          (TakesPending q k e.1 e.2) newer L := by
  obtain ⟨h, L, hshown⟩ := hrun.exists_shown
  refine ⟨h, L, hshown, ?_⟩
  rintro newer m older rfl q k e hafter
  refine History.lastsUntil hshown.history hafter fun x hx hbefore ↦ ?_
  have hmem := List.mem_append_left (m :: older) hx
  exact (hshown.history.step_of_mem hmem).takesPending (hshown.onTime hrun hepoch hmem).2 hbefore

end Fates

namespace Reference

theorem sinceEpoch_enrolling : ∀ request ∈ enrolling, 0 ≤ request.time.unixTimestamp := by
  decide +kernel

theorem sinceEpoch_lapsing : ∀ request ∈ lapsing, 0 ≤ request.time.unixTimestamp := by
  decide +kernel

/-- A block begins, and the votes for the domain are gone. -/
def lapses (m : Moment Store Event) : Bool :=
  match m.event with
  | .begin _ => hasVote m.before && decide (votesAt m.after = some [])
  | _ => false

theorem of_lapses {m : Moment Store Event} (h : lapses m = true) :
    (∃ request, m.event = .begin request) ∧
      ∃ vote, StoredVote .oracle m.before vote ∧ ¬StoredVote .oracle m.after vote := by
  rw [lapses] at h
  split at h
  next request hevent =>
    obtain ⟨hbefore, hafter⟩ := Bool.and_eq_true_iff.mp h
    obtain ⟨vote, hstored, hkey⟩ := exists_storedVote hbefore
    refine ⟨⟨request, hevent⟩, vote, hstored, fun hstill ↦ ?_⟩
    obtain ⟨votes, hvotes, hmem⟩ := hstill State.defaultConfig
    rw [hkey, votesForKey_of_votesAt (of_decide_eq_true hafter)] at hvotes
    obtain rfl := Except.ok.inj hvotes
    cases hmem
  next => cases h

theorem of_enrolls {d : PrefixOrderDomain} {time : Time} {m : Moment Store Event}
    (h : enrolls d time m = true) : State.canonicalHash d.toDomain m.before = .ok none ∧
      ∃ hash, State.canonicalHash d.toDomain m.after = .ok (some hash) := by
  rw [enrolls, Bool.and_eq_true, Bool.and_eq_true] at h
  obtain ⟨⟨hbefore, hafter⟩, -⟩ := h
  obtain ⟨o, ho, hsome⟩ := (Option.any_eq_true ..).mp hafter
  obtain ⟨hash, rfl⟩ := Option.isSome_iff_exists.mp hsome
  exact ⟨except_toOption_eq_some.mp (of_decide_eq_true hbefore), hash,
    except_toOption_eq_some.mp ho⟩

/-- The third block enrolls the domain when it ends, and the fourth takes a vote for it away when it
begins. -/
theorem boundaries_onTime_lapsing : ∃ ms s, Run genesis lapsing ms s ∧
    (∃ m ∈ ms, (∃ request, m.event = .begin request) ∧
      ∃ vote, StoredVote .oracle m.before vote ∧ ¬StoredVote .oracle m.after vote) ∧
    (∃ m ∈ ms, State.canonicalHash www.toDomain m.before = .ok none ∧
      ∃ hash, State.canonicalHash www.toDomain m.after = .ok (some hash)) ∧
    ∃ h L, Shown ms s h L ∧ ∀ m ∈ h,
      (∀ request, m.event = .begin request → m.before.BeginsOnTime request m.after) ∧
      (m.event = .finish → ∃ now, m.before.time = some now ∧ m.before.EndsOnTime now m.after) := by
  obtain ⟨ms, s, hrun, htest⟩ := exists_run_of_any genesis listed lapsing
    (fun r ↦ r.1.any lapses && r.1.any (enrolls www (timeAt 10))) (by decide +kernel)
  obtain ⟨hlapses, henrolls⟩ := Bool.and_eq_true_iff.mp htest
  obtain ⟨m, hm, hlapses⟩ := List.any_eq_true.mp hlapses
  obtain ⟨m', hm', henrolls⟩ := List.any_eq_true.mp henrolls
  exact ⟨ms, s, hrun, ⟨m, hm, of_lapses hlapses⟩, ⟨m', hm', of_enrolls henrolls⟩,
    hrun.boundaries_onTime sinceEpoch_lapsing⟩

/-- A vote is stored at some moments of the run. -/
theorem vote_lasts_lapsing : ∃ ms s, Run genesis lapsing ms s ∧ ∃ h L, Shown ms s h L ∧
    (∃ m ∈ h, ∃ k p e, (m.after.queue .oracle).votes k p = some e) ∧
    ∀ newer m older, h = newer ++ m :: older →
      ∀ (q : QueueId) k p e, (m.after.queue q).votes k p = some e →
        LastsUntil (fun L ↦ (L.queue q).votes k p = some e) (KeepsVote q e.1)
          (TakesVote q k p e.1) newer L := by
  obtain ⟨ms, s, hrun, hany⟩ := exists_run_of_any genesis listed lapsing
    (fun r ↦ r.1.any fun m ↦ hasVote m.after) (by decide +kernel)
  obtain ⟨m, hm, hvote⟩ := List.any_eq_true.mp hany
  obtain ⟨vote, hstored, -⟩ := exists_storedVote hvote
  obtain ⟨h, L, hshown, hlasts⟩ := hrun.vote_lasts sinceEpoch_lapsing
  obtain ⟨M, hM, hshow⟩ := hshown.exists_of_mem hm
  obtain ⟨newer, older, rfl⟩ := List.append_of_mem hM
  have hsound : M.after.Sound := LedgerHistory.sound hshown.history.upTo
  obtain ⟨e, he, -⟩ := (hshow.after.storedVote_iff hsound).mp hstored
  exact ⟨ms, s, hrun, _, L, hshown, ⟨M, hM, _, _, _, he⟩, hlasts⟩

theorem pending_lasts_enrolling : ∃ ms s, Run genesis enrolling ms s ∧ ∃ h L, Shown ms s h L ∧
    ∀ newer m older, h = newer ++ m :: older →
      ∀ (q : QueueId) k e, (m.after.queue q).pending k = some e →
        LastsUntil (fun L ↦ (L.queue q).pending k = some e) (KeepsPending q e.1)
          (TakesPending q k e.1 e.2) newer L := by
  obtain ⟨ms, s, -, hrun⟩ := exists_run isSome_exec_enrolling
  exact ⟨ms, s, hrun, hrun.pending_lasts sinceEpoch_enrolling⟩

end Reference

end Felidae
