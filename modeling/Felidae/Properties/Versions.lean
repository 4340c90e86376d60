import Felidae.Chain.Refine
import Felidae.Reference

/-!
# Config versions only increase

The version in force is below that of the pending config, which is below that of every stored
admin vote. A vote is checked against both when it is cast, and the votes are cleared whenever the
pending config changes, so the order survives until the vote is acted on.
-/

open Classical

namespace Felidae

/-- Version in force, pending version, and versions voted for, in this order. -/
structure Ledger.VersionOrdered (L : Ledger) : Prop where
  pending : ∀ e : Second × Config, (L.queue .admin).pending Empty.mk = some e →
    L.config.version < e.2.version
  vote : ∀ p (e : Second × Config), (L.queue .admin).votes Empty.mk p = some e →
    L.config.version < e.2.version ∧
      ∀ e' : Second × Config, (L.queue .admin).pending Empty.mk = some e' →
        e'.2.version < e.2.version

namespace Ledger

variable {L L' : Ledger}

/-- The order depends on the config and the admin queue only, and losing entries keeps it. -/
theorem VersionOrdered.of_queue (hL : L.VersionOrdered) (hconfig : L'.config = L.config)
    (hpending : ∀ e, (L'.queue .admin).pending Empty.mk = some e →
      (L.queue .admin).pending Empty.mk = some e)
    (hvotes : ∀ p e, (L'.queue .admin).votes Empty.mk p = some e →
      (L.queue .admin).votes Empty.mk p = some e) : L'.VersionOrdered where
  pending e he := by
    rw [hconfig]
    exact hL.pending e (hpending e he)
  vote p e he := by
    rw [hconfig]
    obtain ⟨hlt, hall⟩ := hL.vote p e (hvotes p e he)
    exact ⟨hlt, fun e' he' ↦ hall e' (hpending e' he')⟩

/-- A config voted for after a permitted reconfiguration is recorded is newer than those in force
and pending. -/
theorem VersionOrdered.lt_of_supporter (hL : L.VersionOrdered) {now : Time} {r : Reconfigure}
    (hpermits : L.Permits now (.reconfigure r)) {t : Second} {w : Config}
    (hw : (((L.queue .admin).record Empty.mk r.admin.identity t r.config).supporters Empty.mk
      w).Nonempty) :
    L.config.version < w.version ∧
      ∀ e : Second × Config, (L.queue .admin).pending Empty.mk = some e →
        e.2.version < w.version := by
  obtain ⟨-, -, -, hsupersedes, hpending⟩ := hpermits
  obtain ⟨p, t', hp⟩ := hw
  by_cases hparty : p = r.admin.identity
  · subst hparty
    rw [QueueState.votes_record_self, Option.some_inj, Prod.mk.injEq] at hp
    obtain ⟨-, rfl⟩ := hp
    exact ⟨hsupersedes.version_lt, hpending⟩
  · rw [QueueState.votes_record_of_ne _ _ _ _ _ fun h ↦ hparty h.2] at hp
    exact hL.vote p _ hp

theorem VersionOrdered.casts (hL : L.VersionOrdered) {now : Time} {action : Action}
    (hpermits : L.Permits now action) (h : L.Casts now action L') : L'.VersionOrdered := by
  cases action with
  | observe o =>
    have hadmin := Cast.queue_of_ne h (p := .admin) (by decide)
    obtain ⟨Q, rfl⟩ := Cast.frame h
    refine hL.of_queue rfl ?_ ?_ <;> simp only [hadmin, imp_self, implies_true]
  | reconfigure r =>
    have hcast : L.Cast .admin Empty.mk r.admin.identity now.second r.config L' := h
    have hconfig : L'.config = L.config := by
      obtain ⟨Q, rfl⟩ := hcast.frame
      rfl
    rcases hcast.outcome with ⟨rfl, -⟩ | ⟨w, o, hw, rfl, ho⟩
    · -- nothing has a quorum: only the recorded vote is new, and it has been checked
      refine ⟨fun e he ↦ ?_, fun p e he ↦ ?_⟩
      · rw [queue_record, QueueState.pending_record] at he
        exact hL.pending e he
      · rw [queue_record] at he ⊢
        exact hL.lt_of_supporter hpermits ⟨p, e.1, he⟩
    · -- the votes are gone, and a new pending config was voted for
      obtain ⟨hlt, -⟩ := hL.lt_of_supporter hpermits hw.1
      refine ⟨fun e he ↦ ?_, fun p e he ↦ ?_⟩
      · rw [hconfig]
        rw [queue_setPending, QueueState.pending_setPending_self] at he
        rcases ho with ho | ho | ⟨ho, -⟩
        · exact hL.pending e (ho.symm.trans he)
        · cases ho.symm.trans he
        · obtain rfl := Option.some.inj (ho.symm.trans he)
          exact hlt
      · rw [queue_setPending, queue_clear, QueueState.votes_setPending,
          QueueState.votes_clear_self] at he
        cases he

theorem VersionOrdered.begins (hL : L.VersionOrdered) {request : FinalizeBlock}
    (h : L.Begins request L') : L'.VersionOrdered := by
  obtain ⟨D, -, hqueue⟩ := h.queue .admin
  refine hL.of_queue h.config (fun e he ↦ ?_) fun p e he ↦ ?_
  · rwa [hqueue, QueueState.pending_expire] at he
  · rw [hqueue] at he
    exact ((QueueState.votes_expire_eq_some _ _ _).mp he).1

theorem IsGenesis.versionOrdered (h : L.IsGenesis) : L.VersionOrdered := by
  obtain ⟨_, _, _, rfl⟩ := h
  exact ⟨fun _ he ↦ (by cases he), fun _ _ he ↦ (by cases he)⟩

section

variable [Host]

/-- Promotion: the pending config was newer than the one in force, and older than the votes. -/
theorem VersionOrdered.configPromotion (hL : L.VersionOrdered) (hsound : L.Sound) {now : Time}
    (h : L.ConfigPromotion now L') :
    L'.VersionOrdered ∧ (L'.config ≠ L.config → L.config.version < L'.config.version) := by
  rcases h.outcome hsound with rfl | ⟨t, c, hpending, -, hadmin, -, -, hconfig⟩
  · exact ⟨hL, fun hne ↦ absurd rfl hne⟩
  · have hlt : L.config.version < c.version := hL.pending _ hpending
    rw [if_neg (UInt32.not_le.mpr hlt)] at hconfig
    refine ⟨⟨fun e he ↦ ?_, fun p e he ↦ ?_⟩, fun _ ↦ hconfig ▸ hlt⟩
    · rw [hadmin] at he
      exact absurd rfl ((QueueState.pending_promote_eq_some _ _).mp he).2
    · rw [hadmin, QueueState.votes_promote] at he
      refine ⟨hconfig ▸ (hL.vote p e he).2 _ hpending, fun e' he' ↦ ?_⟩
      rw [hadmin] at he'
      exact absurd rfl ((QueueState.pending_promote_eq_some _ _).mp he').2

theorem VersionOrdered.ends (hL : L.VersionOrdered) (hsound : L.Sound) {now : Time}
    (h : L.Ends now L') :
    L'.VersionOrdered ∧ (L'.config ≠ L.config → L.config.version < L'.config.version) := by
  obtain ⟨L₁, D, hpromotion, -, hconfig, hadmin, -⟩ := h.outcome
  obtain ⟨hordered, hlt⟩ := hL.configPromotion hsound hpromotion
  rw [hconfig]
  refine ⟨hordered.of_queue hconfig ?_ ?_, hlt⟩ <;> simp only [hadmin, imp_self, implies_true]

theorem VersionOrdered.step (hL : L.VersionOrdered) (hsound : L.Sound) {e : Event}
    (h : L.Step e L') : L'.VersionOrdered := by
  cases h with
  | begin _ hbegins => exact hL.begins hbegins
  | accept _ _ hpermits hcasts => exact hL.casts hpermits hcasts
  | refuse => exact hL
  | finish _ hends => exact (hL.ends hsound hends).1

/-- The config in force is only ever replaced by a newer one. -/
theorem VersionOrdered.config_step (hL : L.VersionOrdered) (hsound : L.Sound) {e : Event}
    (h : L.Step e L') (hne : L'.config ≠ L.config) : L.config.version < L'.config.version := by
  cases h with
  | begin _ hbegins => exact absurd hbegins.config hne
  | accept _ _ _ hcasts =>
    obtain ⟨Q, rfl⟩ := hcasts.frame
    exact absurd rfl hne
  | refuse => exact absurd rfl hne
  | finish _ hends => exact (hL.ends hsound hends).2 hne

/-- The pending config is only ever replaced by a newer one. -/
theorem VersionOrdered.pending_step (hL : L.VersionOrdered) (hsound : L.Sound) {e : Event}
    (h : L.Step e L') {c c' : Second × Config}
    (hc : (L.queue .admin).pending Empty.mk = some c)
    (hc' : (L'.queue .admin).pending Empty.mk = some c') (hne : c' ≠ c) :
    c.2.version < c'.2.version := by
  have hsame : (L'.queue .admin).pending Empty.mk = (L.queue .admin).pending Empty.mk →
      c.2.version < c'.2.version := fun heq ↦
    absurd (Option.some.inj (hc'.symm.trans (heq.trans hc))) hne
  cases h with
  | begin _ hbegins =>
    obtain ⟨D, -, hqueue⟩ := hbegins.queue .admin
    exact hsame (by rw [hqueue, QueueState.pending_expire])
  | @accept _ _ action _ _ _ hpermits hcasts =>
    cases action with
    | observe o => exact hsame (by rw [Cast.queue_of_ne hcasts (p := .admin) (by decide)])
    | reconfigure r =>
      have hcast : L.Cast .admin Empty.mk r.admin.identity _ r.config L' := hcasts
      -- whoever supports the winner has been checked against the config that was pending
      rcases hcast.pending_self with heq | hnone | ⟨w, hw, hpending, -⟩
      · exact hsame heq
      · cases hnone.symm.trans hc'
      · obtain rfl := Option.some.inj (hpending.symm.trans hc')
        exact (hL.lt_of_supporter hpermits hw.1).2 c hc
  | refuse => exact hsame rfl
  | finish _ hends =>
    obtain ⟨L₁, D, hpromotion, -, -, hadmin, -⟩ := hends.outcome
    rw [hadmin] at hc' hsame
    rcases hpromotion.outcome hsound with rfl | ⟨t, c, hpending, -, hadmin, -⟩
    · exact hsame rfl
    · rw [hadmin] at hc'
      exact absurd rfl ((QueueState.pending_promote_eq_some _ _).mp hc').2

end

end Ledger

section Runs

variable [Host] [LawfulHost]

theorem LedgerHistory.versionOrdered {h : List (Moment Ledger Event)} {L : Ledger}
    (hist : LedgerHistory h L) : L.VersionOrdered :=
  (hist.invariant (P := fun L ↦ L.Sound ∧ L.VersionOrdered)
    (fun _ hinit ↦ ⟨hinit.sound, hinit.versionOrdered⟩)
    fun _ _ _ hL hstep ↦ ⟨hL.1.step hstep, hL.2.step hL.1 hstep⟩).2

/-- What the order of versions comes to in a run. -/
structure VersionsIncrease (ms : List (Moment Store Event)) (h : List (Moment Ledger Event))
    (L : Ledger) : Prop where
  ordered : L.VersionOrdered ∧ ∀ m ∈ h, m.before.VersionOrdered ∧ m.after.VersionOrdered
  pending_increases : ∀ m ∈ h, ∀ e e' : Second × Config,
    (m.before.queue .admin).pending Empty.mk = some e →
      (m.after.queue .admin).pending Empty.mk = some e' → e' ≠ e → e.2.version < e'.2.version
  config_increases : ∀ m ∈ h, m.after.config ≠ m.before.config →
    m.before.config.version < m.after.config.version
  /-- Whatever a block promotes is newer than the config in force then. -/
  not_skipped : ∀ m ∈ ms, m.event = .finish → ∀ config queue configs t,
    State.config m.before = .ok config → State.adminVoting m.before = .ok queue →
      queue.promotePendingChanges m.before = (.ok configs, t) →
        ∀ e ∈ configs, config.version < e.2.version
  /-- A reconfiguration that is not newer than the config in force is refused. -/
  no_replay : ∀ m ∈ h, ∀ order r result, m.event = .act order (.reconfigure r) result →
    r.config.version ≤ m.before.config.version →
      (∃ e, result = .error e) ∧ m.after = m.before

/-- In every run the versions increase. -/
theorem Run.versionsIncrease {genesis : InitChain} {requests : List FinalizeBlock}
    {ms : List (Moment Store Event)} {s : Store} (hrun : Run genesis requests ms s) :
    ∃ h L, Shown ms s h L ∧ VersionsIncrease ms h L := by
  obtain ⟨h, L, hshown⟩ := hrun.exists_shown
  have hist := hshown.history
  have hbefore : ∀ m ∈ h, m.before.Sound ∧ m.before.VersionOrdered := fun m hm ↦ by
    obtain ⟨newer, older, rfl⟩ := List.append_of_mem hm
    exact ⟨LedgerHistory.sound hist.split.1, LedgerHistory.versionOrdered hist.split.1⟩
  refine ⟨h, L, hshown, ⟨hist.versionOrdered, fun m hm ↦ ?_⟩, fun m hm e e' he he' ↦ ?_,
    fun m hm ↦ ?_, fun m hm hfinish config queue configs t hconfig hqueue hpromote e he ↦ ?_,
    fun m hm order r result hevent hle ↦ ?_⟩
  · obtain ⟨hsound, hordered⟩ := hbefore m hm
    exact ⟨hordered, hordered.step hsound (hist.step_of_mem hm)⟩
  · obtain ⟨hsound, hordered⟩ := hbefore m hm
    exact hordered.pending_step hsound (hist.step_of_mem hm) he he'
  · obtain ⟨hsound, hordered⟩ := hbefore m hm
    exact hordered.config_step hsound (hist.step_of_mem hm)
  · obtain ⟨M, hM, hshow⟩ := hshown.exists_of_mem hm
    obtain ⟨hsound, hordered⟩ := hbefore M hM
    have hstep := hist.step_of_mem hM
    rw [← hshow.event, hfinish] at hstep
    obtain ⟨now, htime⟩ : ∃ now, M.before.time = some now := by
      cases hstep with
      | finish htime _ => exact ⟨_, htime⟩
    obtain rfl := Except.ok.inj (hshow.before.config.symm.trans hconfig)
    obtain rfl := Except.ok.inj (hshow.before.adminVoting.symm.trans hqueue)
    -- what is promoted was pending, and so newer than what is in force
    obtain ⟨es, t', hes, -, hpending, -⟩ :=
      hshow.before.promotePendingChanges hsound .admin htime
    obtain rfl := Except.ok.inj (Prod.mk.inj (hpromote.symm.trans hes)).1
    obtain ⟨x, hx, rfl⟩ := List.mem_map.mp he
    have hx := (hpending x hx).1
    rw [Subsingleton.elim x.2.1 Empty.mk] at hx
    exact hordered.pending _ hx
  · have hstep := hist.step_of_mem hm
    rw [hevent] at hstep
    obtain ⟨before, event, after⟩ := m
    cases hstep with
    | accept _ _ hpermits _ =>
      obtain ⟨-, -, -, hsupersedes, -⟩ := hpermits
      exact absurd hsupersedes.version_lt (UInt32.not_lt.mpr hle)
    | refuse => exact ⟨⟨_, rfl⟩, rfl⟩

end Runs

namespace Reference

/-- A run with two changes of the config. -/
theorem versionsIncrease_shrinking :
    ∃ ms s, Run genesis shrinking ms s ∧ ∃ h L, Shown ms s h L ∧ VersionsIncrease ms h L := by
  obtain ⟨ms, s, -, hrun⟩ := exists_run isSome_exec_shrinking
  exact ⟨ms, s, hrun, Run.versionsIncrease hrun⟩

end Reference

end Felidae
