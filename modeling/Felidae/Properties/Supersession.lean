import Felidae.Chain.Quorums
import Felidae.Properties.Versions

/-!
# Configs against the ones they replace

`check_config` compares a proposed config with the one in force when it is voted for. It still
passes when it replaces another one, unless that one has come into force since, and with a lower
quorum: then votes that were checked against the old config may decide without a new one.
-/

open Classical

namespace Felidae

namespace Ledger

/-- No config with a quorum of votes has a lower limit than the config in force. -/
def QuorumsGuarded (L : Ledger) : Prop :=
  ∀ c : Config, (L.queue .admin).HasQuorum L.config.admins.voting.quorum Empty.mk c →
    L.config.oracles.maxEnrolledSubdomains ≤ c.oracles.maxEnrolledSubdomains

/-- Neither has the config that is pending. -/
structure Guarded (L : Ledger) : Prop where
  quorums : L.QuorumsGuarded
  pending : ∀ t (c : Config), (L.queue .admin).pending Empty.mk = some (t, c) →
    L.config.oracles.maxEnrolledSubdomains ≤ c.oracles.maxEnrolledSubdomains

variable {L L' : Ledger}

/-- What wins has been checked against the config in force, or had a quorum already. -/
theorem Guarded.casts (hL : L.Guarded) {now : Time} {action : Action}
    (hpermits : L.Permits now action) (h : L.Casts now action L') : L'.Guarded := by
  have hconfig : L'.config = L.config := by
    obtain ⟨Q, rfl⟩ := h.frame
    rfl
  cases action with
  | observe o =>
    have hadmin := Cast.queue_of_ne h (by decide : QueueId.admin ≠ .oracle)
    exact ⟨fun c hc ↦ by rw [hconfig, hadmin] at *; exact hL.quorums c hc,
      fun t c hc ↦ by rw [hconfig, hadmin] at *; exact hL.pending t c hc⟩
  | reconfigure r =>
    have hcast : L.Cast .admin Empty.mk r.admin.identity now.second r.config L' := h
    refine ⟨fun c hc ↦ absurd (hconfig ▸ hc) (hcast.settled c), fun t c hc ↦ ?_⟩
    rw [hconfig]
    rcases hcast.pending_self with hsame | hnone | ⟨w, hw, hpending, -⟩
    · exact hL.pending t c (hsame ▸ hc)
    · cases hnone.symm.trans hc
    · obtain ⟨-, rfl⟩ := Prod.mk.inj (Option.some.inj (hpending.symm.trans hc))
      rcases hasQuorum_of_record (q := .admin) (by rwa [queue_record]) with rfl | hbefore
      · exact hpermits.2.2.2.1.max_le
      · exact hL.quorums w hbefore

variable [Host]

/-- A step that does not change the config, or after which the quorums are guarded again. -/
theorem Guarded.step (hL : L.Guarded) (hsound : L.Sound) {e : Event} (h : L.Step e L')
    (hputs : L'.config ≠ L.config → L'.QuorumsGuarded) : L'.Guarded := by
  cases h with
  | begin _ hbegins =>
    obtain ⟨D, -, hqueue⟩ := hbegins.queue .admin
    refine ⟨fun c hc ↦ ?_, fun t c hc ↦ ?_⟩
    · rw [hbegins.config, hqueue] at *
      exact hL.quorums c (hc.mono (QueueState.supporters_expire_subset D))
    · rw [hbegins.config]
      rw [hqueue, QueueState.pending_expire] at hc
      exact hL.pending t c hc
  | accept _ _ hpermits hcasts => exact hL.casts hpermits hcasts
  | refuse => exact hL
  | finish htime hends =>
    have hstep : L.Step .finish L' := .finish htime hends
    obtain ⟨D, hqueue⟩ := hends.queue .admin
    by_cases hconfig : L'.config = L.config
    · refine ⟨fun c hc ↦ ?_, fun t c hc ↦ ?_⟩
      · rw [hconfig, hqueue] at *
        exact hL.quorums c hc
      · rw [hconfig]
        rw [hqueue] at hc
        exact hL.pending t c ((QueueState.pending_promote_eq_some _ _).mp hc).1
    · obtain ⟨-, t, now, -, -, -, hnone, -⟩ := (hstep.config hsound).resolve_left hconfig
      exact ⟨hputs hconfig, fun t c hc ↦ by cases hnone.symm.trans hc⟩

omit [Host] in
theorem IsGenesis.guarded (h : L.IsGenesis) : L.Guarded := by
  obtain ⟨_, _, _, rfl⟩ := h
  refine ⟨?_, fun t c hc ↦ by cases hc⟩
  rintro c ⟨⟨p, t, hp⟩, -⟩
  cases hp

end Ledger

section Runs

variable [Host] [LawfulHost] {h : List (Moment Ledger Event)} {L : Ledger}

/-- The quorums stay guarded as long as they are whenever a config is put in force. -/
theorem LedgerHistory.guarded (hist : LedgerHistory h L)
    (hputs : ∀ m ∈ h, PutsInForce m → m.after.QuorumsGuarded) : L.Guarded := by
  induction hist with
  | start hinit => exact hinit.guarded
  | next hist hstep ih =>
    exact (ih fun m hm ↦ hputs m (List.mem_cons_of_mem _ hm)).step (LedgerHistory.sound hist) hstep
      fun hne ↦ hputs _ List.mem_cons_self hne

/-- Where the quorums are guarded, a config that is put in force passes the checks against the one
it replaces. -/
theorem LedgerHistory.supersedes (hist : LedgerHistory h L) {m : Moment Ledger Event} (hm : m ∈ h)
    (hputs : ∀ m ∈ h, PutsInForce m → m.after.QuorumsGuarded) (hforce : PutsInForce m) :
    m.after.config.Supersedes m.before.config := by
  obtain ⟨newer, older, rfl⟩ := List.append_of_mem hm
  obtain ⟨hbefore, hstep⟩ := hist.split
  have hsound : m.before.Sound := LedgerHistory.sound hbefore
  have hguarded := LedgerHistory.guarded hbefore fun x hx ↦
    hputs x (List.mem_append_right _ (List.mem_cons_of_mem _ hx))
  obtain ⟨-, t, now, -, hpending, -⟩ := (hstep.config hsound).resolve_left hforce
  exact ⟨(LedgerHistory.versionOrdered hbefore).config_step hsound hstep hforce,
    LedgerHistory.checked_of_pending hbefore hpending, hguarded.pending t _ hpending⟩

/-- In every run in which no config that is put in force leaves a quorum of votes for one with a
lower limit, every config that is put in force passes the checks against the one it replaces, and
the limit never decreases. -/
theorem Run.supersedes_of_guarded {genesis : InitChain} {requests : List FinalizeBlock}
    {ms : List (Moment Store Event)} {s : Store} (hrun : Run genesis requests ms s) :
    ∃ h L, Shown ms s h L ∧
      ((∀ m ∈ h, PutsInForce m → m.after.QuorumsGuarded) →
        ∀ m ∈ h, (PutsInForce m → m.after.config.Supersedes m.before.config) ∧
          m.before.config.oracles.maxEnrolledSubdomains
            ≤ m.after.config.oracles.maxEnrolledSubdomains) := by
  obtain ⟨h, L, hshown⟩ := hrun.exists_shown
  refine ⟨h, L, hshown, fun hputs m hm ↦ ?_⟩
  have hsupersedes := LedgerHistory.supersedes hshown.history hm hputs
  refine ⟨hsupersedes, ?_⟩
  by_cases hforce : PutsInForce m
  · exact (hsupersedes hforce).max_le
  · rw [not_not.mp hforce]
    exact UInt64.le_refl _

end Runs

namespace Reference

/-- A config is put in force with a lower limit than the one it replaces. -/
def lowersLimit (m : Moment Store Event) : Bool :=
  match State.config m.before, State.config m.after with
  | .ok c, .ok c' =>
    decide (c'.oracles.maxEnrolledSubdomains < c.oracles.maxEnrolledSubdomains)
  | _, _ => false

theorem of_lowersLimit {m : Moment Store Event} (h : lowersLimit m = true)
    {M : Moment Ledger Event} (hshow : Shows m M) :
    PutsInForce M ∧ M.after.config.oracles.maxEnrolledSubdomains
      < M.before.config.oracles.maxEnrolledSubdomains := by
  simp only [lowersLimit, hshow.before.config, hshow.after.config, decide_eq_true_iff] at h
  refine ⟨fun heq ↦ ?_, h⟩
  rw [heq] at h
  exact UInt64.lt_irrefl _ h

/-- In the third block a config is put in force that had its votes under an older one, with a lower
limit than the one it replaces. -/
theorem not_supersedes_shrinking : ∃ ms s, Run genesis shrinking ms s ∧ ∃ h L, Shown ms s h L ∧
    ∃ m ∈ h, PutsInForce m ∧ m.after.config.oracles.maxEnrolledSubdomains
      < m.before.config.oracles.maxEnrolledSubdomains := by
  obtain ⟨ms, s, hrun, hany⟩ := exists_run_of_any genesis reversed shrinking
    (fun r ↦ r.1.any lowersLimit) (by decide +kernel)
  obtain ⟨m, hm, hlowers⟩ := List.any_eq_true.mp hany
  obtain ⟨h, L, hshown⟩ := hrun.exists_shown
  obtain ⟨M, hM, hshow⟩ := hshown.exists_of_mem hm
  exact ⟨ms, s, hrun, h, L, hshown, M, hM, of_lowersLimit hlowers hshow⟩

/-- A config is put in force in place of one with a version. -/
def renewsConfig (m : Moment Store Event) : Bool :=
  match State.config m.before, State.config m.after with
  | .ok c, .ok c' => decide (c' ≠ c) && decide (0 < c.version)
  | _, _ => false

theorem of_renewsConfig {m : Moment Store Event} (h : renewsConfig m = true)
    {M : Moment Ledger Event} (hshow : Shows m M) :
    PutsInForce M ∧ 0 < M.before.config.version := by
  simp only [renewsConfig, hshow.before.config, hshow.after.config, Bool.and_eq_true,
    decide_eq_true_iff] at h
  exact h

/-- Two configs are put in force, both when there are no votes; the second has a higher limit. -/
theorem supersedes_of_guarded_superseding : ∃ ms s, Run genesis superseding ms s ∧ ∃ h L,
    Shown ms s h L ∧ (∃ m ∈ h, PutsInForce m ∧ 0 < m.before.config.version) ∧
      (∀ m ∈ h, PutsInForce m → m.after.QuorumsGuarded) ∧
      ∀ m ∈ h, (PutsInForce m → m.after.config.Supersedes m.before.config) ∧
        m.before.config.oracles.maxEnrolledSubdomains
          ≤ m.after.config.oracles.maxEnrolledSubdomains := by
  obtain ⟨ms, s, hrun, htest⟩ := exists_run_of_any genesis listed superseding
    (fun r ↦ r.1.any renewsConfig && r.1.all quiet) (by decide +kernel)
  obtain ⟨hrenews, hquiet⟩ := Bool.and_eq_true_iff.mp htest
  obtain ⟨h, L, hshown, hsupersedes⟩ := Run.supersedes_of_guarded hrun
  have hputs : ∀ m ∈ h, PutsInForce m → m.after.QuorumsGuarded := fun m hm hforce c hc ↦
    absurd hc (Ledger.not_hasQuorum_of_votes_eq_none
      (votes_eq_none_of_quiet hshown hquiet hm hforce .admin) _)
  obtain ⟨m, hm, hrenews⟩ := List.any_eq_true.mp hrenews
  obtain ⟨M, hM, hshow⟩ := hshown.exists_of_mem hm
  exact ⟨ms, s, hrun, h, L, hshown, ⟨M, hM, of_renewsConfig hrenews hshow⟩, hputs,
    hsupersedes hputs⟩

end Reference

end Felidae
