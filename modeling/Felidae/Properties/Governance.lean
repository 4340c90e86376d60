import Felidae.Chain.Provenance
import Felidae.Reference

/-!
# Reachable quorums

`check_voting_config` compares a quorum with the length of a list of identities, while the tally
counts every identity once. So a config that repeats an identity may ask for more votes than there
are parties. A quorum can be reached exactly if no more entries are repetitions than the quorum
leaves of the list.
-/

namespace Felidae

/-- Enough different identities are authorized to reach a quorum, and there is one at least. -/
def VotingConfig.Reachable (v : VotingConfig) (identities : List Bytes) : Prop :=
  v.quorum.toNat ≤ identities.toFinset.card ∧ 1 ≤ identities.toFinset.card

/-- As many entries as are repetitions of others can be spared by the quorum. -/
def VotingConfig.Spares (v : VotingConfig) (identities : List Bytes) : Prop :=
  identities.length - identities.dedup.length ≤ v.total.toNat - v.quorum.toNat

/-- Both quorums can be reached. -/
structure Config.Governable (c : Config) : Prop where
  admins : c.admins.voting.Reachable (c.admins.authorized.map Admin.identity)
  oracles : c.oracles.voting.Reachable (c.oracles.authorized.map Oracle.identity)

/-- Both lists of authorized parties hold no more repetitions than their quorum can spare. -/
structure Config.FewRepetitions (c : Config) : Prop where
  admins : c.admins.voting.Spares (c.admins.authorized.map Admin.identity)
  oracles : c.oracles.voting.Spares (c.oracles.authorized.map Oracle.identity)

theorem VotingConfig.Checked.reachable_iff {v : VotingConfig} {identities : List Bytes}
    (h : v.Checked identities.length) : v.Reachable identities ↔ v.Spares identities := by
  have hle : v.quorum.toNat ≤ identities.length := by
    rw [← h.total_eq]
    exact UInt64.le_iff_toNat_le.mp h.quorum_le
  have hdedup : identities.dedup.length ≤ identities.length :=
    (List.dedup_sublist identities).length_le
  have hpos : 0 < v.quorum.toNat := Nat.pos_of_ne_zero fun h0 ↦
    h.quorum_ne (UInt64.toNat_inj.mp h0)
  rw [Reachable, Spares, h.total_eq, List.card_toFinset]
  omega

/-- For a config that passes the checks, only repetitions keep a quorum from being reached. -/
theorem Config.Checked.governable_iff {c : Config} (h : c.Checked) :
    c.Governable ↔ c.FewRepetitions := by
  have hadmins : c.admins.voting.Checked (c.admins.authorized.map Admin.identity).length := by
    rw [List.length_map]
    exact h.admins
  have horacles : c.oracles.voting.Checked (c.oracles.authorized.map Oracle.identity).length := by
    rw [List.length_map]
    exact h.oracles
  exact ⟨fun hg ↦ ⟨hadmins.reachable_iff.mp hg.admins, horacles.reachable_iff.mp hg.oracles⟩,
    fun hf ↦ ⟨hadmins.reachable_iff.mpr hf.admins, horacles.reachable_iff.mpr hf.oracles⟩⟩

section Runs

variable [Host] [LawfulHost] {h : List (Moment Ledger Event)} {L : Ledger}
  {m : Moment Ledger Event}

/-- A config that is put in force has been voted for, so it has passed the checks. -/
theorem LedgerHistory.checked_of_putsInForce (hist : LedgerHistory h L) (hm : m ∈ h)
    (hputs : PutsInForce m) : m.after.config.Checked := by
  obtain ⟨newer, older, rfl⟩ := List.append_of_mem hm
  have hsound : m.before.Sound := LedgerHistory.sound hist.split.1
  rcases hist.split.2.config hsound with hsame | ⟨-, t, now, -, hpending, -⟩
  · exact absurd hsame hputs
  · exact LedgerHistory.checked_of_pending hist.split.1 hpending

omit [LawfulHost] in
/-- Once a config has been put in force, the one in force is the last one that was. -/
theorem LedgerHistory.exists_putsInForce (hist : LedgerHistory h L)
    (hputs : ∃ x ∈ h, PutsInForce x) : ∃ x ∈ h, PutsInForce x ∧ x.after.config = L.config := by
  induction hist with
  | start => exact absurd hputs (by simp)
  | @next h L L' e hist hstep ih =>
    by_cases hlast : L'.config = L.config
    · obtain ⟨x, hx, hputs⟩ := hputs
      rcases List.mem_cons.mp hx with rfl | hx
      · exact absurd hlast hputs
      · obtain ⟨y, hy, hyputs, hconfig⟩ := ih ⟨x, hx, hputs⟩
        exact ⟨y, List.mem_cons_of_mem _ hy, hyputs, hconfig.trans hlast.symm⟩
    · exact ⟨_, List.mem_cons_self, hlast, rfl⟩

/-- In every run both quorums can be reached ever after the first reconfiguration exactly if no
config that is put in force holds more repetitions than its quorums can spare. -/
theorem Run.governable_iff_fewRepetitions {genesis : InitChain} {requests : List FinalizeBlock}
    {ms : List (Moment Store Event)} {s : Store} (hrun : Run genesis requests ms s) :
    ∃ h L, Shown ms s h L ∧
      ((∀ newer m older, h = newer ++ m :: older → (∃ x ∈ m :: older, PutsInForce x) →
        m.after.config.Governable) ↔
      ∀ m ∈ h, PutsInForce m → m.after.config.FewRepetitions) := by
  obtain ⟨h, L, hshown⟩ := hrun.exists_shown
  have hist := hshown.history
  have hiff : ∀ m ∈ h, PutsInForce m →
      (m.after.config.Governable ↔ m.after.config.FewRepetitions) :=
    fun m hm hputs ↦ (LedgerHistory.checked_of_putsInForce hist hm hputs).governable_iff
  refine ⟨h, L, hshown, fun hall m hm hputs ↦ ?_, ?_⟩
  · obtain ⟨newer, older, rfl⟩ := List.append_of_mem hm
    exact (hiff m hm hputs).mp (hall newer m older rfl ⟨m, List.mem_cons_self, hputs⟩)
  · rintro hfew newer m older rfl hputs
    obtain ⟨x, hx, hxputs, hconfig⟩ := LedgerHistory.exists_putsInForce hist.upTo hputs
    have hmem : x ∈ newer ++ m :: older := List.mem_append_right _ hx
    exact hconfig ▸ (hiff x hmem hxputs).mpr (hfew x hmem hxputs)

end Runs

namespace Reference

/-- The chain is founded with one admin who is listed twice, and two votes to decide. -/
def doubling : List FinalizeBlock := [blockAt 1 10 [foundDoubled]]

/-- Another config is put in force, whose admins are too few for their quorum. -/
def locksOut (m : Moment Store Event) : Bool :=
  match State.config m.before, State.config m.after with
  | .ok c, .ok c' => decide (c' ≠ c) &&
      decide ((c'.admins.authorized.map Admin.identity).dedup.length <
        c'.admins.voting.quorum.toNat)
  | _, _ => false

theorem of_locksOut {m : Moment Store Event} (h : locksOut m = true) {M : Moment Ledger Event}
    (hshow : Shows m M) : PutsInForce M ∧ ¬M.after.config.Governable := by
  simp only [locksOut, hshow.before.config, hshow.after.config, Bool.and_eq_true,
    decide_eq_true_iff] at h
  refine ⟨h.1, fun hgovernable ↦ ?_⟩
  have hle := hgovernable.admins.1
  rw [List.card_toFinset] at hle
  omega

/-- A config is put in force that lists one admin twice and asks for two votes. -/
theorem not_governable_doubling : ∃ ms s, Run genesis doubling ms s ∧ ∃ h L, Shown ms s h L ∧
    ∃ m ∈ h, PutsInForce m ∧ ¬m.after.config.Governable := by
  obtain ⟨ms, s, hrun, hany⟩ := exists_run_of_any genesis listed doubling
    (fun r ↦ r.1.any locksOut) (by decide +kernel)
  obtain ⟨m, hm, hlocks⟩ := List.any_eq_true.mp hany
  obtain ⟨h, L, hshown⟩ := hrun.exists_shown
  obtain ⟨M, hM, hshow⟩ := hshown.exists_of_mem hm
  exact ⟨ms, s, hrun, h, L, hshown, M, hM, of_locksOut hlocks hshow⟩

theorem governable_iff_fewRepetitions_enrolling : ∃ ms s, Run genesis enrolling ms s ∧ ∃ h L,
    Shown ms s h L ∧
      ((∀ newer m older, h = newer ++ m :: older → (∃ x ∈ m :: older, PutsInForce x) →
        m.after.config.Governable) ↔
      ∀ m ∈ h, PutsInForce m → m.after.config.FewRepetitions) := by
  obtain ⟨ms, s, -, hrun⟩ := exists_run isSome_exec_enrolling
  exact ⟨ms, s, hrun, Run.governable_iff_fewRepetitions hrun⟩

end Reference

end Felidae
