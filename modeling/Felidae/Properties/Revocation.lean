import Felidae.Chain.Provenance
import Felidae.Reference

/-!
# Authorization of what is counted

A party is authorized when it casts a vote. The tally runs over whatever is stored by then, and the
promotion of a config does not touch the votes: a vote counts for as long as it is stored, also
when its party has been removed since.
-/

namespace Felidae

/-- The party may vote in a queue. An empty list of admins lets anybody reconfigure. -/
def Config.Authorizes (c : Config) : QueueId → Bytes → Prop
  | .admin, p => c.admins.authorized = [] ∨ p ∈ c.admins.authorized.map Admin.identity
  | .oracle, p => p ∈ c.oracles.authorized.map Oracle.identity

instance (c : Config) : ∀ (q : QueueId) (p : Bytes), Decidable (c.Authorizes q p)
  | .admin, _ => inferInstanceAs (Decidable (_ ∨ _))
  | .oracle, _ => inferInstanceAs (Decidable (_ ∈ _))

variable {q : QueueId} {k : q.Key} {p : Bytes} {t : Second} {v : q.Value}

/-- Whoever casts a vote is authorized by the config in force then. -/
theorem CastAt.authorizes {m : Moment Ledger Event} (h : CastAt m q k p t v) :
    m.before.config.Authorizes q p := by
  obtain ⟨order, action, now, -, -, -, hvotes, hpermits⟩ := h.accepted
  cases hvotes with
  | observe o =>
    obtain ⟨x, hx, hid⟩ := hpermits.1
    exact List.mem_map.mpr ⟨x, hx, hid⟩
  | reconfigure r =>
    exact hpermits.1.imp id fun hmem ↦ List.mem_map.mpr ⟨r.admin, hmem, rfl⟩

section Runs

variable [Host] [LawfulHost] {genesis : InitChain} {requests : List FinalizeBlock}
  {ms : List (Moment Store Event)} {s : Store}

/-- Whenever a cast makes a value pending, every party that is counted for the value has cast the
vote that is counted as its last one for the key, and was authorized by the config in force then. -/
theorem Run.counted_authorized (hrun : Run genesis requests ms s) : ∃ h L, Shown ms s h L ∧
    ∀ newer m older, h = newer ++ m :: older → ∀ (q : QueueId) (k : q.Key) t w,
      EnqueuedAt m q k t w → ∃ party v, CastAt m q k party t v ∧
        ∀ p ∈ ((m.before.queue q).record k party t v).supporters k w,
          ∃ newer' x older' t', m :: older = newer' ++ x :: older' ∧ CastAt x q k p t' w ∧
            x.before.config.Authorizes q p ∧ ∀ y ∈ newer', ∀ t v, ¬CastAt y q k p t v := by
  obtain ⟨h, L, hshown⟩ := hrun.exists_shown
  refine ⟨h, L, hshown, ?_⟩
  rintro newer m older rfl q k t w henqueued
  obtain ⟨party, v, hcast, -⟩ := henqueued.won
  refine ⟨party, v, hcast, ?_⟩
  rintro p ⟨t', hvote⟩
  obtain ⟨newer', x, older', hsplit, hx, hnewer⟩ :=
    LedgerHistory.counted_origin hshown.history hcast hvote
  exact ⟨newer', x, older', t', hsplit, hx, hx.authorizes, hnewer⟩

end Runs

namespace Reference

/-- A config becomes pending that an account has voted for that may not vote any more. -/
def countsRevoked (party : Bytes) (m : Moment Store Event) : Bool :=
  let queue := QueueId.admin.queue State.defaultConfig
  match queue.pendingForKey Empty.mk m.before, queue.pendingForKey Empty.mk m.after with
  | .ok none, .ok (some w) =>
    (State.config m.before).toOption.any (fun c ↦ decide ¬c.Authorizes .admin party) &&
      (queue.votesForKey Empty.mk m.before).toOption.any fun votes ↦
        votes.any fun vote ↦ decide (vote.party = hexEncode party ∧ vote.value = w)
  | _, _ => false

/-- What such a moment shows of the ledger. -/
theorem exists_enqueued_of_countsRevoked {party : Bytes} {m : Moment Store Event}
    (h : countsRevoked party m = true) {M : Moment Ledger Event} (hshow : Shows m M)
    (hstep : M.before.Step M.event M.after) (hsound : M.before.Sound) :
    ∃ t w caster v, EnqueuedAt M .admin Empty.mk t w ∧ CastAt M .admin Empty.mk caster t v ∧
      party ∈ ((M.before.queue .admin).record Empty.mk caster t v).supporters Empty.mk w ∧
      ¬M.before.config.Authorizes .admin party := by
  obtain ⟨es, hes, hmem, -⟩ :=
    hshow.before.votesForKey hsound .admin State.defaultConfig Empty.mk
  rw [countsRevoked] at h
  simp only [hshow.before.pendingForKey hsound, hshow.after.pendingForKey (hsound.step hstep),
    hshow.before.config, hes] at h
  rcases hbefore : (M.before.queue .admin).pending Empty.mk with _ | e <;> rw [hbefore] at h
  · rcases hafter : (M.after.queue .admin).pending Empty.mk with _ | ⟨t, w⟩ <;> rw [hafter] at h
    · cases h
    · obtain ⟨hrevoked, hcounted⟩ := Bool.and_eq_true_iff.mp h
      have hnot : ¬M.before.config.Authorizes .admin party := of_decide_eq_true hrevoked
      obtain ⟨vote, hvote, heq⟩ := List.any_eq_true.mp hcounted
      obtain ⟨e, he, rfl⟩ := List.mem_map.mp hvote
      obtain ⟨hparty, hvalue⟩ := of_decide_eq_true heq
      obtain rfl : e.1 = party := hexEncode_injective hparty
      have henqueued := (hstep.pending hafter).resolve_right fun hno ↦ by
        cases hbefore.symm.trans hno
      obtain ⟨caster, v, hcast, -⟩ := henqueued.won
      -- the one who casts is authorized, so the vote of the other one is still there
      have hne : e.1 ≠ caster := fun heq ↦ hnot (heq ▸ hcast.authorizes)
      refine ⟨t, w, caster, v, henqueued, hcast, ⟨e.2.1, ?_⟩, hnot⟩
      rw [QueueState.votes_record_of_ne _ _ _ _ _ fun h ↦ hne h.2, (hmem e).mp he]
      exact congrArg some (Prod.ext rfl hvalue)
  · cases h

/-- In the second block, Alice is removed from the admins. In the third, the config she had voted
for before that becomes pending by her vote. -/
theorem not_authorized_shrinking : ∃ ms s, Run genesis shrinking ms s ∧ ∃ h L, Shown ms s h L ∧
    ∃ m ∈ h, ∃ t w party v, EnqueuedAt m .admin Empty.mk t w ∧
      CastAt m .admin Empty.mk party t v ∧
      alice ∈ ((m.before.queue .admin).record Empty.mk party t v).supporters Empty.mk w ∧
      ¬m.before.config.Authorizes .admin alice := by
  obtain ⟨ms, s, hrun, hany⟩ := exists_run_of_any genesis reversed shrinking
    (fun r ↦ r.1.any (countsRevoked alice)) (by decide +kernel)
  obtain ⟨m, hm, hcounts⟩ := List.any_eq_true.mp hany
  obtain ⟨h, L, hshown⟩ := hrun.exists_shown
  obtain ⟨M, hM, hshow⟩ := hshown.exists_of_mem hm
  have hsound := (LedgerHistory.sound_of_mem hshown.history hM).1
  exact ⟨ms, s, hrun, h, L, hshown, M, hM,
    exists_enqueued_of_countsRevoked hcounts hshow (hshown.history.step_of_mem hM) hsound⟩

theorem counted_authorized_enrolling : ∃ ms s, Run genesis enrolling ms s ∧ ∃ h L,
    Shown ms s h L ∧ ∀ newer m older, h = newer ++ m :: older → ∀ (q : QueueId) (k : q.Key) t w,
      EnqueuedAt m q k t w → ∃ party v, CastAt m q k party t v ∧
        ∀ p ∈ ((m.before.queue q).record k party t v).supporters k w,
          ∃ newer' x older' t', m :: older = newer' ++ x :: older' ∧ CastAt x q k p t' w ∧
            x.before.config.Authorizes q p ∧ ∀ y ∈ newer', ∀ t v, ¬CastAt y q k p t v := by
  obtain ⟨ms, s, -, hrun⟩ := exists_run isSome_exec_enrolling
  exact ⟨ms, s, hrun, Run.counted_authorized hrun⟩

end Reference

end Felidae
