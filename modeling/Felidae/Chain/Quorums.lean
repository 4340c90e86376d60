import Felidae.Chain.Provenance
import Felidae.Ledger.Entries
import Felidae.Reference

/-!
# Quorums along a history

A value gains supporters only by a cast for it, and after a cast nothing has a quorum under its
key. So while the quorum stays the same, the only value that can have a quorum when the votes are
tallied is the one that was cast. It takes a config that lowers the quorum to let a value have one
without a vote for it.
-/

open Classical

namespace Felidae

namespace QueueState

variable {K V : Type} {Q Q' : QueueState K V} {k : K} {party : Bytes} {t : Second} {v w : V}
  {quorum : UInt64}

theorem HasQuorum.mono (h : Q.HasQuorum quorum k w)
    (hsub : Q.supporters k w ⊆ Q'.supporters k w) : Q'.HasQuorum quorum k w :=
  ⟨h.1.mono hsub, h.2.trans (Set.encard_le_encard hsub)⟩

/-- A vote takes supporters from the other values. -/
theorem supporters_record_subset_of_ne (hne : w ≠ v) :
    (Q.record k party t v).supporters k w ⊆ Q.supporters k w := by
  rintro p ⟨t', hp⟩
  by_cases hparty : p = party
  · subst hparty
    rw [votes_record_self, Option.some_inj, Prod.mk.injEq] at hp
    exact absurd hp.2.symm hne
  · exact ⟨t', by rwa [votes_record_of_ne _ _ _ _ _ fun h ↦ hparty h.2] at hp⟩

/-- It gives at most one supporter to any value. -/
theorem supporters_record_subset_insert :
    (Q.record k party t v).supporters k w ⊆ insert party (Q.supporters k w) := by
  rintro p ⟨t', hp⟩
  by_cases hparty : p = party
  · exact .inl hparty
  · exact .inr ⟨t', by rwa [votes_record_of_ne _ _ _ _ _ fun h ↦ hparty h.2] at hp⟩

theorem supporters_expire_subset (D : Set (Second × K × Bytes)) :
    (Q.expire D).supporters k w ⊆ Q.supporters k w := by
  rintro p ⟨t', hp⟩
  exact ⟨t', ((votes_expire_eq_some _ _ _).mp hp).1⟩

end QueueState

namespace Ledger

/-- Where a value has a quorum, every other value lacks more than one vote for one. -/
def Unrivalled (L : Ledger) : Prop :=
  ∀ (q : QueueId) (k : q.Key) (w w' : q.Value), w ≠ w' →
    (L.queue q).HasQuorum (q.voting L.config).quorum k w →
    ((L.queue q).supporters k w').encard + 1 < ((q.voting L.config).quorum.toNat : ℕ∞)

variable {L L' : Ledger} {q : QueueId} {k : q.Key} {party : Bytes} {t : Second} {v w w' : q.Value}

/-- A value with a quorum in the tally is the one that was cast, or had the quorum before. -/
theorem hasQuorum_of_record
    (h : ((L.record q k party t v).queue q).HasQuorum (q.voting L.config).quorum k w) :
    w = v ∨ (L.queue q).HasQuorum (q.voting L.config).quorum k w := by
  by_cases hne : w = v
  · exact .inl hne
  · rw [queue_record] at h
    exact .inr (h.mono (QueueState.supporters_record_subset_of_ne hne))

/-- One more vote gives no second value a quorum. -/
theorem Unrivalled.decisive (hL : L.Unrivalled) : L.Decisive := by
  have hrival : ∀ (q : QueueId) (k : q.Key) (party : Bytes) (t : Second) (v w w' : q.Value),
      w ≠ w' → (L.queue q).HasQuorum (q.voting L.config).quorum k w →
      ¬((L.record q k party t v).queue q).HasQuorum (q.voting L.config).quorum k w' := by
    intro q k party t v w w' hne hw hw'
    rw [queue_record] at hw'
    refine absurd (hL q k w w' hne hw) (not_lt.mpr (hw'.2.trans ?_))
    exact (Set.encard_le_encard QueueState.supporters_record_subset_insert).trans
      (Set.encard_insert_le _ _)
  intro q k party t v w w' hw hw'
  by_contra hne
  rcases hasQuorum_of_record hw with rfl | hbefore
  · rcases hasQuorum_of_record hw' with heq | hbefore
    · exact hne heq.symm
    · exact hrival q k party t w w' w (Ne.symm hne) hbefore hw
  · exact hrival q k party t v w w' hne hbefore hw'

/-- Fewer votes under the same quorum. -/
theorem Unrivalled.mono (hL : L.Unrivalled) (hconfig : L'.config = L.config)
    (hsub : ∀ (q : QueueId) (k : q.Key),
      (∃ w, (L'.queue q).HasQuorum (q.voting L.config).quorum k w) →
        ∀ w, (L'.queue q).supporters k w ⊆ (L.queue q).supporters k w) : L'.Unrivalled := by
  intro q k w w' hne hw
  rw [hconfig] at hw ⊢
  have hsub := hsub q k ⟨w, hw⟩
  exact (add_le_add_left (Set.encard_le_encard (hsub w')) 1).trans_lt
    (hL q k w w' hne (hw.mono (hsub w)))

theorem Unrivalled.casts (hL : L.Unrivalled) {now : Time} {action : Action}
    (h : L.Casts now action L') : L'.Unrivalled := by
  have hconfig : L'.config = L.config := by
    obtain ⟨Q, rfl⟩ := h.frame
    rfl
  refine hL.mono hconfig fun q k ⟨w, hw⟩ w' ↦ ?_
  rcases h.queue_cases q with hsame | ⟨k', party, v, -, hcast⟩
  · rw [hsame]
  · -- nothing has a quorum under the key of the cast, and the other keys are as before
    have hk : k ≠ k' := by
      rintro rfl
      exact hcast.settled w hw
    rintro p ⟨t', hp⟩
    exact ⟨t', by rwa [hcast.votes_of_ne hk] at hp⟩

theorem Unrivalled.begins (hL : L.Unrivalled) {request : FinalizeBlock}
    (h : L.Begins request L') : L'.Unrivalled := by
  refine hL.mono h.config fun q k _ w' ↦ ?_
  obtain ⟨D, -, hqueue⟩ := h.queue q
  rw [hqueue]
  exact QueueState.supporters_expire_subset D

/-- A step that does not change the config leaves the rivals as far behind as they are. -/
theorem Unrivalled.step [Host] (hL : L.Unrivalled) {e : Event} (h : L.Step e L')
    (hconfig : L'.config = L.config) : L'.Unrivalled := by
  cases h with
  | begin _ hbegins => exact hL.begins hbegins
  | accept _ _ _ hcasts => exact hL.casts hcasts
  | refuse => exact hL
  | finish _ hends =>
    refine hL.mono hconfig fun q k _ w' ↦ ?_
    obtain ⟨D, hqueue⟩ := hends.queue q
    rw [hqueue]
    exact subset_rfl

/-- Where there are no votes, nothing has a quorum. -/
theorem not_hasQuorum_of_votes_eq_none (h : ∀ k p, (L.queue q).votes k p = none)
    (quorum : UInt64) : ¬(L.queue q).HasQuorum quorum k w := by
  rintro ⟨⟨p, t, hp⟩, -⟩
  cases (h k p).symm.trans hp

theorem IsGenesis.unrivalled (h : L.IsGenesis) : L.Unrivalled := by
  obtain ⟨_, _, _, rfl⟩ := h
  exact fun q k w w' _ hw ↦ absurd hw (not_hasQuorum_of_votes_eq_none (fun _ _ ↦ rfl) _)

end Ledger

namespace Reference

/-- If another config is put in force at the moment, no votes are left in the queues. -/
def quiet (m : Moment Store Event) : Bool :=
  decide ((State.config m.before).toOption = (State.config m.after).toOption) ||
    [QueueId.admin, .oracle].all fun q ↦
      decide (((q.queue State.defaultConfig).voteEntries m.after).toOption = some [])

theorem votes_eq_none_of_quiet {ms : List (Moment Store Event)} {s : Store}
    {h : List (Moment Ledger Event)} {L : Ledger} (hshown : Shown ms s h L)
    (hquiet : ms.all quiet = true) {M : Moment Ledger Event} (hM : M ∈ h) (hputs : PutsInForce M)
    (q : QueueId) (k : q.Key) (p : Bytes) : (M.after.queue q).votes k p = none := by
  obtain ⟨m, hm, hshow⟩ := hshown.exists_shows hM
  obtain ⟨newer, older, rfl⟩ := List.append_of_mem hM
  have hsound : M.after.Sound := LedgerHistory.sound hshown.history.upTo
  rcases (Bool.or_eq_true ..).mp (List.all_eq_true.mp hquiet m hm) with hsame | hempty
  · rw [hshow.before.config, hshow.after.config, decide_eq_true_iff] at hsame
    exact absurd (Option.some.inj hsame).symm hputs
  · have hnone := of_decide_eq_true (List.all_eq_true.mp hempty q (by cases q <;> decide))
    exact hshow.after.votes_eq_none q State.defaultConfig hsound
      (except_toOption_eq_some.mp hnone) k p

end Reference

end Felidae
