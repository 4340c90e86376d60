import Felidae.Chain.Outcomes
import Felidae.Properties.Pending

/-!
# Timers of pending observations

A winner that equals the pending change of its domain leaves it alone, so that its timer is not
reset. But the values that are compared hold the zone along with the hash: a winner with the hash
that is pending, observed under another zone, replaces the pending change and starts its timer
again, or is dropped along with it.
-/

namespace Felidae

section State

variable [Host]

/-- At this moment, the end of a block, the pending observation of a domain becomes canonical. -/
structure CarriedOver (m : Moment Store Event) (d : PrefixOrderDomain) (t : Second)
    (v : OracleVoteValue) : Prop where
  event : m.event = .finish
  pending : HasPending .oracle d t v m.before
  gone : HasNoPending .oracle d m.after
  canonical : State.canonicalHash d.toDomain m.after = .ok v.hashObserved.hash?

/-- A pending observation keeps its time until it is promoted, as long as the values that win for
its domain have its hash. -/
def KeepsTimers (ms : List (Moment Store Event)) : Prop :=
  ∀ later x between m older, ms = later ++ x :: (between ++ m :: older) →
    ∀ d t v, HasPending .oracle d t v m.after →
      (∀ y ∈ x :: between, ∀ now out w, outcomeAt y = some (d, now, out) →
        out.winner? = some w → w.hashObserved = v.hashObserved) →
      (∃ y ∈ x :: between, ∃ w, w.hashObserved = v.hashObserved ∧ CarriedOver y d t w) ∨
        ∃ w, w.hashObserved = v.hashObserved ∧ HasPending .oracle d t w x.after

/-- The limit check passes the value once the pending change of its domain is deleted. -/
def AdmitsInstead (d : PrefixOrderDomain) (t : Second) (w : OracleVoteValue) (s : Store) : Prop :=
  ∃ queue, State.oracleVoting s = .ok queue ∧
    queue.withinSubdomainLimit (QueueKey.toText d) w
      (queue.deletePending (QueueKey.toText d) t.toTime s) = .ok true

/-- A value that wins with the hash that is pending for its domain names the zone that is pending,
or wins in the very second the pending change was made in and is within the limit. -/
def NamesZones (ms : List (Moment Store Event)) : Prop :=
  ∀ x ∈ ms, ∀ d now out w t v, outcomeAt x = some (d, now, out) → out.winner? = some w →
    HasPending .oracle d t v x.before → w.hashObserved = v.hashObserved →
    w.zone = v.zone ∨ now.second = t ∧ AdmitsInstead d t w x.before

end State

section Ledger

open Classical

variable [Host] {s : Store} {L L' : Ledger} {d : PrefixOrderDomain} {t : Second}
  {v w : OracleVoteValue}

omit [Host] in
/-- Whether a value may become pending does not depend on the votes. -/
theorem Ledger.admits_congr (hpending : (L'.queue .oracle).pending = (L.queue .oracle).pending)
    (hcanonical : L'.canonical = L.canonical) (hconfig : L'.config = L.config) {q : QueueId}
    (k : q.Key) (w : q.Value) : L'.Admits q k w ↔ L.Admits q k w := by
  cases q with
  | admin => exact Iff.rfl
  | oracle =>
    rw [Ledger.Admits, Ledger.Admits, Ledger.WithinLimit, Ledger.WithinLimit, Ledger.enrolled,
      Ledger.enrolled, hpending, hcanonical, hconfig]

theorem HasPending.unique {t' : Second} (h : HasPending .oracle d t v s)
    (h' : HasPending .oracle d t' w s) : t = t' ∧ v = w := by
  have hlist := Except.ok.inj ((h State.defaultConfig).symm.trans (h' State.defaultConfig))
  obtain ⟨htime, hvalue⟩ := Prod.mk.inj (List.cons.inj hlist).1
  exact ⟨Second.toTime_injective htime, hvalue⟩

variable [LawfulHost]

theorem Represents.admitsInstead_iff (hs : Represents s L) (hL : L.Sound)
    (hp : (L.queue .oracle).pending d = some (t, v))
    (hfits : FQDN.ProperAncestor w.zone.name d.name) :
    AdmitsInstead d t w s ↔ (L.setPending .oracle d none).Admits .oracle d w := by
  obtain ⟨r, hrun, hr⟩ := hs.deletePending .oracle L.config d
  rw [hp] at hrun
  have hdelete : (QueueId.oracle.queue L.config).deletePending (QueueKey.toText d) t.toTime s = r :=
    (Prod.mk.inj hrun).2
  have hwithin := hr.withinSubdomainLimit (hL.setPending (q := .oracle) d fun _ he ↦ by cases he)
    .oracle L.config hfits
  constructor
  · rintro ⟨queue, hqueue, hok⟩
    obtain rfl := Except.ok.inj (hs.oracleVoting.symm.trans hqueue)
    rw [hdelete, hwithin] at hok
    exact of_decide_eq_true (Except.ok.inj hok)
  · intro hadmits
    refine ⟨_, hs.oracleVoting, ?_⟩
    rw [hdelete, hwithin, decide_eq_true hadmits]

end Ledger

namespace Ledger

open Classical

variable {L L' : Ledger} {q : QueueId} {k : q.Key} {party : Bytes} {t t' : Second}
  {v v' : q.Value} {out : Outcome q.Value}

/-- Recording and clearing votes leaves the pending changes. -/
theorem admits_setPending_clear_record (o : Option (Second × q.Value)) (w : q.Value) :
    (((L.record q k party t v).clear q k).setPending q k o).Admits q k w ↔
      (L.setPending q k o).Admits q k w := by
  cases q with
  | admin => exact Iff.rfl
  | oracle =>
    refine admits_congr (L := L.setPending .oracle k o) ?_ (by rfl) (by rfl) k w
    rw [queue_setPending, queue_setPending, queue_clear, queue_record]
    rfl

/-- How a cast treats what is pending for its key: it stays, if nothing wins or the very same
value; otherwise it is replaced, if the limit admits the winner, or goes. -/
theorem CastEnds.pending_cases (h : L.CastEnds q k party t' v' out L')
    (hp : (L.queue q).pending k = some (t, v)) :
    ((∀ w, out.winner? = some w → w = v) ∧ (L'.queue q).pending k = some (t, v)) ∨
      ∃ w, out.winner? = some w ∧ w ≠ v ∧
        ((L.record q k party t' v').queue q).HasQuorum (q.voting L.config).quorum k w ∧
        ((L.setPending q k none).Admits q k w ∧ (L'.queue q).pending k = some (t', w) ∨
          ¬(L.setPending q k none).Admits q k w ∧ (L'.queue q).pending k = none) := by
  have hp₀ : (((L.record q k party t' v').clear q k).queue q).pending k = some (t, v) := by
    rw [queue_clear, queue_record]
    exact hp
  cases h with
  | waiting =>
    refine .inl ⟨fun w hw ↦ (by cases hw), ?_⟩
    rw [queue_record]
    exact hp
  | won hwin henqueue =>
    cases henqueue with
    | unchanged hsame =>
      refine .inl ⟨fun w hw ↦ ?_, hp₀⟩
      rw [← Option.some.inj hw]
      exact (Prod.mk.inj (Option.some.inj (hsame.symm.trans hp₀))).2
    | dropped hpending hover =>
      rw [admits_setPending_clear_record] at hover
      refine .inr ⟨_, rfl, fun heq ↦ hpending t (heq ▸ hp₀), hwin, .inr ⟨hover, ?_⟩⟩
      rw [queue_setPending, QueueState.pending_setPending_self]
    | enqueued hpending hadmits =>
      rw [admits_setPending_clear_record] at hadmits
      refine .inr ⟨_, rfl, fun heq ↦ hpending t (heq ▸ hp₀), hwin, .inl ⟨hadmits, ?_⟩⟩
      rw [queue_setPending, QueueState.pending_setPending_self]

end Ledger

section Runs

variable [Host] [LawfulHost] {genesis : InitChain} {requests : List FinalizeBlock}
  {ms : List (Moment Store Event)} {s : Store} {x : Moment Store Event} {d : PrefixOrderDomain}
  {t : Second} {v : OracleVoteValue}

/-- What an accepted observation does to what is pending for its domain. -/
theorem Run.pending_of_outcomeAt (hrun : Run genesis requests ms s) (hx : x ∈ ms) {now : Time}
    {out : Outcome OracleVoteValue} (hout : outcomeAt x = some (d, now, out))
    (hp : HasPending .oracle d t v x.before) :
    ((∀ w, out.winner? = some w → w = v) ∧ HasPending .oracle d t v x.after) ∨
      ∃ w, out.winner? = some w ∧ w ≠ v ∧
        (AdmitsInstead d t w x.before ∧ HasPending .oracle d now.second w x.after ∨
          ¬AdmitsInstead d t w x.before ∧ HasNoPending .oracle d x.after) := by
  obtain ⟨h, L, hshown⟩ := hrun.exists_shown
  obtain ⟨L₀, L₁, party, v', hs, hL, -, ht, hL', hfits, hends⟩ := hshown.castEnds hrun hx hout
  have hp₀ := (hs.hasPending_iff hL).mp hp
  rcases hends.pending_cases hp₀ with ⟨hsame, hkept⟩ | ⟨w, hw, hne, hquorum, hcase⟩
  · exact .inl ⟨hsame, (ht.hasPending_iff hL').mpr hkept⟩
  · -- the winner is a vote for the domain, so its zone is above it
    have hrecord := hL.record (q := .oracle) (OracleVoteValue.clean v') hfits party now.second
    obtain ⟨p, t', hvote⟩ := hquorum.1
    have hfits' : FQDN.ProperAncestor w.zone.name d.name :=
      hrecord.vote_fits .oracle d p (t', w) hvote
    rw [← hs.admitsInstead_iff hL hp₀ hfits', ← ht.hasNoPending_iff hL',
      ← ht.hasPending_iff hL'] at hcase
    exact .inr ⟨w, hw, hne, hcase⟩

/-- Nothing else does anything to it, but for the end of a block. -/
theorem Run.pending_step (hrun : Run genesis requests ms s) (hx : x ∈ ms)
    (hp : HasPending .oracle d t v x.before) :
    HasPending .oracle d t v x.after ∨ CarriedOver x d t v ∨
      ∃ now out, outcomeAt x = some (d, now, out) := by
  obtain ⟨h, L, hshown⟩ := hrun.exists_shown
  obtain ⟨X, hX, hshow⟩ := hshown.exists_of_mem hx
  obtain ⟨newer, older, rfl⟩ := List.append_of_mem hX
  have hist := hshown.history
  obtain ⟨hstart, hstep⟩ := hist.split
  obtain ⟨before, event, after⟩ := X
  have hL : before.Sound := LedgerHistory.sound hstart
  have hL' : after.Sound := hL.step hstep
  have hp₀ := (hshow.before.hasPending_iff hL).mp hp
  have hkept : (after.queue .oracle).pending d = (before.queue .oracle).pending d →
      HasPending .oracle d t v x.after := fun hsame ↦
    (hshow.after.hasPending_iff hL').mpr (hsame.trans hp₀)
  cases hstep with
  | begin _ hbegins =>
    obtain ⟨D, -, hqueue⟩ := hbegins.queue .oracle
    exact .inl (hkept (by rw [hqueue, QueueState.pending_expire]))
  | @accept _ order action now _ _ _ hcasts =>
    rcases hcasts.queue_cases .oracle with hsame | ⟨d', party, v', hvotes, hcast⟩
    · exact .inl (hkept (by rw [hsame]))
    -- only a vote for the domain itself has an outcome for it
    · by_cases hd : d = d'
      · subst hd
        cases hvotes with
        | observe o => exact .inr (.inr (hrun.exists_outcomeAt hx hshow.event))
      · exact .inl (hkept (hcast.pending_of_ne hd))
  | refuse => exact .inl (hkept rfl)
  | finish htime hends =>
    rcases Ledger.Step.canonical (.finish htime hends) hL d with ⟨t', w, hpromoted⟩ | ⟨-, hsame⟩
    · obtain ⟨rfl, rfl⟩ := Prod.mk.inj (Option.some.inj (hpromoted.pending.symm.trans hp₀))
      refine .inr (.inl ⟨hshow.event, hp, (hshow.after.hasNoPending_iff hL').mpr
        hpromoted.removed, ?_⟩)
      exact (hshow.after.canonicalHash d).trans (congrArg Except.ok hpromoted.canonical)
    · exact .inl (hkept (hsame rfl))

/-- What is pending at a moment was pending after the moment before. -/
theorem Run.exists_pending_after {later older : List (Moment Store Event)}
    (hrun : Run genesis requests (later ++ x :: older) s) (hp : HasPending .oracle d t v x.before) :
    ∃ m older', older = m :: older' ∧ HasPending .oracle d t v m.after := by
  obtain ⟨h, L, hshown⟩ := hrun.exists_shown
  obtain ⟨hlater, X, holder, rfl, -, hX, hback⟩ := exists_split_of_forall₂ hshown.moments
  have hstart := hshown.history.split.1
  have hL : X.before.Sound := LedgerHistory.sound hstart
  have hp₀ := (hX.before.hasPending_iff hL).mp hp
  generalize X.before = before at hstart hp₀ hL
  cases hstart with
  | start hinit =>
    obtain ⟨_, _, _, rfl⟩ := hinit
    cases hp₀
  | next _ _ =>
    cases hback with
    | cons hM _ => exact ⟨_, _, rfl, (hM.after.hasPending_iff hL).mpr hp₀⟩

/-- If the winners name the zones that are pending, the timers keep: this is what every moment
does to what is pending for one domain. -/
theorem Run.keepsTimers (hrun : Run genesis requests ms s) (hnames : NamesZones ms) :
    KeepsTimers ms := by
  rintro later x between m older rfl d t v hp hwins
  by_cases hcarried : ∃ y ∈ x :: between, ∃ w, w.hashObserved = v.hashObserved ∧
      CarriedOver y d t w
  · exact .inl hcarried
  refine .inr ?_
  obtain ⟨h, L, hshown⟩ := hrun.exists_shown
  obtain ⟨hlater, X, hback, rfl, -, hX, hrest⟩ := exists_split_of_forall₂ hshown.moments
  obtain ⟨hbetween, M, holder, rfl, hmiddle, hM, -⟩ := exists_split_of_forall₂ hrest
  have hist : LedgerHistory ((X :: hbetween) ++ M :: holder) X.after := hshown.history.upTo
  have hsound : ∀ Y ∈ (X :: hbetween) ++ M :: holder, Y.before.Sound ∧ Y.after.Sound := fun Y hY ↦
    LedgerHistory.sound_of_mem hist hY
  have hXsound := (hsound X List.mem_cons_self).2
  have hMsound := (hsound M (List.mem_append_right _ List.mem_cons_self)).2
  suffices hlast : ∃ w : OracleVoteValue, w.hashObserved = v.hashObserved ∧
      (X.after.queue .oracle).pending d = some (t, w) by
    obtain ⟨w, hw, hlast⟩ := hlast
    exact ⟨w, hw, (hX.after.hasPending_iff hXsound).mpr hlast⟩
  -- every moment in between keeps the time and the hash, though not always the zone
  refine hist.kept (P := fun L ↦ ∃ w : OracleVoteValue, w.hashObserved = v.hashObserved ∧
    (L.queue .oracle).pending d = some (t, w))
    ⟨v, rfl, (hM.after.hasPending_iff hMsound).mp hp⟩ ?_
  rintro Y hY ⟨w, hw, hpY⟩
  obtain ⟨hYbefore, hYafter⟩ := hsound Y (List.mem_append_left _ hY)
  obtain ⟨y, hy, hshow⟩ := exists_of_mem_forall₂ (List.Forall₂.cons hX hmiddle).flip hY
  have hpy := (hshow.before.hasPending_iff hYbefore).mpr hpY
  have hmem : y ∈ later ++ x :: (between ++ m :: older) :=
    List.mem_append_right _ (List.mem_append_left (m :: older) hy)
  have hkept : ∀ {w'}, w'.hashObserved = v.hashObserved → HasPending .oracle d t w' y.after →
      ∃ w : OracleVoteValue, w.hashObserved = v.hashObserved ∧
        (Y.after.queue .oracle).pending d = some (t, w) :=
    fun hw' hafter ↦ ⟨_, hw', (hshow.after.hasPending_iff hYafter).mp hafter⟩
  rcases hrun.pending_step hmem hpy with hafter | hover | ⟨now, out, hout⟩
  · exact hkept hw hafter
  · exact absurd ⟨y, hy, w, hw, hover⟩ hcarried
  · rcases hrun.pending_of_outcomeAt hmem hout hpy with ⟨-, hafter⟩ | ⟨w', hwin, hne, hcase⟩
    · exact hkept hw hafter
    · have hw' := hwins y hy now out w' hout hwin
      -- a winner with the same hash names the same zone, or is admitted in the place of the old one
      rcases hnames y hmem d now out w' t w hout hwin hpy (hw'.trans hw.symm) with hzone |
        ⟨rfl, hadmits⟩
      · exact absurd (congrArg₂ OracleVoteValue.mk (hw'.trans hw.symm) hzone) hne
      · rcases hcase with ⟨-, hafter⟩ | ⟨hover, -⟩
        · exact hkept hw' hafter
        · exact absurd hadmits hover

/-- The winner with the hash that is pending has to name the zone that is pending. -/
theorem Run.namesZones (hrun : Run genesis requests ms s) (hkeeps : KeepsTimers ms) :
    NamesZones ms := by
  intro x hx d now out w t v hout hw hp hhash
  rcases hrun.pending_of_outcomeAt hx hout hp with ⟨hsame, -⟩ | ⟨w', hw', hne, hcase⟩
  · exact .inl (by rw [hsame w hw])
  obtain rfl := Option.some.inj (hw.symm.trans hw')
  refine .inr ?_
  obtain ⟨later, back, rfl⟩ := List.append_of_mem hx
  obtain ⟨m, older, rfl, hpm⟩ := hrun.exists_pending_after hp
  have hwins : ∀ y ∈ [x], ∀ now out w, outcomeAt y = some (d, now, out) →
      out.winner? = some w → w.hashObserved = v.hashObserved := by
    intro y hy now' out' w' hout' hw'
    obtain rfl := List.mem_singleton.mp hy
    obtain ⟨-, h⟩ := Prod.mk.inj (Option.some.inj (hout.symm.trans hout'))
    obtain ⟨-, rfl⟩ := Prod.mk.inj h
    obtain rfl := Option.some.inj (hw.symm.trans hw')
    exact hhash
  rcases hkeeps later x [] m older rfl d t v hpm hwins with ⟨y, hy, _, -, hover⟩ | ⟨_, -, hafter⟩
  · obtain rfl := List.mem_singleton.mp hy
    obtain ⟨order, o, _, hevent, -⟩ := outcomeAt_eq_some.mp hout
    cases hover.event.symm.trans hevent
  · rcases hcase with ⟨hadmits, hafter'⟩ | ⟨-, hnone⟩
    · exact ⟨(hafter'.unique hafter).1, hadmits⟩
    · exact absurd hnone hafter.not_hasNoPending

/-- In every run the timers keep exactly if every value that wins with the hash that is pending for
its domain names the zone that is pending, or replaces it within the limit in the same second. -/
theorem Run.keepsTimers_iff_namesZones (hrun : Run genesis requests ms s) :
    KeepsTimers ms ↔ NamesZones ms :=
  ⟨hrun.namesZones, hrun.keepsTimers⟩

end Runs

namespace Reference

/-- A domain is observed, and ten seconds later again, under the name below its zone. -/
def delaying : List FinalizeBlock :=
  [blockAt 3 30 [observeNarrowByAlice], blockAt 2 20 [observeByAlice], blockAt 1 10 [foundDelayed]]

/-- What is pending for the domain. -/
def pendingAt (s : Store) : Option (List (Time × OracleVoteValue)) :=
  ((QueueId.oracle.queue State.defaultConfig).pendingUnder (QueueKey.toText www) s).toOption

theorem pendingUnder_of_pendingAt {s : Store} {es : List (Time × OracleVoteValue)}
    (h : pendingAt s = some es) (c : Config) :
    (QueueId.oracle.queue c).pendingUnder (QueueKey.toText www) s = .ok es :=
  except_toOption_eq_some.mp h

theorem hasPending_of_pendingAt {s : Store} {t : Second} {v : OracleVoteValue}
    (h : pendingAt s = some [(t.toTime, v)]) : HasPending .oracle www t v s :=
  pendingUnder_of_pendingAt h

/-- Of the last moments of a run: the domain has something pending after the first one, and after
the last one the same hash, with a later time; it wins at the last one and nothing does before. -/
def resets : List (Moment Store Event) → Bool
  | _ :: x :: b :: f :: m :: _ =>
    match outcomeAt x, pendingAt m.after with
    | some (_, _, .enqueued w), some [(t, v)] =>
      decide (t = timeAt 20) && decide (v.hashObserved = w.hashObserved) &&
        decide (pendingAt x.after = some [(timeAt 30, w)]) &&
        [b, f].all fun y ↦ decide (outcomeAt y = none) && decide (pendingAt y.after ≠ some [])
    | _, _ => false
  | _ => false

theorem not_carriedOver_of_pendingAt {m : Moment Store Event} {t : Second} {v : OracleVoteValue}
    (h : pendingAt m.after ≠ some []) : ¬CarriedOver m www t v := fun hover ↦ by
  refine h ?_
  rw [pendingAt, hover.gone State.defaultConfig]
  rfl

theorem not_keepsTimers_of_resets {ms : List (Moment Store Event)} (h : resets ms = true) :
    ¬KeepsTimers ms := by
  unfold resets at h
  split at h
  next last x b f m older =>
    split at h
    next d now w t v hout hpending =>
      simp only [Bool.and_eq_true, decide_eq_true_iff, List.all_eq_true] at h
      obtain ⟨⟨⟨rfl, hhash⟩, hafter⟩, hothers⟩ := h
      have hbefore : HasPending .oracle www (timeAt 20).second v m.after :=
        hasPending_of_pendingAt hpending
      have hreset : HasPending .oracle www (timeAt 30).second w x.after :=
        hasPending_of_pendingAt hafter
      -- nothing but the observation wins, and its value has the hash that is pending
      have hwins : ∀ y ∈ [x, b, f], ∀ now out w', outcomeAt y = some (www, now, out) →
          out.winner? = some w' → w'.hashObserved = v.hashObserved := by
        intro y hy now out w' hout' hw'
        rcases List.mem_cons.mp hy with rfl | hy
        · obtain ⟨-, h⟩ := Prod.mk.inj (Option.some.inj (hout.symm.trans hout'))
          obtain ⟨-, rfl⟩ := Prod.mk.inj h
          exact Option.some.inj hw' ▸ hhash.symm
        · cases (hothers y hy).1.symm.trans hout'
      intro hkeeps
      rcases hkeeps [last] x [b, f] m older rfl www _ v hbefore hwins with
        ⟨y, hy, w', -, hover⟩ | ⟨w', -, hkept⟩
      · rcases List.mem_cons.mp hy with rfl | hy
        · exact hreset.not_hasNoPending hover.gone
        · exact not_carriedOver_of_pendingAt (hothers y hy).2 hover
      · exact absurd (hkept.unique hreset).1 (by decide)
    next => cases h
  next => cases h

/-- Observed again under another zone, the hash is pending with a later time. -/
theorem not_keepsTimers_delaying : ∃ ms s, Run genesis delaying ms s ∧ ¬KeepsTimers ms := by
  obtain ⟨ms, s, hrun, hresets⟩ := exists_run_of_any genesis listed delaying
    (fun r ↦ resets r.1) (by decide +kernel)
  exact ⟨ms, s, hrun, not_keepsTimers_of_resets hresets⟩

/-- A domain is observed, and ten seconds later once more in the same way. -/
def repeating : List FinalizeBlock := blockAt 3 30 [observeByAlice] :: awaiting

/-- A value that wins at this moment with the hash that is pending names the zone that is. -/
def namesZone (x : Moment Store Event) : Bool :=
  match outcomeAt x with
  | some (d, _, out) =>
    match out.winner?, (QueueId.oracle.queue State.defaultConfig).pendingUnder
        (QueueKey.toText d) x.before with
    | some w, .ok [(_, v)] => decide (w.hashObserved = v.hashObserved → w.zone = v.zone)
    | _, _ => true
  | none => true

theorem namesZones_of_namesZone {ms : List (Moment Store Event)} (h : ms.all namesZone = true) :
    NamesZones ms := by
  intro x hx d now out w t v hout hw hpending hhash
  have hnames := List.all_eq_true.mp h x hx
  simp only [namesZone, hout, hw, hpending State.defaultConfig, decide_eq_true_iff] at hnames
  exact .inl (hnames hhash)

/-- The pending value has a quorum again. -/
def confirms (x : Moment Store Event) : Bool :=
  match outcomeAt x with
  | some (_, _, .unchanged _) => true
  | _ => false

theorem exists_unchanged_of_confirms {x : Moment Store Event} (h : confirms x = true) :
    ∃ d now w, outcomeAt x = some (d, now, .unchanged w) := by
  rw [confirms] at h
  split at h
  next d now w hout => exact ⟨d, now, w, hout⟩
  next => cases h

/-- There is a second quorum for the value that is pending, and the timers keep. -/
theorem keepsTimers_iff_namesZones_repeating : ∃ ms s, Run genesis repeating ms s ∧
    (∃ x ∈ ms, ∃ d now w, outcomeAt x = some (d, now, .unchanged w)) ∧ NamesZones ms ∧
      KeepsTimers ms := by
  obtain ⟨ms, s, hrun, htest⟩ := exists_run_of_any genesis listed repeating
    (fun r ↦ r.1.any confirms && r.1.all namesZone) (by decide +kernel)
  obtain ⟨hconfirms, hnames⟩ := Bool.and_eq_true_iff.mp htest
  obtain ⟨x, hx, hconfirms⟩ := List.any_eq_true.mp hconfirms
  have hnames := namesZones_of_namesZone hnames
  exact ⟨ms, s, hrun, ⟨x, hx, exists_unchanged_of_confirms hconfirms⟩, hnames,
    (Run.keepsTimers_iff_namesZones hrun).mpr hnames⟩

end Reference

end Felidae
