import Felidae.Chain.Refine
import Felidae.Reference

/-!
# The subdomain limit

As long as all observations at or below a registered domain are made under one zone, the domains
enrolled there are never more than the largest limit that has been in force: a domain is only ever
added when its value becomes pending, and the limit is checked against that very state.
-/

open Classical

namespace Felidae

/-- The largest number of enrolled subdomains allowed by a config that has been in force. -/
def largestLimit : List (Moment Ledger Event) → Ledger → ℕ
  | [], L => L.config.oracles.maxEnrolledSubdomains.toNat
  | m :: h, L => max L.config.oracles.maxEnrolledSubdomains.toNat (largestLimit h m.before)

/-- Observations at or below `r` are only accepted under the zone. -/
def ObservedUnder (r zone : FQDN) : Event → Prop
  | .act _ (.observe o) (.ok _) =>
    o.observation.domain.name.isSubdomainOf r → o.observation.zone.name = zone
  | _ => True

instance (r zone : FQDN) : DecidablePred (ObservedUnder r zone)
  | .act _ (.observe _) (.ok _) => inferInstanceAs (Decidable (_ → _))
  | .act _ (.observe _) (.error _) => isTrue trivial
  | .act _ (.reconfigure _) _ => isTrue trivial
  | .begin _ => isTrue trivial
  | .finish => isTrue trivial

namespace Ledger

variable {L L' : Ledger} {r zone : FQDN}

/-- Votes at or below `r` carry the zone. -/
def VotesUnder (L : Ledger) (r zone : FQDN) : Prop :=
  ∀ k p (e : Second × OracleVoteValue), (L.queue .oracle).votes k p = some e →
    k.name.isSubdomainOf r → e.2.zone.name = zone

/-- Nothing new is enrolled where nothing new is pending or canonical. -/
theorem encard_enrolled_mono (hcanonical : ∀ d, (L'.canonical d).isSome →
      (L.canonical d).isSome ∨ ((L.queue .oracle).pending d).isSome)
    (hpending : ∀ d, ((L'.queue .oracle).pending d).isSome →
      ((L.queue .oracle).pending d).isSome) :
    (L'.enrolled r).encard ≤ (L.enrolled r).encard := by
  refine Set.encard_le_encard fun d hd ↦ ⟨hd.1, ?_⟩
  rcases hd.2 with hd | hd
  · exact .inl (hpending d hd)
  · exact (hcanonical d hd).symm

/-! ## Observations -/

/-- A vote for a domain at or below `r` is a vote under the zone, also after the next one is
recorded. -/
theorem VotesUnder.zone_of_supporter (hL : L.VotesUnder r zone) {k : PrefixOrderDomain}
    {party : Bytes} {t : Second} {v w : OracleVoteValue}
    (hv : k.name.isSubdomainOf r → v.zone.name = zone)
    (hw : (((L.queue .oracle).record k party t v).supporters k w).Nonempty)
    (hk : k.name.isSubdomainOf r) : w.zone.name = zone := by
  obtain ⟨p, t', hp⟩ := hw
  by_cases hparty : p = party
  · subst hparty
    rw [QueueState.votes_record_self, Option.some_inj, Prod.mk.injEq] at hp
    exact hp.2 ▸ hv hk
  · rw [QueueState.votes_record_of_ne _ _ _ _ _ fun h ↦ hparty h.2] at hp
    exact hL k p _ hp hk

theorem VotesUnder.cast (hL : L.VotesUnder r zone) {k : PrefixOrderDomain} {party : Bytes}
    {t : Second} {v : OracleVoteValue} (hv : k.name.isSubdomainOf r → v.zone.name = zone)
    (h : L.Cast .oracle k party t v L') : L'.VotesUnder r zone := by
  intro k' p e he hk'
  rcases h.vote he with ⟨rfl, -, rfl⟩ | ⟨-, he⟩
  · exact hv hk'
  · exact hL k' p e he hk'

/-- A cast enrols at most the domain it is for, and that one within the limit. -/
theorem encard_enrolled_cast (hr : r.depth = zone.depth + 1) {k : PrefixOrderDomain} {party : Bytes}
  {t : Second} {v : OracleVoteValue}
    (hzone : k.name.isSubdomainOf r → ∀ w,
      (((L.queue .oracle).record k party t v).supporters k w).Nonempty → w.zone.name = zone)
    (h : L.Cast .oracle k party t v L') :
    (L'.enrolled r).encard ≤ (L.enrolled r).encard ∨
      (L'.enrolled r).encard ≤ (L.config.oracles.maxEnrolledSubdomains.toNat : ℕ∞) := by
  have hcanonical : L'.canonical = L.canonical := by
    obtain ⟨Q, rfl⟩ := h.frame
    rfl
  have hmono : (((L'.queue .oracle).pending k).isSome → ((L.queue .oracle).pending k).isSome) →
      (L'.enrolled r).encard ≤ (L.enrolled r).encard := fun hself ↦
    encard_enrolled_mono (fun d hd ↦ .inl (by rwa [hcanonical] at hd)) fun d hd ↦ by
      by_cases hdk : d = k
      · exact hdk ▸ hself (hdk ▸ hd)
      · rwa [h.pending_of_ne hdk] at hd
  rcases h.pending_self with hsame | hnone | ⟨w, hw, hpending, -, hadmits⟩
  · exact .inl (hmono fun hd ↦ by rwa [hsame] at hd)
  · exact .inl (hmono fun hd ↦ by rw [hnone] at hd; cases hd)
  -- a new change is admitted by a count without the old one
  · let L₀ := ((L.record .oracle k party t v).clear .oracle k).setPending .oracle k none
    have hpending₀ : ∀ d, d ≠ k → (L₀.queue .oracle).pending d = (L.queue .oracle).pending d := by
      intro d hd
      rw [queue_setPending, QueueState.pending_setPending_of_ne _ _ _ hd, queue_clear,
        QueueState.pending_clear, queue_record, QueueState.pending_record]
    have hsub₀ : L₀.enrolled r ⊆ L.enrolled r := fun d hd ↦ by
      refine ⟨hd.1, hd.2.imp (fun hp ↦ ?_) id⟩
      by_cases hdk : d = k
      · rw [hdk, queue_setPending, QueueState.pending_setPending_self] at hp
        cases hp
      · rwa [hpending₀ d hdk] at hp
    have hinsert : L'.enrolled r ⊆ insert k (L₀.enrolled r) := fun d hd ↦ by
      by_cases hdk : d = k
      · exact .inl hdk
      · refine .inr ⟨hd.1, hd.2.imp (fun hp ↦ ?_) fun hp ↦ ?_⟩
        · rwa [hpending₀ d hdk, ← h.pending_of_ne hdk]
        · rwa [hcanonical] at hp
    by_cases hk : k.name.isSubdomainOf r
    · have hdepth : zone.depth < k.name.depth := by
        have hle : r.depth ≤ k.name.depth := List.IsSuffix.length_le hk
        omega
      rw [Admits, hzone hk w hw.1, FQDN.registered_eq hr hk hdepth] at hadmits
      rcases hadmits with hmem | hle
      · rw [Set.insert_eq_of_mem hmem] at hinsert
        exact .inl (Set.encard_le_encard (hinsert.trans hsub₀))
      · exact .inr ((Set.encard_le_encard hinsert).trans ((Set.encard_insert_le _ _).trans hle))
    · -- the domain is not counted here
      refine .inl (Set.encard_le_encard fun d hd ↦ ?_)
      rcases hinsert hd with rfl | hd
      · exact absurd hd.1 hk
      · exact hsub₀ hd

/-! ## The other steps -/

theorem Begins.encard_enrolled {request : FinalizeBlock} (h : L.Begins request L') :
    (L'.enrolled r).encard ≤ (L.enrolled r).encard := by
  obtain ⟨D, -, hqueue⟩ := h.queue .oracle
  refine encard_enrolled_mono (fun d hd ↦ .inl (by rwa [h.canonical] at hd)) fun d hd ↦ ?_
  rwa [hqueue, QueueState.pending_expire] at hd

theorem Begins.votesUnder {request : FinalizeBlock} (h : L.Begins request L')
    (hL : L.VotesUnder r zone) : L'.VotesUnder r zone := by
  obtain ⟨D, -, hqueue⟩ := h.queue .oracle
  intro k p e he hk
  rw [hqueue] at he
  exact hL k p e ((QueueState.votes_expire_eq_some _ _ _).mp he).1 hk

/-- What a block does to the oracle queue and the canonical state after its transactions: some
pending changes become canonical. -/
theorem Ends.oracle [Host] {now : Time} (h : L.Ends now L') (hL : L.Sound) :
    ∃ D : Set PrefixOrderDomain, L'.queue .oracle = (L.queue .oracle).promote D ∧
      ∀ d, L'.canonical d = if d ∈ D then ((L.queue .oracle).pending d).bind fun e ↦
          HashObserved.hash? (OracleVoteValue.hashObserved e.2)
        else L.canonical d := by
  obtain ⟨L₁, D, hpromotion, -, -, -, hqueue, hcanonical⟩ := h.outcome
  refine ⟨D, ?_⟩
  rcases hpromotion.outcome hL with rfl | ⟨t, c, -, -, -, hsame, hsame', -⟩
  · exact ⟨hqueue, hcanonical⟩
  · rw [hsame] at hqueue hcanonical
    rw [hsame'] at hcanonical
    exact ⟨hqueue, hcanonical⟩

theorem Ends.encard_enrolled [Host] {now : Time} (h : L.Ends now L') (hL : L.Sound) :
    (L'.enrolled r).encard ≤ (L.enrolled r).encard := by
  obtain ⟨D, hqueue, hcanonical⟩ := h.oracle hL
  refine encard_enrolled_mono (fun d hd ↦ ?_) fun d hd ↦ ?_
  · rw [hcanonical] at hd
    by_cases hD : d ∈ D
    · rw [if_pos hD] at hd
      exact .inr (Option.isSome_of_isSome_bind hd)
    · rw [if_neg hD] at hd
      exact .inl hd
  · rw [hqueue] at hd
    obtain ⟨e, he⟩ := Option.isSome_iff_exists.mp hd
    rw [((QueueState.pending_promote_eq_some _ _).mp he).1]
    rfl

/-- A step adds nothing below `r`, or stays within the limit in force. -/
theorem Step.encard_enrolled [Host] (hL : L.Sound) (hvotes : L.VotesUnder r zone)
    (hr : r.depth = zone.depth + 1) {e : Event} (he : ObservedUnder r zone e) (h : L.Step e L') :
    L'.VotesUnder r zone ∧ ((L'.enrolled r).encard ≤ (L.enrolled r).encard ∨
      (L'.enrolled r).encard ≤ (L'.config.oracles.maxEnrolledSubdomains.toNat : ℕ∞)) := by
  cases h with
  | begin _ hbegins => exact ⟨hbegins.votesUnder hvotes, .inl hbegins.encard_enrolled⟩
  | @accept _ _ action _ _ _ _ hcasts =>
    cases action with
    | observe o =>
      have hv : o.observation.domain.name.isSubdomainOf r → o.observation.zone.name = zone := he
      have hconfig : L'.config = L.config := by
        obtain ⟨Q, rfl⟩ := hcasts.frame
        rfl
      rw [hconfig]
      exact ⟨hvotes.cast hv hcasts, encard_enrolled_cast hr
        (fun hk w hw ↦ hvotes.zone_of_supporter hv hw hk) hcasts⟩
    | reconfigure c =>
      have horacle := Cast.queue_of_ne hcasts (p := .oracle) (by decide)
      obtain ⟨Q, rfl⟩ := Cast.frame hcasts
      refine ⟨fun k p e he ↦ hvotes k p e (by rwa [horacle] at he), .inl (encard_enrolled_mono
        (fun d hd ↦ .inl hd) fun d hd ↦ by rwa [horacle] at hd)⟩
  | refuse => exact ⟨hvotes, .inl le_rfl⟩
  | finish _ hends =>
    obtain ⟨D, hqueue, -⟩ := hends.oracle hL
    refine ⟨fun k p e he ↦ hvotes k p e ?_, .inl (hends.encard_enrolled hL)⟩
    rwa [hqueue] at he

end Ledger

/-! ## Runs -/

section Runs

variable [Host] [LawfulHost]

/-- Along a history, what is enrolled stays within the largest limit so far. -/
theorem LedgerHistory.encard_enrolled_le {r zone : FQDN} (hr : r.depth = zone.depth + 1)
    {h : List (Moment Ledger Event)} {L : Ledger} (hist : LedgerHistory h L)
    (hobserved : ∀ m ∈ h, ObservedUnder r zone m.event) :
    L.VotesUnder r zone ∧ (L.enrolled r).encard ≤ (largestLimit h L : ℕ∞) := by
  induction hist with
  | start hinit =>
    obtain ⟨_, _, _, rfl⟩ := hinit
    refine ⟨fun _ _ _ he ↦ (by cases he), ?_⟩
    have hempty : (Ledger.genesis ‹_› ‹_› ‹_›).enrolled r = ∅ :=
      Set.eq_empty_of_forall_notMem fun d hd ↦ by simpa [Ledger.genesis] using hd.2
    rw [hempty, Set.encard_empty]
    exact zero_le
  | @next h L L' e hist hstep ih =>
    obtain ⟨hvotes, hle⟩ := ih fun m hm ↦ hobserved m (List.mem_cons_of_mem _ hm)
    obtain ⟨hvotes', hcase⟩ := hstep.encard_enrolled (LedgerHistory.sound hist) hvotes hr
      (hobserved _ List.mem_cons_self)
    refine ⟨hvotes', ?_⟩
    rw [largestLimit]
    rcases hcase with hmono | hlimit
    · exact (hmono.trans hle).trans (Nat.cast_le.mpr (le_max_right _ _))
    · exact hlimit.trans (Nat.cast_le.mpr (le_max_left _ _))

/-- If all observations accepted at or below a registered domain are made under its zone, the
domains enrolled or about to be there stay within the largest limit so far, in every state of the
run. -/
theorem Run.enrolled_within_limit {genesis : InitChain} {requests : List FinalizeBlock}
    {ms : List (Moment Store Event)} {s : Store} (hrun : Run genesis requests ms s)
    {r zone : FQDN} {label : Label} (hr : r.labels = label :: zone.labels)
    (hobserved : ∀ m ∈ ms, ObservedUnder r zone m.event) :
    ∃ h L, Shown ms s h L ∧
      (L.enrolled r).encard ≤ (largestLimit h L : ℕ∞) ∧
      ∀ newer m older, h = newer ++ m :: older →
        (m.before.enrolled r).encard ≤ (largestLimit older m.before : ℕ∞) := by
  obtain ⟨h, L, hshown⟩ := hrun.exists_shown
  have hdepth : r.depth = zone.depth + 1 := by
    rw [FQDN.depth, hr, List.length_cons, FQDN.depth]
  have hobserved' : ∀ m ∈ h, ObservedUnder r zone m.event := fun M hM ↦ by
    obtain ⟨m, hm, hshow⟩ := hshown.exists_shows hM
    exact hshow.event ▸ hobserved m hm
  refine ⟨h, L, hshown, (hshown.history.encard_enrolled_le hdepth hobserved').2, ?_⟩
  rintro newer m older rfl
  exact (LedgerHistory.encard_enrolled_le hdepth hshown.history.split.1 fun x hx ↦
    hobserved' x (List.mem_append_right _ (List.mem_cons_of_mem _ hx))).2

end Runs

namespace Reference

/-- A run that enrols a domain. -/
theorem encard_enrolled_enrolling : ∃ ms s, Run genesis enrolling ms s ∧ ∃ h L, Shown ms s h L ∧
    (L.enrolled (nameOf "example.com.")).encard ≤ (largestLimit h L : ℕ∞) ∧
    ∀ newer m older, h = newer ++ m :: older →
      (m.before.enrolled (nameOf "example.com.")).encard ≤ (largestLimit older m.before : ℕ∞) := by
  obtain ⟨ms, s, hexec, hrun⟩ := exists_run isSome_exec_enrolling
  have hobserved : ∀ m ∈ ms, ObservedUnder (nameOf "example.com.") com m.event := by
    have hall : ∀ e ∈ (Run.exec genesis (inOrder listed enrolling)).elim []
        fun r ↦ r.1.map Moment.event, ObservedUnder (nameOf "example.com.") com e := by
      decide +kernel
    rw [hexec] at hall
    exact fun m hm ↦ hall _ (List.mem_map_of_mem hm)
  have hlabels : (nameOf "example.com.").labels
      = (nameOf "example.com.").labels.head (by decide) :: com.labels := by
    decide
  exact ⟨ms, s, hrun, Run.enrolled_within_limit hrun hlabels hobserved⟩

end Reference

end Felidae
