import Felidae.Ledger.Actions
import Mathlib.Data.List.ReduceOption

/-!
# Blocks on the ledger

What a block does before and after its transactions. Before: the app hash of the previous block is
recorded, height and time are set, and votes time out in both queues. After: a pending config whose
delay has passed is put in force, then the pending observations whose delay has passed under that
config are carried over into the canonical state.
-/

open Classical

namespace Felidae

namespace Ledger

/-- The validators with power all have ed25519 keys. -/
def Seated [Host] (L : Ledger) : Prop :=
  ∀ pubKey p, L.validators pubKey = some p → 0 < p.value → (Host.fromRawEd25519 pubKey).isSome

/-! ## Before the transactions -/

/-- The app hash of the previous block is recorded, unless there is none. -/
noncomputable def recordRoot (L : Ledger) (root : AppHash) : Ledger :=
  { L with
    appHashes := match L.height with
      | none => L.appHashes
      | some h => if h.value = 0 then L.appHashes
        else Function.update L.appHashes h.pred (some root) }

noncomputable def setBlock (L : Ledger) (height : Height) (time : Time) : Ledger :=
  { L with
    height := some height
    time := some time
    blockTimes := Function.update L.blockTimes height (some time) }

noncomputable def expire (L : Ledger) (q : QueueId) (D : Set (Second × q.Key × Bytes)) : Ledger :=
  L.setQueue q ((L.queue q).expire D)

/-- The votes in `D` time out: they are old enough, and, if the index is in the order of time, no
others are. -/
structure Expiring (L : Ledger) (q : QueueId) (now : Time) (D : Set (Second × q.Key × Bytes)) :
    Prop where
  old : ∀ d ∈ D, (q.voting L.config).timeout ≤ now.ageOf d.1.toTime
  complete : (∀ t k p, ((L.queue q).voteIndex t k p).isSome → 0 ≤ t.secs) →
    ∀ t k p, ((L.queue q).voteIndex t k p).isSome →
      (q.voting L.config).timeout ≤ now.ageOf t.toTime → (t, k, p) ∈ D

/-- What a block does before its transactions. -/
inductive Begins (L : Ledger) (request : FinalizeBlock) : Ledger → Prop where
  | mk (root : AppHash) (D : Set (Second × QueueId.admin.Key × Bytes))
      (E : Set (Second × QueueId.oracle.Key × Bytes))
      (hadmin : ((L.recordRoot root).setBlock request.height request.time).Expiring .admin
        request.time D)
      (horacle : (((L.recordRoot root).setBlock request.height request.time).expire .admin
        D).Expiring .oracle request.time E) :
      Begins L request
        ((((L.recordRoot root).setBlock request.height request.time).expire .admin D).expire
          .oracle E)

section Begins

variable {L L' : Ledger} {request : FinalizeBlock}

/-- The beginning of a block changes the height, the times and the app hashes, and lets votes time
out. -/
theorem Begins.frame (h : L.Begins request L') : ∃ appHashes D E,
    L.Expiring .admin request.time D ∧ L.Expiring .oracle request.time E ∧
    L' = { L with
      appHashes := appHashes
      height := some request.height
      time := some request.time
      blockTimes := Function.update L.blockTimes request.height (some request.time)
      queue := Function.update (Function.update L.queue .admin ((L.queue .admin).expire D)) .oracle
        ((L.queue .oracle).expire E) } := by
  obtain ⟨root, D, E, hD, hE⟩ := h
  have horacle : (((L.recordRoot root).setBlock request.height request.time).expire
      .admin D).queue .oracle = L.queue .oracle := queue_setQueue_of_ne _ (by decide) _
  refine ⟨(L.recordRoot root).appHashes, D, E, ⟨hD.old, hD.complete⟩, ⟨hE.old, ?_⟩, ?_⟩
  · have := hE.complete
    rw [horacle] at this
    exact this
  · rw [expire, horacle]
    rfl

theorem Begins.height (h : L.Begins request L') : L'.height = some request.height := by
  obtain ⟨_, _, _, -, -, rfl⟩ := h.frame
  rfl

theorem Begins.time (h : L.Begins request L') : L'.time = some request.time := by
  obtain ⟨_, _, _, -, -, rfl⟩ := h.frame
  rfl

theorem Begins.validators (h : L.Begins request L') : L'.validators = L.validators := by
  obtain ⟨_, _, _, -, -, rfl⟩ := h.frame
  rfl

theorem Begins.chainId (h : L.Begins request L') : L'.chainId = L.chainId := by
  obtain ⟨_, _, _, -, -, rfl⟩ := h.frame
  rfl

theorem Begins.config (h : L.Begins request L') : L'.config = L.config := by
  obtain ⟨_, _, _, -, -, rfl⟩ := h.frame
  rfl

theorem Begins.canonical (h : L.Begins request L') : L'.canonical = L.canonical := by
  obtain ⟨_, _, _, -, -, rfl⟩ := h.frame
  rfl

/-- Each queue loses the votes that time out. -/
theorem Begins.queue (h : L.Begins request L') (q : QueueId) :
    ∃ D, L.Expiring q request.time D ∧ L'.queue q = (L.queue q).expire D := by
  obtain ⟨_, D, E, hD, hE, rfl⟩ := h.frame
  cases q with
  | admin =>
    exact ⟨D, hD, by simp⟩
  | oracle => exact ⟨E, hE, by simp⟩

end Begins

/-! ## After the transactions -/

noncomputable def promote (L : Ledger) (q : QueueId) (D : Set q.Key) : Ledger :=
  L.setQueue q ((L.queue q).promote D)

@[simp] theorem queue_promote (L : Ledger) (q : QueueId) (D : Set q.Key) :
    (L.promote q D).queue q = (L.queue q).promote D := queue_setQueue ..

theorem queue_promote_of_ne (L : Ledger) {q q' : QueueId} (h : q' ≠ q) (D : Set q.Key) :
    (L.promote q D).queue q' = L.queue q' := queue_setQueue_of_ne _ h _

/-- The changes in `es` are promoted: they are pending and their delay has passed, and, if the index
is in the order of time, they are in that order and there are no others. -/
structure Promoting (L : Ledger) (q : QueueId) (now : Time)
    (es : List (Second × q.Key × q.Value)) : Prop where
  ripe : ∀ e ∈ es, (L.queue q).pending e.2.1 = some (e.1, e.2.2) ∧
    (q.voting L.config).delay ≤ now.ageOf e.1.toTime
  nodup : es.Nodup
  ordered : (∀ k t v, (L.queue q).pending k = some (t, v) → 0 ≤ t.secs) →
    es.Pairwise fun e e' ↦ e.1.secs ≤ e'.1.secs
  complete : (∀ k t v, (L.queue q).pending k = some (t, v) → 0 ≤ t.secs) →
    ∀ k t v, (L.queue q).pending k = some (t, v) →
      (q.voting L.config).delay ≤ now.ageOf t.toTime → (t, k, v) ∈ es

/-- A key has only one pending change. -/
theorem Promoting.nodup_keys {L : Ledger} {q : QueueId} {now : Time}
    {es : List (Second × q.Key × q.Value)} (h : L.Promoting q now es) :
    (es.map fun e ↦ e.2.1).Nodup := by
  refine List.Nodup.map_on (fun e he e' he' hkey ↦ ?_) h.nodup
  have hp := (h.ripe e he).1
  rw [hkey, (h.ripe e' he').1, Option.some_inj, Prod.mk.injEq] at hp
  exact Prod.ext hp.1.symm (Prod.ext hkey hp.2.symm)

/-- A promoted config is put in force if it is newer. -/
def applyConfig (L : Ledger) (c : Config) : Ledger :=
  { L with written := if c.version ≤ L.config.version then L.written else c }

/-- The observations pending for the domains in `D` become canonical. -/
noncomputable def applyObservations (L : Ledger) (D : Set PrefixOrderDomain) : Ledger :=
  { L.promote .oracle D with
    canonical := fun d ↦
      if d ∈ D then
        ((L.queue .oracle).pending d).bind fun e ↦ HashObserved.hash? (OracleVoteValue.hashObserved
          e.2)
      else L.canonical d }

/-- A block puts a pending config in force, or leaves the config as it is. -/
inductive ConfigPromotion (L : Ledger) (now : Time) : Ledger → Prop where
  | kept : ConfigPromotion L now L
  | promoted {t : Second} {c : Config} (hpending : (L.queue .admin).pending Empty.mk = some (t, c))
      (hripe : L.config.admins.voting.delay ≤ now.ageOf t.toTime) :
      ConfigPromotion L now ((L.promote .admin {Empty.mk}).applyConfig c)

namespace ConfigPromotion

variable {L L' : Ledger} {now : Time}

theorem height (h : L.ConfigPromotion now L') : L'.height = L.height := by
  cases h <;> rfl

theorem time (h : L.ConfigPromotion now L') : L'.time = L.time := by
  cases h <;> rfl

theorem validators (h : L.ConfigPromotion now L') : L'.validators = L.validators := by
  cases h <;> rfl

theorem chainId (h : L.ConfigPromotion now L') : L'.chainId = L.chainId := by
  cases h <;> rfl

theorem sound [Host] (h : L.ConfigPromotion now L') (hL : L.Sound) : L'.Sound := by
  cases h with
  | kept => exact hL
  | promoted =>
    obtain ⟨hvotes, hpending, hfits, hindexed⟩ := hL.promote (q := .admin) {Empty.mk}
    exact ⟨hvotes, hpending, hfits, hindexed⟩

end ConfigPromotion

/-- What the promoted configs make of the ledger. -/
inductive Reconfigured (L : Ledger) :
    List (Second × QueueId.admin.Key × Config) → Ledger → Prop where
  | kept : Reconfigured L [] L
  | applied {t : Second} {k : QueueId.admin.Key} {c : Config} :
      Reconfigured L [(t, k, c)] ((L.promote .admin {Empty.mk}).applyConfig c)

theorem Reconfigured.configPromotion {L L' : Ledger} {now : Time}
    {cs : List (Second × QueueId.admin.Key × Config)} (h : L.Reconfigured cs L')
    (hcs : L.Promoting .admin now cs) : L.ConfigPromotion now L' := by
  cases h with
  | kept => exact .kept
  | applied =>
    obtain ⟨hpending, hripe⟩ := hcs.ripe _ List.mem_cons_self
    exact .promoted hpending hripe

/-- What a block does after its transactions. -/
inductive Ends (L : Ledger) (now : Time) : Ledger → Prop where
  | mk {L₁ : Ledger} (hconfig : L.ConfigPromotion now L₁) (D : Set PrefixOrderDomain)
      (hripe : ∀ d ∈ D, ∃ e : Second × OracleVoteValue,
        (L₁.queue .oracle).pending d = some e ∧
          L₁.config.oracles.voting.delay ≤ now.ageOf e.1.toTime) :
      Ends L now (L₁.applyObservations D)

theorem Ends.height {L L' : Ledger} {now : Time} (h : L.Ends now L') : L'.height = L.height := by
  obtain ⟨hconfig, _, -⟩ := h
  exact hconfig.height

theorem Ends.time {L L' : Ledger} {now : Time} (h : L.Ends now L') : L'.time = L.time := by
  obtain ⟨hconfig, _, -⟩ := h
  exact hconfig.time

theorem Ends.validators {L L' : Ledger} {now : Time} (h : L.Ends now L') :
    L'.validators = L.validators := by
  obtain ⟨hconfig, _, -⟩ := h
  exact hconfig.validators

theorem Ends.chainId {L L' : Ledger} {now : Time} (h : L.Ends now L') : L'.chainId = L.chainId := by
  obtain ⟨hconfig, _, -⟩ := h
  exact hconfig.chainId

end Ledger

/-! ## Validators -/

/-- One pass over the validators: a key with power has to be an ed25519 key. -/
theorem State.activeValidator_validatorKey [Host] (pubKey : Bytes) (p : Power) :
    State.activeValidator (State.validatorKey pubKey, p) =
      if 0 < p.value then
        (okOr (Host.fromRawEd25519 pubKey) (.corrupt "invalid ed25519 public key")).map
          fun pubKey ↦ some ⟨pubKey, p⟩
      else .ok none := by
  have hno : ¬"current/validators/".toList <+: hexEncode pubKey := fun hpre ↦
    slash_notMem_hexEncode pubKey (hpre.subset (by decide))
  have htrim : trimStartMatches "current/validators/".toList (State.validatorKey pubKey).length
      (State.validatorKey pubKey) = hexEncode pubKey :=
    trimStartMatches_append (by decide) hno
  rw [State.activeValidator]
  simp only [htrim, hexDecode_hexEncode, okOr_some, except_ok_bind]
  by_cases hpos : 0 < p.value
  · rw [if_pos hpos, if_pos hpos]
    cases Host.fromRawEd25519 pubKey <;> rfl
  · rw [if_neg hpos, if_neg hpos]
    rfl

namespace Represents

variable [Host] [LawfulHost] {s : Store} {L : Ledger}

omit [LawfulHost] in
/-- The stored power of a validator. -/
theorem validatorPower (h : Represents s L) (pubKey : Bytes) :
    Store.get Power .internal (State.validatorKey pubKey) s = .ok (L.validators pubKey) :=
  Laid.get_clean (k := .validator pubKey) h rfl rfl fun p _ ↦ p.clean

/-- What `active_validators` goes through. -/
theorem validatorEntries (h : Represents s L) :
    ∃ es : List (Bytes × Power), (∀ e, e ∈ es ↔ L.validators e.1 = some e.2) ∧
      (Store.scan Power .internal "current/validators/".toList s).untilError
        = es.map fun e ↦ (State.validatorKey e.1, e.2) := by
  obtain ⟨es, hscan, hmem, -⟩ := Laid.exists_scan h
    (p := Substore.internal.prefixed "current/validators/".toList)
    (P := fun e : Bytes × Power ↦ L.validators e.1 = some e.2)
    (k := fun e ↦ .validator e.1) (v := fun e ↦ DomainType.toStored e.2)
    (fun x a hx hpre ↦ by
      obtain ⟨pubKey, rfl⟩ := validators_prefix_iff.mp hpre
      obtain ⟨p, hp, rfl⟩ := Option.map_eq_some_iff.mp hx
      exact ⟨(pubKey, p), hp, rfl, rfl⟩)
    (fun e he ↦ ⟨by rw [Ledger.view, he, Option.map_some], validators_prefix_iff.mpr ⟨_, rfl⟩⟩)
    (fun e e' he he' hkey ↦ by
      have hpub := Key.validator.inj hkey
      rw [hpub, he', Option.some_inj] at he
      exact Prod.ext hpub he.symm)
  have hstream := Laid.scan_eq (V := Power) (p := "current/validators/".toList)
    (n := fun e ↦ State.validatorKey e.1) hscan (fun e _ ↦ e.2.clean) (fun _ ↦ rfl)
  exact ⟨es, hmem, by rw [hstream, Results.untilError_map_ok]⟩

/-- The active validators are those with power. -/
theorem mem_activeValidators (h : Represents s L) {us : List Update}
    (hus : State.activeValidators s = .ok us) {u : Update} :
    u ∈ us ↔ ∃ pubKey, L.validators pubKey = some u.power ∧ 0 < u.power.value ∧
      Host.fromRawEd25519 pubKey = some u.pubKey := by
  obtain ⟨es, hmem, hentries⟩ := h.validatorEntries
  rw [State.activeValidators, hentries] at hus
  obtain ⟨rs, hrs, hus⟩ := except_bind_eq_ok.mp hus
  obtain rfl := Except.ok.inj hus
  have hpass : ∀ e : Bytes × Power,
      State.activeValidator (State.validatorKey e.1, e.2) = .ok (some u) ↔
        0 < u.power.value ∧ Host.fromRawEd25519 e.1 = some u.pubKey ∧ e.2 = u.power := by
    intro e
    rw [State.activeValidator_validatorKey]
    by_cases hpos : 0 < e.2.value
    · rw [if_pos hpos]
      rcases Host.fromRawEd25519 e.1 with _ | pubKey
      · exact iff_of_false (by rintro ⟨⟩) (by rintro ⟨-, ⟨⟩, -⟩)
      · obtain ⟨pubKey', power⟩ := u
        constructor
        · rintro ⟨⟩
          exact ⟨hpos, rfl, rfl⟩
        · rintro ⟨-, ⟨⟩, rfl⟩
          rfl
    · rw [if_neg hpos]
      exact iff_of_false (by rintro ⟨⟩) fun hu ↦ hpos (hu.2.2 ▸ hu.1)
  rw [List.reduceOption_mem_iff, mem_collect_iff hrs]
  constructor
  · rintro ⟨_, ha, hu⟩
    obtain ⟨e, he, rfl⟩ := List.mem_map.mp ha
    obtain ⟨hpos, hraw, hpower⟩ := (hpass e).mp hu
    exact ⟨e.1, hpower ▸ (hmem e).mp he, hpos, hraw⟩
  · rintro ⟨pubKey, hpower, hpos, hraw⟩
    exact ⟨_, List.mem_map.mpr ⟨(pubKey, u.power), (hmem _).mpr hpower, rfl⟩,
      (hpass (pubKey, u.power)).mpr ⟨hpos, hraw, rfl⟩⟩

/-- The validators can be listed exactly if their keys are ed25519 keys. -/
theorem activeValidators (h : Represents s L) :
    (∃ us, State.activeValidators s = .ok us) ↔ L.Seated := by
  obtain ⟨es, hmem, hentries⟩ := h.validatorEntries
  rw [State.activeValidators, hentries]
  constructor
  · rintro ⟨us, hus⟩ pubKey p hp hpos
    obtain ⟨rs, hrs, -⟩ := except_bind_eq_ok.mp hus
    obtain ⟨u, hu⟩ := exists_collect_iff.mp ⟨rs, hrs⟩ _
      (List.mem_map.mpr ⟨(pubKey, p), (hmem _).mpr hp, rfl⟩)
    by_contra hnone
    rw [State.activeValidator_validatorKey, if_pos hpos, Option.not_isSome_iff_eq_none.mp hnone,
      okOr_none] at hu
    cases hu
  · intro hseated
    obtain ⟨us, hus⟩ := (exists_collect_iff (f := State.activeValidator)
      (l := es.map fun e ↦ (State.validatorKey e.1, e.2))).mpr fun a ha ↦ by
        obtain ⟨e, he, rfl⟩ := List.mem_map.mp ha
        rw [State.activeValidator_validatorKey]
        by_cases hpos : 0 < e.2.value
        · obtain ⟨pubKey, hpub⟩ :=
            Option.isSome_iff_exists.mp (hseated e.1 e.2 ((hmem e).mp he) hpos)
          exact ⟨_, by rw [if_pos hpos, hpub]; rfl⟩
        · exact ⟨_, if_neg hpos⟩
    exact ⟨us.reduceOption, by rw [hus]; rfl⟩

/-! ## Before the transactions -/

theorem timeoutExpiredVotes (h : Represents s L) (q : QueueId) {now : Time}
    (htime : L.time = some now) :
    ∃ D t, (q.queue L.config).timeoutExpiredVotes s = (.ok (), t) ∧
      Represents t (L.expire q D) ∧ L.Expiring q now D := by
  obtain ⟨D, hold, hD, hcomplete⟩ := h.oldVotes q L.config now
  have hloop := Exec.forEach_modify (ε := Fault)
    (fun e : Time × Str × Str ↦ (q.queue L.config).deleteVote e.2.1 e.2.2 e.1)
    (fun d : Second × q.Key × Bytes ↦ (d.1.toTime, QueueKey.toText d.2.1, hexEncode d.2.2)) D s
  have hnow : State.blockTime s = .ok now := by rw [h.blockTime, htime, okOr_some]
  refine ⟨{d | d ∈ D}, _, ?_, h.deleteVotes q L.config D, fun d hd ↦ (hD d hd).2, hcomplete⟩
  rw [VoteQueue.timeoutExpiredVotes, Exec.read_bind_of_ok hnow, Exec.read_bind_of_ok hold]
  exact hloop

/-- A loop that only reads. -/
theorem tombstoneValidators (h : Represents s L) (hseated : L.Seated) (addresses : List Bytes) :
    Exec.forEach State.tombstoneValidator addresses s = (.ok (), s) := by
  obtain ⟨us, hus⟩ := h.activeValidators.mpr hseated
  induction addresses with
  | nil => rfl
  | cons a l ih =>
    have hone : State.tombstoneValidator a s = (.ok (), s) := by
      rw [State.tombstoneValidator, Exec.read_bind_of_ok hus]
      cases us.find? fun u ↦ State.validatorAddress u.pubKey = a <;> rfl
    rw [Exec.forEach, Exec.bind_of_ok hone, ih]

theorem recordPrevious (h : Represents s L) :
    ∃ t root, State.recordPrevious s = (.ok (), t) ∧ Represents t (L.recordRoot root) := by
  have hread := h.blockHeight
  rcases hheight : L.height with _ | height
  · have hroot : L.recordRoot [] = L :=
      congrArg (fun f ↦ ({ L with appHashes := f } : Ledger)) (by rw [hheight])
    refine ⟨s, [], ?_, by rwa [hroot]⟩
    rw [State.recordPrevious, hread, hheight, okOr_none]
  · rw [hheight, okOr_some] at hread
    by_cases hzero : height.value = 0
    · have hroot : L.recordRoot [] = L :=
        congrArg (fun f ↦ ({ L with appHashes := f } : Ledger)) (by simp [hheight, hzero])
      refine ⟨s, [], ?_, by rwa [hroot]⟩
      simp only [State.recordPrevious, hread, if_pos hzero]
    · obtain ⟨t, hrecord, ht⟩ :=
        h.recordAppHash hheight (Nat.pos_of_ne_zero hzero) (Host.rootHash s.verifiable)
      refine ⟨t, Host.rootHash s.verifiable, ?_, ?_⟩
      · simp only [State.recordPrevious, hread, if_neg hzero]
        exact hrecord
      · have hroot : L.recordRoot (Host.rootHash s.verifiable) = { L with
            appHashes := Function.update L.appHashes height.pred
              (some (Host.rootHash s.verifiable)) } :=
          congrArg (fun f ↦ ({ L with appHashes := f } : Ledger)) (by simp [hheight, hzero])
        rwa [hroot]

/-- Everything before the transactions, on a store that represents a ledger whose validators have
ed25519 keys. -/
theorem beginBlock (h : Represents s L) (hseated : L.Seated) (request : FinalizeBlock) :
    ∃ t L', (State.recordPrevious >>= fun _ ↦ State.beginBlock request) s = (.ok (), t) ∧
      Represents t L' ∧ L.Begins request L' := by
  obtain ⟨s₁, root, hrecord, h₁⟩ := h.recordPrevious
  have hseated₁ : (L.recordRoot root).Seated := hseated
  obtain ⟨us, hus⟩ := h₁.activeValidators.mpr hseated₁
  obtain ⟨s₂, hheight, h₂⟩ := h₁.setBlockHeight request.height
  obtain ⟨s₃, htime, h₃⟩ := h₂.setBlockTime rfl request.time
  obtain ⟨D, s₄, hexpire, h₄, hD⟩ := h₃.timeoutExpiredVotes .admin rfl
  obtain ⟨E, s₅, hexpire', h₅, hE⟩ := h₄.timeoutExpiredVotes .oracle rfl
  refine ⟨s₅, _, ?_, h₅, .mk root D E hD hE⟩
  have hmark : State.markValidatorsVoted (State.votingValidators request.votes) s₁
      = (.ok (), s₁) := by
    rw [State.markValidatorsVoted, Exec.read_bind_of_ok hus]
    rfl
  rw [Exec.bind_of_ok hrecord, State.beginBlock, Exec.bind_of_ok hmark,
    Exec.bind_of_ok (h₁.tombstoneValidators hseated₁ _), Exec.bind_of_ok hheight,
    Exec.bind_of_ok htime, Exec.read_bind_of_ok h₃.adminVoting]
  refine (Exec.bind_of_ok hexpire).trans ?_
  rw [Exec.read_bind_of_ok h₄.oracleVoting]
  exact hexpire'

/-! ## After the transactions -/

/-- Promotion removes changes whose delay has passed, and hands them on. -/
theorem promotePendingChanges (h : Represents s L) (hL : L.Sound) (q : QueueId) {now : Time}
    (htime : L.time = some now) :
    ∃ (es : List (Second × q.Key × q.Value)) (t : Store),
      (q.queue L.config).promotePendingChanges s = (.ok (es.map Prod.snd), t) ∧
      Represents t (L.promote q {k | ∃ e ∈ es, e.2.1 = k}) ∧ L.Promoting q now es := by
  obtain ⟨es, hripe, hes, hnodup, hcomplete⟩ := h.ripePending hL q L.config now
  have hloop := Exec.mapEach_map_of_ok (ε := Fault)
    (b := fun (e : Time × Str × q.Value) ↦ do
      Exec.modify ((q.queue L.config).deletePending e.2.1 e.1)
      let key ← Exec.read fun _ ↦
        (QueueKey.ofText e.2.1 : Except ParseError q.Key).mapError ParseError.corrupt
      return (key, e.2.2))
    (g := fun e : Second × q.Key × q.Value ↦ (e.1.toTime, QueueKey.toText e.2.1, e.2.2))
    (r := Prod.snd)
    (f := fun e s ↦ (q.queue L.config).deletePending (QueueKey.toText e.2.1) e.1.toTime s)
    (fun e s ↦ by
      rw [Exec.modify_bind, Exec.read_bind_of_ok (by rw [q.ofText_toText]; rfl)]
      rfl) es s
  have hdelete := h.deletePendings q L.config (D := es.map fun e ↦ (e.1, e.2.1)) fun d hd ↦ by
    obtain ⟨e, he, rfl⟩ := List.mem_map.mp hd
    exact ⟨e.2.2, (hes e he).1⟩
  rw [List.foldl_map] at hdelete
  have hnow : State.blockTime s = .ok now := by rw [h.blockTime, htime, okOr_some]
  refine ⟨es, es.foldl (fun s e ↦ (q.queue L.config).deletePending (QueueKey.toText e.2.1)
    e.1.toTime s) s, ?_, ?_, hes, hnodup, fun hsecs ↦ (hcomplete hsecs).1,
    fun hsecs ↦ (hcomplete hsecs).2⟩
  · rw [VoteQueue.promotePendingChanges, Exec.read_bind_of_ok hnow, Exec.read_bind_of_ok hripe]
    exact hloop
  · have hkeys : {k | ∃ d ∈ es.map fun e ↦ (e.1, e.2.1), d.2 = k} = {k | ∃ e ∈ es, e.2.1 = k} := by
      ext k
      simp
    rwa [hkeys] at hdelete

theorem applyConfig (h : Represents s L) (c : Config) :
    ∃ t, State.applyConfig c s = (.ok (), t) ∧ Represents t (L.applyConfig c) := by
  rw [State.applyConfig, Exec.read_bind_of_ok h.config, Ledger.applyConfig]
  by_cases hversion : c.version ≤ L.config.version
  · rw [if_pos hversion, if_pos hversion]
    exact ⟨s, rfl, h⟩
  · rw [if_neg hversion, if_neg hversion]
    exact h.setConfig c

/-- A loop of updates, none of which contradicts another. -/
theorem updateCanonicals {F : PrefixOrderDomain → Option Hash32} :
    ∀ (es : List (PrefixOrderDomain × OracleVoteValue)) {s : Store} {L : Ledger}, Represents s L →
      (∀ e ∈ es, e.2.hashObserved.hash? = F e.1) →
      ∃ t, Exec.forEach (fun e : PrefixOrderDomain × OracleVoteValue ↦
          State.updateCanonical e.1.toDomain e.2.hashObserved) es s = (.ok (), t) ∧
        Represents t { L with
          canonical := fun d ↦ if ∃ e ∈ es, e.1 = d then F d else L.canonical d }
  | [], s, L, h, _ => ⟨s, rfl, by simpa using h⟩
  | e :: es, s, L, h, hF => by
    obtain ⟨r, hupdate, hr⟩ := h.updateCanonical e.1 e.2.hashObserved
    obtain ⟨t, hloop, ht⟩ := updateCanonicals es hr fun e' he' ↦ hF e' (List.mem_cons_of_mem _ he')
    refine ⟨t, (Exec.bind_of_ok hupdate).trans hloop, ?_⟩
    have hcanonical : (fun d ↦ if ∃ e' ∈ e :: es, e'.1 = d then F d else L.canonical d) =
        fun d ↦ if ∃ e' ∈ es, e'.1 = d then F d
          else Function.update L.canonical e.1 e.2.hashObserved.hash? d := by
      funext d
      by_cases hd : ∃ e' ∈ es, e'.1 = d
      · rw [if_pos hd, if_pos]
        obtain ⟨e', he', hd⟩ := hd
        exact ⟨e', List.mem_cons_of_mem _ he', hd⟩
      · rw [if_neg hd]
        by_cases hed : d = e.1
        · rw [if_pos ⟨e, List.mem_cons_self, hed.symm⟩, hed, Function.update_self,
            hF e List.mem_cons_self]
        · rw [if_neg, Function.update_of_ne hed]
          rintro ⟨e', he', hd'⟩
          rcases List.mem_cons.mp he' with rfl | he'
          · exact hed hd'.symm
          · exact hd ⟨e', he', hd'⟩
    rwa [hcanonical]

/-- The first half of what follows the transactions: at most one config is promoted. -/
theorem promoteConfig_promoting (h : Represents s L) (hL : L.Sound) {now : Time}
    (htime : L.time = some now) :
    ∃ cs s₁ s₂ L₂,
      (QueueId.admin.queue L.config).promotePendingChanges s = (.ok (cs.map Prod.snd), s₁) ∧
      Exec.forEach (fun e : Empty × Config ↦ State.applyConfig e.2) (cs.map Prod.snd) s₁
        = (.ok (), s₂) ∧
      Represents s₂ L₂ ∧ L.Promoting .admin now cs ∧ L.Reconfigured cs L₂ := by
  obtain ⟨cs, s₁, hpromote, h₁, hcs⟩ := h.promotePendingChanges hL .admin htime
  match cs with
  | [] =>
    have hnone : L.promote .admin {k | ∃ e ∈ ([] : List (Second × Empty × Config)), e.2.1 = k}
        = L := by
      simp [Ledger.promote, QueueState.promote, Ledger.setQueue]
    rw [hnone] at h₁
    exact ⟨[], s₁, s₁, L, hpromote, rfl, h₁, hcs, .kept⟩
  | [c] =>
    have hkeys : {k | ∃ e ∈ [c], e.2.1 = k} = {Empty.mk} := by
      ext k
      simp [Subsingleton.elim k Empty.mk]
    rw [hkeys] at h₁
    obtain ⟨s₂, happly, h₂⟩ := h₁.applyConfig c.2.2
    exact ⟨[c], s₁, s₂, _, hpromote, Exec.bind_of_ok happly, h₂, hcs, .applied⟩
  | c :: c' :: cs =>
    -- two changes pending for the one key would be the same
    have heq := (hcs.ripe c List.mem_cons_self).1.symm.trans
      ((congrArg _ (Subsingleton.elim _ _)).trans
        (hcs.ripe c' (List.mem_cons_of_mem _ List.mem_cons_self)).1)
    have hcc : c = c' := by
      obtain ⟨htime, hconfig⟩ := Prod.mk.inj (Option.some.inj heq)
      exact Prod.ext htime (Prod.ext (Subsingleton.elim _ _) hconfig)
    have hnodup := hcs.nodup
    rw [hcc] at hnodup
    exact absurd List.mem_cons_self (List.nodup_cons.mp hnodup).1

theorem promoteConfig (h : Represents s L) (hL : L.Sound) {now : Time}
    (htime : L.time = some now) :
    ∃ cs s₁ s₂ L₂, (QueueId.admin.queue L.config).promotePendingChanges s = (.ok cs, s₁) ∧
      Exec.forEach (fun e : Empty × Config ↦ State.applyConfig e.2) cs s₁ = (.ok (), s₂) ∧
      Represents s₂ L₂ ∧ L.ConfigPromotion now L₂ := by
  obtain ⟨cs, s₁, s₂, L₂, hpromote, happly, h₂, hcs, hL₂⟩ := h.promoteConfig_promoting hL htime
  exact ⟨_, s₁, s₂, L₂, hpromote, happly, h₂, hL₂.configPromotion hcs⟩

/-- Everything after the transactions. -/
theorem endBlock_promoting (h : Represents s L) (hL : L.Sound) (hseated : L.Seated) {now : Time}
    (htime : L.time = some now) :
    ∃ us t L₂ cs es, State.endBlock s = (.ok us, t) ∧
      Represents t (L₂.applyObservations {d | ∃ e ∈ es, e.2.1 = d}) ∧
      L.Promoting .admin now cs ∧ L.Reconfigured cs L₂ ∧ L₂.Promoting .oracle now es := by
  obtain ⟨cs, s₁, s₂, L₂, hconfigs, happly, h₂, hcs, hL₂⟩ := h.promoteConfig_promoting hL htime
  have hconfig := hL₂.configPromotion hcs
  obtain ⟨es, s₃, hpromote, h₃, hes⟩ :=
    h₂.promotePendingChanges (hconfig.sound hL) .oracle (hconfig.time.trans htime)
  let D : Set PrefixOrderDomain := {d | ∃ e ∈ es, e.2.1 = d}
  obtain ⟨t, hupdate, ht⟩ := h₃.updateCanonicals (es.map Prod.snd)
    (F := fun d ↦ ((L₂.queue .oracle).pending d).bind fun e ↦
      HashObserved.hash? (OracleVoteValue.hashObserved e.2)) fun e he ↦ by
        obtain ⟨x, hx, rfl⟩ := List.mem_map.mp he
        rw [(hes.ripe x hx).1]
        rfl
  have hL' : L₂.applyObservations D = { L₂.promote .oracle D with
      canonical := fun d ↦ if ∃ e ∈ es.map Prod.snd, e.1 = d then
        ((L₂.queue .oracle).pending d).bind fun e ↦
          HashObserved.hash? (OracleVoteValue.hashObserved e.2)
        else (L₂.promote .oracle D).canonical d } := by
    have hmem : ∀ d, d ∈ D ↔ ∃ e ∈ es.map Prod.snd, e.1 = d := by
      intro d
      constructor
      · rintro ⟨e, he, rfl⟩
        exact ⟨e.2, List.mem_map_of_mem he, rfl⟩
      · rintro ⟨x, hx, rfl⟩
        obtain ⟨e, he, rfl⟩ := List.mem_map.mp hx
        exact ⟨e, he, rfl⟩
    simp only [Ledger.applyObservations, hmem]
    rfl
  have hend : Represents t (L₂.applyObservations D) := by rwa [hL']
  obtain ⟨us, hus⟩ := hend.activeValidators.mpr
    (by rw [Ledger.Seated]; exact hconfig.validators ▸ hseated)
  refine ⟨us, t, L₂, cs, es, ?_, hend, hcs, hL₂, hes⟩
  rw [State.endBlock, Exec.read_bind_of_ok h.adminVoting]
  refine (Exec.bind_of_ok hconfigs).trans ?_
  rw [Exec.bind_of_ok happly, Exec.read_bind_of_ok h₂.oracleVoting]
  refine (Exec.bind_of_ok hpromote).trans ?_
  rw [Exec.bind_of_ok hupdate, Exec.read_apply, hus]

theorem endBlock (h : Represents s L) (hL : L.Sound) (hseated : L.Seated) {now : Time}
    (htime : L.time = some now) :
    ∃ us t L', State.endBlock s = (.ok us, t) ∧ Represents t L' ∧ L.Ends now L' := by
  obtain ⟨us, t, L₂, cs, es, hend, ht, hcs, hL₂, hes⟩ := h.endBlock_promoting hL hseated htime
  refine ⟨us, t, _, hend, ht, .mk (hL₂.configPromotion hcs) _ ?_⟩
  rintro d ⟨e, he, rfl⟩
  exact ⟨_, hes.ripe e he⟩

end Represents

end Felidae
