import Felidae.Chain.Refine
import Felidae.Properties.AppHashes

/-!
# Blockstamps

An observation names a block of the chain by its height and its app hash. The time of a block is
recorded under its height, the app hash under the height before it, which is cut to 32 bits when it
is looked up. Up to height 2³² the check of a blockstamp is exact: it passes for the earlier blocks
that are recent enough, with their own app hashes. Beyond it the app hash is compared with that of
a block 2³² heights, or a multiple of them, before.
-/

namespace Felidae

/-! ## The recorded times -/

/-- Exactly the times of the given blocks are recorded. -/
structure RecordsTimes (requests : List FinalizeBlock) (s : Store) : Prop where
  recorded : ∀ request ∈ requests, State.timeOfBlock request.height s = .ok request.time
  missing : ∀ k, (∀ request ∈ requests, request.height ≠ k) →
    State.timeOfBlock k s = .error (.reject "block time not found in state")

theorem RecordsTimes.timeOfBlock_eq_ok {requests : List FinalizeBlock} {s : Store}
    (h : RecordsTimes requests s) {k : Height} {t : Time} : State.timeOfBlock k s = .ok t ↔
      ∃ request ∈ requests, request.height = k ∧ request.time = t := by
  constructor
  · intro ht
    by_contra hnone
    have hmissing := h.missing k fun request hr hk ↦ hnone ⟨request, hr, hk, by
      rw [← hk, h.recorded request hr] at ht
      exact Except.ok.inj ht⟩
    cases hmissing.symm.trans ht
  · rintro ⟨request, hr, rfl, rfl⟩
    exact h.recorded request hr

namespace State

theorem timeOfBlock_congr {s t : Store}
    (h : Table.blocktime.entries s = Table.blocktime.entries t) (k : Height) :
    timeOfBlock k s = timeOfBlock k t := by
  have hget := Table.get_congr h Time (rfl :
    Substore.internal.prefixed ("blocktime/".toList ++ padHeight k)
      = Table.blocktime.head ++ padHeight k)
  rw [timeOfBlock, timeOfBlock, hget]

theorem value_previousBlockHeight (b : Height) :
    (previousBlockHeight b).value = (b.value - 1) % 4294967296 := rfl

theorem blockHeight_congr {s t : Store}
    (h : Table.blockHeight.entries s = Table.blockHeight.entries t) :
    blockHeight s = blockHeight t := by
  rw [blockHeight, blockHeight,
    Table.get_congr h Height (List.append_nil (Table.head .blockHeight)).symm]

theorem blockTime_congr {s t : Store}
    (h : Table.blockTime.entries s = Table.blockTime.entries t) :
    blockTime s = blockTime t := by
  rw [blockTime, blockTime,
    Table.get_congr h Time (List.append_nil (Table.head .blockTime)).symm]

variable [Host]

omit [Host] in
/-- The height is set, then the time is set and recorded under the height. -/
theorem setBlockTime_setBlockHeight (height : Height) (time : Time) (s : Store) :
    setBlockTime time (s.put .internal "current/block_height".toList height)
      = (.ok (), ((s.put .internal "current/block_height".toList height).put .internal
          "current/block_time".toList time).put .internal ("blocktime/".toList ++ padHeight height)
            time) := by
  have hheight : blockHeight ((s.put .internal "current/block_height".toList height).put .internal
      "current/block_time".toList time) = .ok height := by
    have hkeep : Table.blockTime ≠ .blockHeight := by decide
    rw [blockHeight_congr (Table.entries_put hkeep (List.prefix_refl _) time _), blockHeight,
      Store.get_put_self height.clean]
    rfl
  rw [setBlockTime, Exec.modify_bind, recordBlockTime, Exec.read_bind_of_ok hheight,
    Exec.modify_apply]

/-- A block sets the height and the time, and records the time under the height. -/
theorem times_beginBlock {request : FinalizeBlock} {s t : Store}
    (h : beginBlock request s = (.ok (), t)) :
    blockTime t = .ok request.time ∧ ∀ k, timeOfBlock k t
      = if request.height = k then .ok request.time else timeOfBlock k s := by
  obtain ⟨_, s₁, hmark, h⟩ := Exec.bind_eq_ok.mp h
  obtain ⟨_, s₂, htombstone, h⟩ := Exec.bind_eq_ok.mp h
  obtain ⟨_, s₃, hheight, h⟩ := Exec.bind_eq_ok.mp h
  -- votes are timed out last, when the height and the time are set
  obtain ⟨_, s₄, htime, h⟩ := Exec.bind_eq_ok.mp h
  obtain rfl := (Prod.mk.inj hheight).2
  have hset := setBlockTime_setBlockHeight request.height request.time s₂
  obtain rfl := (Prod.mk.inj (hset.symm.trans htime)).2
  have hne₁ : Table.blocktime ≠ .blockTime := by decide
  have hne₂ : Table.blockTime ≠ .blocktime := by decide
  have hne₃ : Table.blockHeight ≠ .blocktime := by decide
  constructor
  · rw [blockTime_congr (((spared_timeoutBoth rfl).eq h).trans
      (Table.entries_put hne₁ (List.prefix_append (Table.head .blocktime) _) _ _)), blockTime,
      Store.get_put_self request.time.clean]
    rfl
  · intro k
    rw [timeOfBlock_congr ((spared_timeoutBoth rfl).eq h)]
    split_ifs with hk
    · rw [hk, timeOfBlock, Store.get_put_self request.time.clean]
      rfl
    · have hne : "blocktime/".toList ++ padHeight request.height
          ≠ "blocktime/".toList ++ padHeight k := fun heq ↦
        hk (padHeight_injective (List.append_cancel_left heq))
      have hkeep : Table.blocktime.entries ((s₂.put .internal "current/block_height".toList
          request.height).put .internal "current/block_time".toList request.time)
          = Table.blocktime.entries s :=
        (Table.entries_put hne₂ (List.prefix_refl _) request.time _).trans
          ((Table.entries_put hne₃ (List.prefix_refl _) request.height _).trans
          (((Exec.keeps_forEach fun _ _ ↦ spared_tombstoneValidator _).eq htombstone).trans
            ((spared_markValidatorsVoted _).eq hmark)))
      rw [timeOfBlock, Store.get_put_of_ne hne, ← timeOfBlock, timeOfBlock_congr hkeep]

end State

/-! ## What a block sees of the chain -/

/-- The store of a block: height and time are its own, its time and those of the older blocks are
recorded, and so are the app hashes of the older blocks. -/
structure Sees (request : FinalizeBlock) (older : List Block) (s : Store) : Prop where
  height : State.blockHeight s = .ok request.height
  time : State.blockTime s = .ok request.time
  times : RecordsTimes (request :: older.map Block.request) s
  hashes : RecordsAppHashes older s

namespace Sees

variable {request : FinalizeBlock} {older : List Block} {s t : Store}

/-- It depends on four tables only. -/
theorem congr (h : Sees request older s)
    (hst : ∀ τ : Table, τ.queued = false → τ ≠ .config → τ ≠ .canonical →
      τ.entries t = τ.entries s) : Sees request older t where
  height := by rw [State.blockHeight_congr (hst _ rfl (by decide) (by decide)), h.height]
  time := by rw [State.blockTime_congr (hst _ rfl (by decide) (by decide)), h.time]
  times := by
    have htimes := State.timeOfBlock_congr (hst .blocktime rfl (by decide) (by decide))
    exact ⟨fun r hr ↦ by rw [htimes, h.times.recorded r hr],
      fun k hk ↦ by rw [htimes, h.times.missing k hk]⟩
  hashes := h.hashes.congr (hst _ rfl (by decide) (by decide))

end Sees

/-- The states of a chain at the height of a block: those its transactions meet, and the one it
leaves. The block comes after the older ones. -/
inductive AtBlock [Host] (genesis : InitChain) : FinalizeBlock → List Block → Store → Prop where
  | during {older : List Block} {block : Block} {s t : Store} {m : Moment Store Event}
      (happlied : Applied genesis older s)
      (hheight : block.request.height.value = older.length + 1)
      (hfinalize : State.handleFinalizeBlock block.orders block.request s
        = (.ok block.response, t))
      (hm : m ∈ State.blockMoments block.orders block.request s)
      (hevent : m.event ≠ .begin block.request) : AtBlock genesis block.request older m.before
  | after {older : List Block} {block : Block} {s : Store}
      (happlied : Applied genesis (block :: older) s) : AtBlock genesis block.request older s

section Chain

variable [Host] {genesis : InitChain} {older : List Block} {request : FinalizeBlock}
  {s t : Store}

/-- When the transactions of a block begin, and until it ends. -/
theorem Applied.sees_begunBlock {block : Block} (h : Applied genesis older s)
    (hheight : block.request.height.value = older.length + 1)
    (htimes : RecordsTimes (older.map Block.request) s)
    (hfinalize : State.handleFinalizeBlock block.orders block.request s
      = (.ok block.response, t)) :
    Sees block.request older (State.begunBlock block.request s) := by
  obtain ⟨s₁, hrecord, hrecords⟩ := h.recordPrevious h.records
  obtain ⟨_, s₁', hrecord', hfinalize⟩ := Exec.bind_eq_ok.mp hfinalize
  obtain ⟨-, rfl⟩ := Prod.mk.inj (hrecord.symm.trans hrecord')
  obtain ⟨response, s₂, hrun, -⟩ := Exec.bind_eq_ok.mp hfinalize
  obtain ⟨⟨⟩, s₃, hbegin, -⟩ := Exec.bind_eq_ok.mp hrun
  have hbegun : State.begunBlock block.request s = s₃ := by
    rw [State.begunBlock, Exec.bind_of_ok hrecord, hbegin]
  obtain ⟨htime, hall⟩ := State.times_beginBlock hbegin
  have hkeep := State.timeOfBlock_congr ((spared_recordPrevious (by decide)).eq hrecord)
  rw [hbegun]
  refine ⟨State.blockHeight_beginBlock hbegin, htime, ⟨fun r hr ↦ ?_, fun k hk ↦ ?_⟩,
    hrecords.congr ((spared_beginBlock rfl (by decide) (by decide) (by decide) _).eq hbegin)⟩
  · rw [hall]
    rcases List.mem_cons.mp hr with rfl | hr
    · rw [if_pos rfl]
    · obtain ⟨b, hb, rfl⟩ := List.mem_map.mp hr
      have hne : block.request.height ≠ b.request.height := fun heq ↦ by
        have hle := h.height_le hb
        rw [← heq] at hle
        omega
      rw [if_neg hne, hkeep, htimes.recorded _ hr]
  · rw [hall, if_neg (hk _ List.mem_cons_self), hkeep,
      htimes.missing k fun r hr ↦ hk r (List.mem_cons_of_mem _ hr)]

/-- At every moment of a block that is finalized. -/
theorem Applied.sees_of_mem_blockMoments {block : Block} (h : Applied genesis older s)
    (hheight : block.request.height.value = older.length + 1)
    (htimes : RecordsTimes (older.map Block.request) s)
    (hfinalize : State.handleFinalizeBlock block.orders block.request s
      = (.ok block.response, t)) {m : Moment Store Event}
    (hm : m ∈ State.blockMoments block.orders block.request s) :
    Sees block.request older m.after ∧
      (m.event ≠ .begin block.request → Sees block.request older m.before) := by
  have hbegun := h.sees_begunBlock hheight htimes hfinalize
  refine ⟨hbegun.congr fun τ hτ hconfig hcanonical ↦
    (entries_of_mem_blockMoments hτ hconfig hcanonical hm).1, fun hevent ↦ hbegun.congr
      fun τ hτ hconfig hcanonical ↦
        (entries_of_mem_blockMoments hτ hconfig hcanonical hm).2.resolve_left hevent⟩

/-- Between two blocks the times of all blocks are recorded. -/
theorem Applied.recordsTimes (h : Applied genesis older s) :
    RecordsTimes (older.map Block.request) s ∧
      ∀ block rest, older = block :: rest → Sees block.request rest s := by
  induction h with
  | start hinit =>
    refine ⟨⟨fun _ hr ↦ absurd hr List.not_mem_nil, fun k _ ↦ ?_⟩, fun _ _ hnil ↦ by cases hnil⟩
    rw [State.timeOfBlock_congr
      ((spared_initChain (by decide) (by decide) (by decide) genesis).eq hinit)]
    rfl
  | @block older s t block happlied hheight hfinalize ih =>
    -- the last moment of the block leaves its state
    have hlast : (⟨State.executedBlock block.orders block.request s, .finish, t⟩ :
        Moment Store Event)
        ∈ State.blockMoments block.orders block.request s := by
      rw [State.snd_handleFinalizeBlock hfinalize]
      exact List.mem_cons_self
    have hsees := (happlied.sees_of_mem_blockMoments hheight ih.1 hfinalize hlast).1
    refine ⟨hsees.times, fun block' rest heq ↦ ?_⟩
    obtain ⟨rfl, rfl⟩ := List.cons.inj heq
    exact hsees

theorem AtBlock.sees (h : AtBlock genesis request older s) : Sees request older s := by
  cases h with
  | during happlied hheight hfinalize hm hevent =>
    exact (happlied.sees_of_mem_blockMoments hheight happlied.recordsTimes.1 hfinalize hm).2 hevent
  | after happlied => exact happlied.recordsTimes.2 _ _ rfl

/-- The older blocks are numbered from 1 up to the block before. -/
theorem AtBlock.heights (h : AtBlock genesis request older s) :
    (∀ b, (∃ block ∈ older, block.request.height.value = b) ↔ 1 ≤ b ∧ b ≤ older.length) ∧
      request.height.value = older.length + 1 := by
  have hmem : ∀ {older : List Block} {s : Store}, Applied genesis older s → ∀ b,
      (∃ block ∈ older, block.request.height.value = b) ↔ 1 ≤ b ∧ b ≤ older.length := by
    intro older s happlied b
    have hheights := happlied.heights
    have hmem : b ∈ older.map (fun block ↦ block.request.height.value) ↔
        1 ≤ b ∧ b ≤ older.length := by
      rw [hheights, List.mem_reverse, List.mem_range'_1]
      omega
    rw [← hmem, List.mem_map]
  cases h with
  | during happlied hheight _ _ _ => exact ⟨hmem happlied, hheight⟩
  | after happlied =>
    cases happlied with
    | block happlied hheight _ => exact ⟨hmem happlied, hheight⟩

end Chain

/-! ## The check -/

/-- The block at the height is recent enough for the block at hand. -/
def Recent (request : FinalizeBlock) (older : List Block) (timeout : Duration) (b : Height) :
    Prop :=
  ∃ r ∈ request :: older.map Block.request, r.height = b ∧
    ∃ age, request.time.durationSince r.time = some age ∧ age < timeout

/-- A blockstamp names an older block and has its app hash, and that block is recent enough. -/
structure Stamps (request : FinalizeBlock) (older : List Block) (timeout : Duration)
    (stamp : Blockstamp) : Prop where
  earlier : 1 ≤ stamp.blockHeight.value ∧ stamp.blockHeight.value < request.height.value
  hash : ∃ block ∈ older, block.request.height = stamp.blockHeight ∧
    block.response.appHash = stamp.appHash
  recent : Recent request older timeout stamp.blockHeight

/-- The observation with another blockstamp. -/
def Observe.withBlockstamp (o : Observe) (stamp : Blockstamp) : Observe :=
  { o with observation := { o.observation with blockstamp := stamp } }

/-- A block header, as far as the oracle client reads it. -/
structure Header where
  height : Height
  appHash : AppHash

namespace Header

/-- The blockstamp that `observe_domain` makes of the header of the latest block. The app hash in
the header is that of the block before. -/
def blockstamp (latest : Header) : Option Blockstamp :=
  if 0 < latest.height.value then some ⟨latest.height.pred, latest.appHash⟩ else none

/-- The header of the next block carries what a block came to. -/
structure Follows (header : Header) (block : Block) : Prop where
  height : header.height.value = block.request.height.value + 1
  appHash : header.appHash = block.response.appHash

end Header

/-- The check of the blockstamps at a height, all else as in the given observation, passes for those
that stamp an older block; and it passes for the one that the oracle client makes of the next
header. -/
structure ChecksBlockstamps [Host] (request : FinalizeBlock) (older : List Block)
    (timeout : Duration) (o : Observe) (b : Height) (s : Store) : Prop where
  exact : ∀ a, State.checkBlockstamp (o.withBlockstamp ⟨b, a⟩) s = .ok () ↔
    Stamps request older timeout ⟨b, a⟩
  client : ∀ block ∈ older, ∀ header : Header, header.Follows block → block.request.height = b →
    Recent request older timeout b →
      ∃ stamp, header.blockstamp = some stamp ∧
        State.checkBlockstamp (o.withBlockstamp stamp) s = .ok ()

/-- The height is looked up as it is, or it does not matter: up to 2³² it is not cut, a block that
is not recent is rejected anyway, and the block whose app hash is taken instead may have the
same. -/
def LooksUp (request : FinalizeBlock) (older : List Block) (timeout : Duration) (b : Height) :
    Prop :=
  b.value ≤ 2 ^ 32 ∨ ¬Recent request older timeout b ∨
    ∃ block ∈ older, ∃ block' ∈ older, block.request.height = b ∧
      block'.request.height.value = (State.previousBlockHeight b).value + 1 ∧
      block.response.appHash = block'.response.appHash

section Check

variable [Host] {genesis : InitChain} {older : List Block} {request : FinalizeBlock}
  {s : Store} {c : Config} {o : Observe}

/-- What the check comes to in terms of the blocks. -/
theorem Sees.checkBlockstamp (h : Sees request older s) (hconfig : State.config s = .ok c)
    (hauthorized : ∃ x ∈ c.oracles.authorized, x.identity = o.oracle.identity)
    (hlater : ∀ block ∈ older, block.request.height.value ≤ request.height.value)
    (stamp : Blockstamp) : State.checkBlockstamp (o.withBlockstamp stamp) s = .ok () ↔
      Recent request older c.oracles.observationTimeout stamp.blockHeight ∧
        State.previousAppHash (State.previousBlockHeight stamp.blockHeight) s
          = .ok stamp.appHash := by
  have hbail : ∀ {P : Prop} [Decidable P] {m : String}, bailIf P m = .ok () ↔ ¬P :=
    fun {P} _ {m} ↦ (decides_bailIf P m).iff
  rw [State.checkBlockstamp]
  simp only [hconfig, h.height, h.time, except_ok_bind, except_bind_eq_ok, hbail, okOr_eq_ok,
    h.times.timeOfBlock_eq_ok]
  constructor
  · rintro ⟨-, -, -, -, t, ⟨r, hr, hb, rfl⟩, age, hage, -, hlt, hash, hhash, heq⟩
    exact ⟨⟨r, hr, hb, age, hage, Nat.lt_of_not_le hlt⟩, not_not.mp heq ▸ hhash⟩
  · rintro ⟨⟨r, hr, hb, age, hage, hlt⟩, hhash⟩
    obtain ⟨x, hx, hid⟩ := hauthorized
    refine ⟨(), not_not.mpr (List.any_eq_true.mpr ⟨x, hx, decide_eq_true hid⟩), (), ?_, r.time,
      ⟨r, hr, hb, rfl⟩, age, hage, (), Nat.not_le_of_lt hlt, _, hhash, not_not.mpr rfl⟩
    change ¬request.height.value < stamp.blockHeight.value
    rw [← hb, Nat.not_lt]
    rcases List.mem_cons.mp hr with rfl | hr
    · exact le_rfl
    · obtain ⟨block, hblock, rfl⟩ := List.mem_map.mp hr
      exact hlater block hblock

omit [Host] in
/-- The app hash that is looked up is that of the block itself. -/
theorem Sees.previousAppHash_eq_ok (h : Sees request older s)
    (hheights : ∀ b, (∃ block ∈ older, block.request.height.value = b) ↔
      1 ≤ b ∧ b ≤ older.length) {timeout : Duration} {b : Height}
    (hbound : 1 ≤ b.value ∧ b.value ≤ older.length + 1) (hrecent : Recent request older timeout b)
    (hlooks : LooksUp request older timeout b) (a : AppHash) :
    State.previousAppHash (State.previousBlockHeight b) s = .ok a ↔
      ∃ block ∈ older, block.request.height = b ∧ block.response.appHash = a := by
  rcases hlooks with hsmall | hold | ⟨block, hblock, block', hblock', hb, hb', hsame⟩
  · have hprevious : (State.previousBlockHeight b).value + 1 = b.value := by
      rw [State.value_previousBlockHeight, Nat.mod_eq_of_lt (by omega)]
      omega
    constructor
    · intro hok
      by_cases hlast : b.value ≤ older.length
      · obtain ⟨block, hblock, hheight⟩ := (hheights b.value).mpr ⟨hbound.1, hlast⟩
        rw [h.hashes.recorded block hblock _ (hprevious.trans hheight.symm)] at hok
        exact ⟨block, hblock, Height.ext hheight, Except.ok.inj hok⟩
      · -- the app hash of the block at hand is not known yet
        cases (h.hashes.missing _ (by omega)).symm.trans hok
    · rintro ⟨block, hblock, rfl, rfl⟩
      exact h.hashes.recorded block hblock _ hprevious
  · exact absurd hrecent hold
  · have hlookup := h.hashes.recorded block' hblock' _ hb'.symm
    constructor
    · intro hok
      exact ⟨block, hblock, hb, hsame.trans (Except.ok.inj (hlookup.symm.trans hok))⟩
    -- there is one block of that height
    · rintro ⟨block₂, hblock₂, hb₂, rfl⟩
      have hone : block₂.response.appHash = block.response.appHash :=
        Except.ok.inj ((h.hashes.recorded block₂ hblock₂ b.pred
          (by rw [hb₂]; exact Nat.sub_add_cancel hbound.1)).symm.trans
          (h.hashes.recorded block hblock b.pred
            (by rw [hb]; exact Nat.sub_add_cancel hbound.1)))
      rw [hlookup, ← hsame, hone]

/-- The check of a blockstamp, for every state of a chain and every height: it does what it should
exactly for the heights that are looked up as they are. -/
theorem AtBlock.checksBlockstamps_iff (h : AtBlock genesis request older s)
    (hconfig : State.config s = .ok c)
    (hauthorized : ∃ x ∈ c.oracles.authorized, x.identity = o.oracle.identity) (b : Height) :
    ChecksBlockstamps request older c.oracles.observationTimeout o b s ↔
      LooksUp request older c.oracles.observationTimeout b := by
  have hsees := h.sees
  obtain ⟨hheights, hheight⟩ := h.heights
  have holder : ∀ block ∈ older,
      1 ≤ block.request.height.value ∧ block.request.height.value ≤ older.length :=
    fun block hblock ↦ (hheights _).mp ⟨block, hblock, rfl⟩
  have hcheck := fun stamp ↦ hsees.checkBlockstamp hconfig hauthorized (fun block hblock ↦ by
    have := holder block hblock
    omega) stamp
  have hbound : Recent request older c.oracles.observationTimeout b →
      1 ≤ b.value ∧ b.value ≤ older.length + 1 := by
    rintro ⟨r, hr, rfl, -⟩
    rcases List.mem_cons.mp hr with rfl | hr
    · omega
    · obtain ⟨block, hblock, rfl⟩ := List.mem_map.mp hr
      have := holder block hblock
      omega
  constructor
  · intro hchecks
    by_cases hsmall : b.value ≤ 2 ^ 32
    · exact .inl hsmall
    by_cases hrecent : Recent request older c.oracles.observationTimeout b
    · -- some older block has the height that is looked up instead, so its app hash passes
      have hcut : (State.previousBlockHeight b).value + 1 ≤ 2 ^ 32 := by
        rw [State.value_previousBlockHeight]
        omega
      have hle := (hbound hrecent).2
      obtain ⟨block', hblock', hb'⟩ := (hheights ((State.previousBlockHeight b).value + 1)).mpr
        ⟨by omega, by omega⟩
      have hstamps := (hchecks.exact block'.response.appHash).mp
        ((hcheck ⟨b, _⟩).mpr ⟨hrecent, hsees.hashes.recorded block' hblock' _ hb'.symm⟩)
      obtain ⟨block, hblock, hb, hsame⟩ := hstamps.hash
      exact .inr (.inr ⟨block, hblock, block', hblock', hb, hb', hsame⟩)
    · exact .inr (.inl hrecent)
  · intro hlooks
    -- conversely, what is looked up is the app hash of the stamped block
    have hexact : ∀ a, State.checkBlockstamp (o.withBlockstamp ⟨b, a⟩) s = .ok () ↔
        Stamps request older c.oracles.observationTimeout ⟨b, a⟩ := by
      intro a
      rw [hcheck]
      constructor
      · rintro ⟨hrecent, hok⟩
        have hhash :=
          (hsees.previousAppHash_eq_ok hheights (hbound hrecent) hrecent hlooks a).mp hok
        refine ⟨⟨(hbound hrecent).1, ?_⟩, hhash, hrecent⟩
        obtain ⟨block, hblock, rfl, -⟩ := hhash
        have := holder block hblock
        exact show block.request.height.value < request.height.value by omega
      · intro hstamps
        exact ⟨hstamps.recent, (hsees.previousAppHash_eq_ok hheights (hbound hstamps.recent)
          hstamps.recent hlooks a).mpr hstamps.hash⟩
    refine ⟨hexact, fun block hblock header hfollows hb hrecent ↦ ?_⟩
    -- a header carries the app hash of the block before it
    have hstamp : header.blockstamp = some ⟨b, block.response.appHash⟩ := by
      have hpred : header.height.pred = b := by
        refine Height.ext ?_
        change header.height.value - 1 = b.value
        rw [hfollows.height, hb, Nat.add_sub_cancel]
      rw [Header.blockstamp, if_pos (by rw [hfollows.height]; omega), hpred, hfollows.appHash]
    refine ⟨_, hstamp, (hexact _).mpr ⟨⟨(hbound hrecent).1, ?_⟩, ⟨block, hblock, hb, rfl⟩, hrecent⟩⟩
    have := holder block hblock
    rw [hb] at this
    exact show b.value < request.height.value by omega

end Check

/-! ## Chains without transactions -/

/-- A ledger with no config pending, and a store that represents it. -/
structure Idle [Host] (s : Store) (L : Ledger) : Prop where
  represents : Represents s L
  sound : L.Sound
  seated : L.Seated
  pending : (L.queue .admin).pending Empty.mk = none

section Idle

variable [Host] [LawfulHost] {s : Store} {L : Ledger}

/-- A block without transactions leaves the config, and no config pending. -/
theorem Idle.handleFinalizeBlock (h : Idle s L) (orders : ℕ → ℕ → IterOrder)
    {request : FinalizeBlock} (hempty : request.txs = []) :
    ∃ response t L', State.handleFinalizeBlock orders request s = (.ok response, t) ∧
      Idle t L' ∧ L'.config = L.config := by
  obtain ⟨s₁, L₁, hbegin, hs₁, hbegins⟩ := h.represents.beginBlock h.seated request
  have hsound₁ := h.sound.begins hbegins
  have hseated₁ : L₁.Seated := by
    rw [Ledger.Seated, hbegins.validators]
    exact h.seated
  obtain ⟨us, t, L', hend, ht, hends⟩ := hs₁.endBlock hsound₁ hseated₁ hbegins.time
  obtain ⟨_, r, hrecord, hbegin'⟩ := Exec.bind_eq_ok.mp hbegin
  obtain ⟨D, -, hqueue⟩ := hbegins.queue .admin
  have hpending₁ : (L₁.queue .admin).pending Empty.mk = none := by
    rw [hqueue, QueueState.pending_expire, h.pending]
  obtain ⟨L₂, E, hpromotion, -, hconfig, hadmin, -, -⟩ := hends.outcome
  -- no config is pending, so none is promoted
  obtain rfl : L₂ = L₁ := by
    rcases hpromotion.outcome hsound₁ with rfl | ⟨_, _, hpending, -⟩
    · rfl
    · cases hpending₁.symm.trans hpending
  refine ⟨⟨[], us, Host.rootHash t.verifiable⟩, t, L', ?_, ⟨ht, hsound₁.ends hends, ?_, ?_⟩, ?_⟩
  · have hexec : State.execTxs orders request.txs s₁ = (.ok [], s₁) := by
      rw [hempty]
      rfl
    have hfinalize : State.finalizeBlock orders request r = (.ok ⟨[], us, []⟩, t) := by
      rw [State.finalizeBlock, Exec.bind_of_ok hbegin', Exec.bind_of_ok hexec,
        Exec.bind_of_ok hend]
      rfl
    rw [State.handleFinalizeBlock, Exec.bind_of_ok hrecord, Exec.bind_of_ok hfinalize]
    rfl
  · rw [Ledger.Seated, hends.validators]
    exact hseated₁
  · rw [hadmin, hpending₁]
  · rw [hconfig, hbegins.config]

/-- After the first block. -/
theorem Run.exists_applied {genesis : InitChain} {request : FinalizeBlock}
    {ms : List (Moment Store Event)} (hrun : Run genesis [request] ms s)
    (hheight : request.height.value = 1) :
    ∃ block L, Applied genesis [block] s ∧ Represents s L ∧ L.Sound ∧ L.Seated := by
  cases hrun with
  | @block _ _ _ _ _ response orders hrun htime hfinalize =>
    obtain ⟨h, L, hshown⟩ := hrun.exists_shown
    obtain ⟨h', L', hshown', -, hvalidators⟩ := hshown.block htime hfinalize
    cases hrun with
    | start hinit =>
      have happlied : Applied genesis [⟨orders, request, response⟩] s :=
        .block (.start hinit) hheight hfinalize
      refine ⟨_, L', happlied, hshown'.represents, LedgerHistory.sound hshown'.history, ?_⟩
      rw [Ledger.Seated, hvalidators]
      exact hshown.seated hfinalize

end Idle

namespace Reference

/-- An observation of the oracle of the founding config. -/
def observing : Observe :=
  ⟨⟨⟨.root⟩, ⟨.root⟩, ⟨firstHeight, []⟩, .notFound⟩, ⟨alice⟩⟩

/-- A chain of any length: it is founded in the first block, and all other blocks are empty. -/
theorem exists_applied (n : ℕ) (hn : n + 1 ≤ 9223372036854775807) :
    ∃ older s L, Applied genesis older s ∧ Idle s L ∧ older.length = n + 1 ∧
      (∃ x ∈ L.config.oracles.authorized, x.identity = observing.oracle.identity) ∧
      0 < L.config.oracles.observationTimeout := by
  induction n with
  | zero =>
    obtain ⟨ms, s, hrun, htest⟩ := exists_run_of_any genesis listed [blockAt 1 10 [found]]
      (fun r ↦
        decide ((State.config r.2).toOption.map (fun c : Config ↦
          (c.oracles.authorized.map Oracle.identity, c.oracles.observationTimeout))
            = some ([alice], 1000000000000)) &&
        decide (((QueueId.admin.queue State.defaultConfig).pendingForKey Empty.mk r.2).toOption
          = some none)) (by decide +kernel)
    obtain ⟨block, L, happlied, hs, hL, hseated⟩ := hrun.exists_applied (by decide)
    rw [hs.config, hs.pendingForKey hL .admin] at htest
    obtain ⟨hconfig, hpending⟩ := Bool.and_eq_true_iff.mp htest
    obtain ⟨hidentities, htimeout⟩ := Prod.mk.inj (Option.some.inj (of_decide_eq_true hconfig))
    have hauthorized : alice ∈ L.config.oracles.authorized.map Oracle.identity := by
      rw [hidentities]
      exact List.mem_singleton_self _
    have hnone : (L.queue .admin).pending Empty.mk = none :=
      Option.map_eq_none_iff.mp (Option.some.inj (of_decide_eq_true hpending))
    refine ⟨_, s, L, happlied, ⟨hs, hL, hseated, hnone⟩, rfl, List.mem_map.mp hauthorized, ?_⟩
    rw [htimeout]
    decide
  | succ n ih =>
    obtain ⟨older, s, L, happlied, hidle, hlength, hauthorized, htimeout⟩ := ih (by omega)
    -- one more empty block
    let request : FinalizeBlock := { blockAt 0 10 [] with height := ⟨n + 2, hn⟩ }
    have hempty : request.txs = [] := rfl
    obtain ⟨response, t, L', hfinalize, hidle', hconfig⟩ :=
      hidle.handleFinalizeBlock (fun _ _ ↦ listed) hempty
    refine ⟨⟨fun _ _ ↦ listed, request, response⟩ :: older, t, L',
      happlied.block (by rw [hlength]) hfinalize, hidle', by rw [List.length_cons, hlength], ?_, ?_⟩
    · rwa [hconfig]
    · rwa [hconfig]

theorem checksBlockstamps_founded : ∃ request older s c b, AtBlock genesis request older s ∧
    State.config s = .ok c ∧
    (ChecksBlockstamps request older c.oracles.observationTimeout observing b s ↔
      LooksUp request older c.oracles.observationTimeout b) := by
  obtain ⟨blocks, s, L, happlied, hidle, hlength, hauthorized, -⟩ := exists_applied 1 (by decide)
  cases blocks with
  | nil => cases hlength
  | cons block older =>
    have hat := AtBlock.after happlied
    exact ⟨block.request, older, s, L.config, ⟨1, by decide⟩, hat, hidle.represents.config,
      AtBlock.checksBlockstamps_iff hat hidle.represents.config hauthorized _⟩

/-- At height 2³² + 1 the block at hand may be stamped, with the app hash of the first block. -/
theorem not_checksBlockstamps_founded : ∃ request older s c, AtBlock genesis request older s ∧
    State.config s = .ok c ∧
    (∃ x ∈ c.oracles.authorized, x.identity = observing.oracle.identity) ∧
    request.height.value = 2 ^ 32 + 1 ∧
    ¬ChecksBlockstamps request older c.oracles.observationTimeout observing request.height s := by
  obtain ⟨blocks, s, L, happlied, hidle, hlength, hauthorized, htimeout⟩ :=
    exists_applied (2 ^ 32) (by norm_num)
  cases blocks with
  | nil => cases hlength
  | cons block older =>
    have hat := AtBlock.after happlied
    obtain ⟨hheights, hheight⟩ := hat.heights
    rw [List.length_cons, Nat.add_right_cancel_iff] at hlength
    rw [hlength] at hheights hheight
    refine ⟨block.request, older, s, L.config, hat, hidle.represents.config, hauthorized, hheight,
      fun hchecks ↦ ?_⟩
    obtain ⟨first, hfirst, hone⟩ := (hheights 1).mpr (by norm_num)
    have hrecent : Recent block.request older L.config.oracles.observationTimeout
        block.request.height := by
      refine ⟨block.request, List.mem_cons_self, rfl, 0, ?_, htimeout⟩
      simp [Time.durationSince]
    have hprevious : (State.previousBlockHeight block.request.height).value + 1
        = first.request.height.value := by
      rw [State.value_previousBlockHeight, hheight, hone]
      norm_num
    have hok := (hat.sees.checkBlockstamp (o := observing) hidle.represents.config hauthorized
      (fun block' hblock' ↦ by
        have := (hheights _).mp ⟨block', hblock', rfl⟩
        omega) ⟨block.request.height, first.response.appHash⟩).mpr
          ⟨hrecent, hat.sees.hashes.recorded first hfirst _ hprevious⟩
    exact absurd ((hchecks.exact _).mp hok).earlier.2 (lt_irrefl _)

end Reference

end Felidae
