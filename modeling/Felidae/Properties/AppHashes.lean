import Felidae.Properties.Commit

/-!
# The recorded app hashes

Each block starts by recording the app hash of the block before it, under the height before that
block. The app hashes are a table of their own, and nothing else writes to it: while a block is
executed the table holds the app hashes of the earlier blocks, and nothing else.
-/

namespace Felidae

/-- Exactly the app hashes of the given blocks are recorded, each under the height before its
block. -/
structure RecordsAppHashes (older : List Block) (s : Store) : Prop where
  recorded : ∀ block ∈ older, ∀ k : Height, k.value + 1 = block.request.height.value →
    State.previousAppHash k s = .ok block.response.appHash
  missing : ∀ k : Height, older.length ≤ k.value →
    State.previousAppHash k s = .error (.reject "app hash not found in state")

namespace State

theorem previousAppHash_congr {s t : Store}
    (h : Table.apphash.entries s = Table.apphash.entries t) (k : Height) :
    previousAppHash k s = previousAppHash k t := by
  have hget := Table.get_congr h Bytes (rfl :
    Substore.internal.prefixed ("apphash/".toList ++ padHeight k)
      = Table.apphash.head ++ padHeight k)
  rw [previousAppHash, previousAppHash, hget]

theorem previousAppHash_put_self (k : Height) (a : AppHash) (s : Store) :
    previousAppHash k (s.put (V := Bytes) .internal ("apphash/".toList ++ padHeight k) a)
      = .ok a := by
  rw [previousAppHash, Store.get_put_self (V := Bytes) rfl]
  rfl

theorem previousAppHash_put_of_ne {k k' : Height} (h : k ≠ k') (a : AppHash) (s : Store) :
    previousAppHash k' (s.put (V := Bytes) .internal ("apphash/".toList ++ padHeight k) a)
      = previousAppHash k' s := by
  have hkey : "apphash/".toList ++ padHeight k ≠ "apphash/".toList ++ padHeight k' := fun heq ↦
    h (padHeight_injective (List.append_cancel_left heq))
  rw [previousAppHash, Store.get_put_of_ne hkey, previousAppHash]

variable [Host]

/-- Before a block that has another one before it, the app hash of that one is recorded. -/
theorem recordPrevious_of_blockHeight {s : Store} {height k : Height}
    (hheight : blockHeight s = .ok height) (hk : k.value + 1 = height.value) :
    recordPrevious s = (.ok (), s.put (V := Bytes) .internal ("apphash/".toList ++ padHeight k)
      (Service.appHash s)) := by
  have hne : height.value ≠ 0 := by omega
  have hprevious : Height.ofNat? (height.value - 1) = some k := by
    rw [← hk, Nat.add_sub_cancel]
    exact dif_pos k.le
  rw [recordPrevious, hheight]
  change (if height.value = 0 then _ else _) = _
  rw [if_neg hne, recordAppHash, Exec.read_bind_of_ok hheight, if_neg hne,
    Exec.read_bind_of_ok (by rw [hprevious]; rfl), Exec.modify_apply, Service.appHash]

/-- A block sets the height. -/
theorem blockHeight_beginBlock {request : FinalizeBlock} {s t : Store}
    (h : beginBlock request s = (.ok (), t)) : blockHeight t = .ok request.height := by
  obtain ⟨_, s₁, -, h⟩ := Exec.bind_eq_ok.mp h
  obtain ⟨_, s₂, -, h⟩ := Exec.bind_eq_ok.mp h
  obtain ⟨_, s₃, hset, h⟩ := Exec.bind_eq_ok.mp h
  obtain rfl := (Prod.mk.inj hset).2
  -- nothing after it writes the height
  have hspared := (spared_expireVotes (τ := .blockHeight) rfl (by decide) (by decide)
    request.time).eq h
  rw [blockHeight, Table.get_congr hspared Height (List.append_nil (Table.head .blockHeight)).symm,
    Store.get_put_self request.height.clean]
  rfl

end State

/-! ## The moments of a block -/

section Moments

variable [Host] {τ : Table} {m : Moment Store Event}

theorem entries_of_mem_actionMoments (hτ : τ.queued = false) :
    ∀ {actions : List Action} {orders : ℕ → IterOrder} {s : Store},
      m ∈ State.actionMoments orders actions s →
        τ.entries m.before = τ.entries s ∧ τ.entries m.after = τ.entries s := by
  intro actions
  induction actions with
  | nil => exact fun hm ↦ absurd hm List.not_mem_nil
  | cons action actions ih =>
    intro orders s hm
    have hone := spared_applyAction hτ (orders 0) action s
    rw [State.actionMoments, List.mem_append, List.mem_singleton] at hm
    rcases hm with hm | rfl
    · rcases hstep : (State.applyAction (orders 0) action s).1 with e | ⟨⟩ <;> rw [hstep] at hm
      · exact absurd hm List.not_mem_nil
      · rw [← hone]
        exact ih hm
    · exact ⟨rfl, hone⟩

theorem entries_of_mem_txsMoments (hτ : τ.queued = false) :
    ∀ {txs : List Bytes} {orders : ℕ → ℕ → IterOrder} {s : Store},
      m ∈ State.txsMoments orders txs s →
        τ.entries m.before = τ.entries s ∧ τ.entries m.after = τ.entries s := by
  intro txs
  induction txs with
  | nil => exact fun hm ↦ absurd hm List.not_mem_nil
  | cons txBytes txs ih =>
    intro orders s hm
    rcases List.mem_append.mp hm with hm | hm
    · rw [← spared_execTx hτ (orders 0) txBytes s]
      exact ih hm
    · rw [State.txMoments] at hm
      split at hm
      · exact absurd hm List.not_mem_nil
      · split at hm
        · exact absurd hm List.not_mem_nil
        · exact entries_of_mem_actionMoments hτ hm

/-- At every moment of a block a table that neither votes nor promotions write is as it was when the
transactions began. -/
theorem entries_of_mem_blockMoments (hτ : τ.queued = false) (hconfig : τ ≠ .config)
    (hcanonical : τ ≠ .canonical) {orders : ℕ → ℕ → IterOrder} {request : FinalizeBlock}
    {s : Store} (hm : m ∈ State.blockMoments orders request s) :
    τ.entries m.after = τ.entries (State.begunBlock request s) ∧
      (m.event = .begin request ∨
        τ.entries m.before = τ.entries (State.begunBlock request s)) := by
  have hexecuted : τ.entries (State.executedBlock orders request s)
      = τ.entries (State.begunBlock request s) :=
    spared_execTxs hτ request.txs orders _
  rcases List.mem_cons.mp hm with rfl | hm
  · exact ⟨(spared_endBlock hτ hconfig hcanonical _).trans hexecuted, .inr hexecuted⟩
  · rcases List.mem_append.mp hm with hm | hm
    · exact (entries_of_mem_txsMoments hτ hm).symm.imp id .inr
    · obtain rfl := List.mem_singleton.mp hm
      exact ⟨rfl, .inl rfl⟩

end Moments

/-! ## The chain -/

namespace RecordsAppHashes

variable {older : List Block} {s t : Store}

theorem congr (h : RecordsAppHashes older s)
    (hst : Table.apphash.entries t = Table.apphash.entries s) : RecordsAppHashes older t where
  recorded block hblock k hk := by
    rw [State.previousAppHash_congr hst, h.recorded block hblock k hk]
  missing k hk := by rw [State.previousAppHash_congr hst, h.missing k hk]

/-- Before a block the app hash of the last one is missing, and it is recorded when the next block
begins. -/
theorem recordPrevious [Host] {last : Block} (h : RecordsAppHashes older s)
    (hlast : last.request.height.value = older.length + 1)
    (holder : ∀ block ∈ older, block.request.height.value ≤ older.length)
    (hheight : State.blockHeight s = .ok last.request.height)
    (hhash : last.response.appHash = Service.appHash s) :
    ∃ t, State.recordPrevious s = (.ok (), t) ∧ RecordsAppHashes (last :: older) t := by
  have hle := last.request.height.le
  obtain ⟨k, hk⟩ : ∃ k : Height, k.value + 1 = last.request.height.value :=
    ⟨⟨older.length, by omega⟩, hlast.symm⟩
  refine ⟨_, State.recordPrevious_of_blockHeight hheight hk, ?_, ?_⟩
  · intro block hblock k' hk'
    rcases List.mem_cons.mp hblock with rfl | hblock
    · obtain rfl : k = k' := Height.ext (by omega)
      rw [State.previousAppHash_put_self, hhash]
    · have hne : k ≠ k' := by
        rintro rfl
        have := holder block hblock
        omega
      rw [State.previousAppHash_put_of_ne hne, h.recorded block hblock k' hk']
  · intro k' hk'
    have hne : k ≠ k' := by
      rintro rfl
      rw [List.length_cons] at hk'
      omega
    rw [State.previousAppHash_put_of_ne hne]
    exact h.missing k' (by rw [List.length_cons] at hk'; omega)

end RecordsAppHashes

namespace Applied

variable [Host] {genesis : InitChain} {older : List Block} {s : Store}

/-- The blocks are numbered from 1. -/
theorem heights (h : Applied genesis older s) :
    older.map (fun block ↦ block.request.height.value)
      = (List.range' 1 older.length).reverse := by
  induction h with
  | start => rfl
  | @block older s t block happlied hheight hfinalize ih =>
    rw [List.map_cons, ih, hheight, List.length_cons, List.range'_concat, List.reverse_append,
      Nat.one_mul, Nat.add_comm 1]
    rfl

theorem height_le (h : Applied genesis older s) {block : Block} (hblock : block ∈ older) :
    block.request.height.value ≤ older.length := by
  have hmem := List.mem_map_of_mem (f := fun block ↦ block.request.height.value) hblock
  rw [h.heights, List.mem_reverse, List.mem_range'_1] at hmem
  omega

theorem blockHeight {block : Block} (h : Applied genesis (block :: older) s) :
    State.blockHeight s = .ok block.request.height := by
  cases h with
  | block happlied hheight hfinalize =>
    obtain ⟨_, s₁, -, hfinalize⟩ := Exec.bind_eq_ok.mp hfinalize
    obtain ⟨response, s₂, hrun, hreturn⟩ := Exec.bind_eq_ok.mp hfinalize
    obtain ⟨⟨⟩, s₃, hbegin, hrun⟩ := Exec.bind_eq_ok.mp hrun
    obtain ⟨results, s₄, hexec, hrun⟩ := Exec.bind_eq_ok.mp hrun
    obtain ⟨updates, s₅, hend, hrun⟩ := Exec.bind_eq_ok.mp hrun
    obtain rfl := (Prod.mk.inj hrun).2
    obtain rfl := (Prod.mk.inj hreturn).2
    have hspared : Table.blockHeight.entries s₅ = Table.blockHeight.entries s₃ :=
      ((spared_endBlock rfl (by decide) (by decide)).eq hend).trans
        ((spared_execTxs rfl _ _).eq hexec)
    rw [State.blockHeight,
      Table.get_congr hspared Height (List.append_nil (Table.head .blockHeight)).symm]
    exact State.blockHeight_beginBlock hbegin

/-- When a block begins, the app hash of the block before it is recorded. -/
theorem recordPrevious (h : Applied genesis older s) (hrecords : RecordsAppHashes older.tail s) :
    ∃ t, State.recordPrevious s = (.ok (), t) ∧ RecordsAppHashes older t := by
  cases older with
  | nil => exact ⟨s, Service.recordPrevious_of_lastHeight h.lastHeight_eq_zero, hrecords⟩
  | cons last older =>
    have hheight := h.blockHeight
    have hhash := h.appHash_eq
    cases h with
    | block happlied hlast hfinalize =>
      exact hrecords.recordPrevious hlast (fun _ ↦ happlied.height_le) hheight hhash

/-- Between two blocks the app hashes of all blocks but the last one are recorded. -/
theorem records (h : Applied genesis older s) : RecordsAppHashes older.tail s := by
  induction h with
  | start hinit =>
    have hempty : RecordsAppHashes [] Store.empty := by
      refine ⟨fun _ hblock ↦ absurd hblock List.not_mem_nil, fun k _ ↦ ?_⟩
      rw [State.previousAppHash, Store.get]
      rfl
    exact hempty.congr ((spared_initChain (by decide) (by decide) (by decide) genesis).eq hinit)
  | @block older s t block happlied hheight hfinalize ih =>
    obtain ⟨s₁, hrecord, hrecords⟩ := happlied.recordPrevious ih
    obtain ⟨_, s₁', hrecord', hfinalize⟩ := Exec.bind_eq_ok.mp hfinalize
    obtain ⟨-, rfl⟩ := Prod.mk.inj (hrecord.symm.trans hrecord')
    obtain ⟨response, s₂, hrun, hreturn⟩ := Exec.bind_eq_ok.mp hfinalize
    obtain ⟨-, rfl⟩ := Prod.mk.inj hreturn
    refine hrecords.congr (Exec.Keeps.eq ?_ hrun)
    exact (spared_beginBlock rfl (by decide) (by decide) (by decide) _).bind fun _ ↦
      (spared_execTxs rfl _ _).bind fun _ ↦
      (spared_endBlock rfl (by decide) (by decide)).bind fun _ ↦ Exec.keeps_pure _

/-- At every moment of the next block exactly the app hashes of the blocks are recorded. -/
theorem records_of_mem_blockMoments (h : Applied genesis older s) {orders : ℕ → ℕ → IterOrder}
    {request : FinalizeBlock} {m : Moment Store Event}
    (hm : m ∈ State.blockMoments orders request s) :
    RecordsAppHashes older m.after ∧
      (m.event ≠ .begin request → RecordsAppHashes older m.before) := by
  obtain ⟨t, hrecord, hrecords⟩ := h.recordPrevious h.records
  have hbegun : RecordsAppHashes older (State.begunBlock request s) := by
    rw [State.begunBlock, Exec.bind_of_ok hrecord]
    exact hrecords.congr (spared_beginBlock rfl (by decide) (by decide) (by decide) request t)
  obtain ⟨hafter, hbefore⟩ :=
    entries_of_mem_blockMoments (τ := .apphash) rfl (by decide) (by decide) hm
  exact ⟨hbegun.congr hafter, fun hne ↦ hbegun.congr (hbefore.resolve_left hne)⟩

end Applied

/-- What is recorded for some blocks is recorded for these and later ones. -/
theorem RecordsAppHashes.mono {newer older : List Block} {s t : Store}
    (hs : RecordsAppHashes older s) (ht : RecordsAppHashes (newer ++ older) t)
    (hheights : older.map (fun block ↦ block.request.height.value)
      = (List.range' 1 older.length).reverse) {k : Height} {a : AppHash}
    (ha : State.previousAppHash k s = .ok a) : State.previousAppHash k t = .ok a := by
  by_cases hk : older.length ≤ k.value
  · cases (hs.missing k hk).symm.trans ha
  · have hmem : k.value + 1 ∈ older.map fun block ↦ block.request.height.value := by
      rw [hheights, List.mem_reverse, List.mem_range'_1]
      omega
    obtain ⟨block, hblock, hheight⟩ := List.mem_map.mp hmem
    rw [ht.recorded block (List.mem_append_right _ hblock) k hheight.symm,
      ← hs.recorded block hblock k hheight.symm, ha]

/-! ## Sessions -/

/-- The blocks that are committed in a phase. -/
def Phase.settled : Phase → List Block → List Block
  | .finalized _, blocks => blocks.tail
  | _, blocks => blocks

/-- What a session that waits for its next block has to have recorded in every moment of that block:
exactly the app hashes of the blocks so far, as they were announced and committed, and all that was
recorded at a moment of an earlier block. -/
structure RecordsCommits [Host] (h : List (Moment (Phase × NodeStore) Exchange)) (b : NodeStore) :
    Prop where
  heights : (blocks h).map (fun block ↦ block.request.height.value)
    = (List.range' 1 (blocks h).length).reverse
  commits : commits h = (blocks h).map fun block ↦ block.response.appHash
  recorded : ∀ orders request, ∀ x ∈ State.blockMoments orders request b.state.view,
    RecordsAppHashes (blocks h) x.after ∧
      (x.event ≠ .begin request → RecordsAppHashes (blocks h) x.before)
  kept : ∀ newer m older, h = newer ++ m :: older → ∀ earlier,
    m.event.request = .finalizeBlock earlier →
      ∀ y ∈ State.blockMoments m.event.orders earlier m.before.2.state.view,
      ∀ orders request, ∀ x ∈ State.blockMoments orders request b.state.view, ∀ k a,
        State.previousAppHash k y.after = .ok a → State.previousAppHash k x.after = .ok a

section Sessions

variable [Host] {h : List (Moment (Phase × NodeStore) Exchange)}

/-- What the commits report are the app hashes of the blocks. -/
theorem Session.commits_eq {s : Phase × NodeStore} (hist : Session h s) :
    commits h = (s.1.settled (blocks h)).map fun block ↦ block.response.appHash := by
  induction hist with
  | start hinit =>
    subst hinit
    rfl
  | @next h s t e hist hstep ih =>
    have hstands := Session.stands hist
    rw [commits, blocks, filterMap_cons_eq, filterMap_cons_eq]
    cases hstep with
    | initChain hcall => exact ih
    | finalizeBlock hheight hcall =>
      obtain ⟨response, b₁, -, hreturn⟩ := Exec.bind_eq_ok.mp hcall
      obtain rfl := Except.ok.inj (Prod.mk.inj hreturn).1
      exact ih
    | @commit b b' orders result height hcall =>
      obtain ⟨genesis, block, older, t, -, hblocks, -, happlied, hserved⟩ := hstands.commit orders
      obtain ⟨rfl, -⟩ := Prod.mk.inj (hserved.symm.trans hcall)
      rw [commits, Phase.settled, hblocks] at ih
      rw [ih]
      change Service.appHash t :: _ = (blocks h).map _
      rw [hblocks, List.map_cons, happlied.appHash_eq]
      rfl
    | @aside b b' orders request result phase haside hcall =>
      cases request with
      | initChain _ | finalizeBlock _ | commit => exact absurd haside id
      | _ => exact ih

/-- Before every block of a session the app hashes are recorded as they were committed. -/
theorem Session.recordsCommits {height : ℕ} {b : NodeStore}
    (hist : Session h (.committed height, b)) :
    (blocks h).length = height ∧ RecordsCommits h b := by
  obtain ⟨genesis, -, happlied, hlength, -, -⟩ := (Session.stands hist).applied
  refine ⟨hlength, happlied.heights, Session.commits_eq hist,
    fun orders request x hx ↦ happlied.records_of_mem_blockMoments hx, ?_⟩
  rintro newer m older rfl earlier hearlier y hy orders request x hx k a hrecorded
  obtain ⟨hbefore, hstep⟩ := hist.split
  have hstands := Session.stands hbefore
  have hblocks : ∃ bs, blocks (newer ++ m :: older) = bs ++ blocks older := by
    refine ⟨blocks newer ++ m.event.block?.toList, ?_⟩
    rw [blocks, List.filterMap_append, filterMap_cons_eq, ← List.append_assoc]
    rfl
  obtain ⟨bs, hbs⟩ := hblocks
  have hlater := (happlied.records_of_mem_blockMoments hx).1
  rw [hbs] at hlater
  obtain ⟨before, event, after⟩ := m
  cases hstep with
  | initChain | commit => cases hearlier
  | @aside b' b'' orders' request' result phase haside =>
    obtain rfl : request' = .finalizeBlock earlier := hearlier
    exact absurd haside id
  | finalizeBlock hheight hcall =>
    obtain ⟨genesis', -, happlied', -, -, -⟩ := hstands.applied
    obtain rfl := Request.finalizeBlock.inj hearlier
    exact (happlied'.records_of_mem_blockMoments hy).1.mono hlater happlied'.heights hrecorded

end Sessions

namespace Reference

theorem recordsCommits_serving : ∃ h b, Session h (.committed 2, b) ∧ (blocks h).length = 2 ∧
    RecordsCommits h b := by
  obtain ⟨h, ⟨phase, b⟩, hist, hphase⟩ := exists_session_of_any listed serving
    (fun r ↦ r.2.1 = .committed 2) (by decide +kernel)
  obtain rfl := of_decide_eq_true hphase
  exact ⟨h, b, hist, Session.recordsCommits hist⟩

end Reference

end Felidae
