import Felidae.Ledger.Blocks

/-!
# The entries of a queue

What the four tables of a queue hold, read as the code reads them: each table is scanned as a
whole and its keys are parsed. On a store that represents a ledger the scans succeed and list the
votes, the pending changes and the entries of the two indexes, each once.
-/

namespace Felidae

namespace VoteQueue

variable [Host] {K V : Type} [DomainType V] (q : VoteQueue K V)

/-- The votes: the second, the key and the party of each. -/
def voteEntries (s : Store) : Except Fault (List (Time × Str × Str)) :=
  ((s.scan V .internal (q.votesByKeyPrefix [] false)).andThen fun e ↦
    (q.parseVotesByKeyPartyTimestamp e.1).map fun (key, party, time) ↦ (time, key, party)).collect

/-- The entries of the index of the votes. -/
def voteIndexEntries (s : Store) : Except Fault (List (Time × Str × Str)) :=
  ((s.indexScan Unit .internal q.votesByTimestampAllPrefix).andThen fun e ↦
    q.parseIndexVotesByTimestampKeyParty e.1).collect

/-- The pending changes: the second, the key and the value of each. -/
def pendingEntries (s : Store) : Except Fault (List (Time × Str × V)) :=
  ((s.scan V .internal (q.pendingByKeyPrefix [] false)).andThen fun e ↦
    (q.parsePendingByKeyTimestamp e.1).map fun (key, time) ↦ (time, key, e.2)).collect

/-- The entries of the index of the pending changes. -/
def pendingIndexEntries (s : Store) : Except Fault (List (Time × Str × V)) :=
  ((s.indexScan V .internal q.indexPendingByTimestampAllPrefix).andThen fun e ↦
    (q.parseIndexPendingByTimestampKey e.1).map fun (time, key) ↦ (time, key, e.2)).collect

end VoteQueue

/-- A scan of the table of the votes meets all votes of the queue. -/
theorem votesByKeyPrefix_nil_prefix_iff [Host] (q : QueueId) (c : Config) {x : Key} :
    Substore.internal.prefixed ((q.queue c).votesByKeyPrefix [] false) <+: x.text
      ↔ ∃ k party t, x = .vote q k party t := by
  have hpre : Substore.internal.prefixed ((q.queue c).votesByKeyPrefix [] false)
      = (Table.vote q).head := by
    simp [VoteQueue.votesByKeyPrefix, VoteQueue.exactly, Table.head, Substore.prefixed]
  rw [hpre, Key.head_prefix_text_iff]
  constructor
  · intro htable
    cases x with
    | vote q' k party t =>
      cases htable
      exact ⟨k, party, t, rfl⟩
    | _ => cases htable
  · rintro ⟨k, party, t, rfl⟩
    rfl

/-- An entry of a table of the votes, as it is read. -/
def QueueId.readVote [Host] (q : QueueId) (e : Second × q.Key × Bytes) : Time × Str × Str :=
  (e.1.toTime, QueueKey.toText e.2.1, hexEncode e.2.2)

/-- An entry of a table of the pending changes, as it is read. -/
def QueueId.readPending [Host] (q : QueueId) (e : Second × q.Key × q.Value) :
    Time × Str × q.Value :=
  (e.1.toTime, QueueKey.toText e.2.1, e.2.2)

section Entries

variable [Host] [LawfulHost] {s : Store} {L : Ledger} (q : QueueId) (c : Config)

theorem QueueId.readVote_injective : Function.Injective q.readVote := by
  rintro ⟨t, k, p⟩ ⟨t', k', p'⟩ h
  simp only [QueueId.readVote, Prod.mk.injEq] at h
  rw [Second.toTime_injective h.1, q.toText_injective h.2.1, hexEncode_injective h.2.2]

theorem Represents.voteEntries (h : Represents s L) (hL : L.Sound) :
    ∃ es : List (Second × q.Key × Bytes), (q.queue c).voteEntries s = .ok (es.map q.readVote) ∧
      (∀ t k p, (t, k, p) ∈ es ↔ ∃ v, (L.queue q).votes k p = some (t, v)) ∧
      (es.map Prod.snd).Nodup := by
  obtain ⟨es, hscan, hmem, hnodup⟩ := Laid.exists_scan h
    (p := Substore.internal.prefixed ((q.queue c).votesByKeyPrefix [] false))
    (P := fun e : (Second × q.Key × Bytes) × q.Value ↦
      (L.queue q).votes e.1.2.1 e.1.2.2 = some (e.1.1, e.2))
    (k := fun e ↦ .vote q e.1.2.1 e.1.2.2 e.1.1) (v := fun e ↦ DomainType.toStored e.2)
    (fun x a hx hpre ↦ by
      obtain ⟨k, p, t, rfl⟩ := (votesByKeyPrefix_nil_prefix_iff q c).mp hpre
      obtain ⟨v, hv, rfl⟩ := Option.map_eq_some_iff.mp hx
      exact ⟨((t, k, p), v), heldAt_eq_some.mp hv, rfl, rfl⟩)
    (fun e he ↦ ⟨by rw [Ledger.view, heldAt_eq_some.mpr he, Option.map_some],
      (votesByKeyPrefix_nil_prefix_iff q c).mpr ⟨_, _, _, rfl⟩⟩)
    (fun e e' he he' hkey ↦ by
      simp only [Key.vote.injEq, heq_eq_eq, true_and] at hkey
      rw [hkey.1, hkey.2.1, he', Option.some_inj, Prod.mk.injEq] at he
      exact Prod.ext (Prod.ext hkey.2.2 (Prod.ext hkey.1 hkey.2.1)) he.2.symm)
  have hstream := Laid.scan_eq (V := q.Value) (p := (q.queue c).votesByKeyPrefix [] false)
    (n := fun e ↦ (q.queue c).votesByKeyPartyTimestamp (QueueKey.toText e.1.2.1)
      (hexEncode e.1.2.2) e.1.1.toTime) hscan
    (fun e he ↦ hL.vote_clean q e.1.2.1 e.1.2.2 _ ((hmem e).mp he))
    (fun e ↦ by rw [votesByKeyPartyTimestamp_eq, Second.second_toTime])
  refine ⟨es.map Prod.fst, ?_, fun t k p ↦ ?_, ?_⟩
  · rw [VoteQueue.voteEntries, hstream, Results.andThen_map_ok, List.map_map]
    refine Results.collect_map fun e _ ↦ ?_
    rw [VoteQueue.parseVotesByKeyPartyTimestamp_build _ (q.slash_notMem_toText e.1.2.1)
      (slash_notMem_hexEncode _)]
    rfl
  · rw [List.mem_map]
    constructor
    · rintro ⟨⟨d, v⟩, he, rfl⟩
      exact ⟨v, (hmem _).mp he⟩
    · rintro ⟨v, hv⟩
      exact ⟨((t, k, p), v), (hmem _).mpr hv, rfl⟩
  · -- a party has one vote for a key, whatever second it was made in
    rw [List.map_map]
    refine List.Nodup.map_on (fun e he e' he' hkey ↦ ?_) hnodup
    have hv := (hmem e).mp he
    have hv' := (hmem e').mp he'
    rw [show e.1.2.1 = e'.1.2.1 from congrArg Prod.fst hkey,
      show e.1.2.2 = e'.1.2.2 from congrArg Prod.snd hkey, hv', Option.some_inj,
      Prod.mk.injEq] at hv
    exact Prod.ext (Prod.ext hv.1.symm hkey) hv.2.symm

theorem Represents.votes_eq_none (h : Represents s L) (hL : L.Sound)
    (hempty : (q.queue c).voteEntries s = .ok []) (k : q.Key) (p : Bytes) :
    (L.queue q).votes k p = none := by
  obtain ⟨es, hes, hmem, -⟩ := h.voteEntries q c hL
  have hnil : es = [] := List.map_eq_nil_iff.mp (Except.ok.inj (hes.symm.trans hempty))
  rcases hvote : (L.queue q).votes k p with _ | ⟨t, v⟩
  · rfl
  · have hlisted := (hmem t k p).mpr ⟨v, hvote⟩
    rw [hnil] at hlisted
    cases hlisted

theorem Represents.voteIndexEntries (h : Represents s L) :
    ∃ es : List (Second × q.Key × Bytes),
      (q.queue c).voteIndexEntries s = .ok (es.map q.readVote) ∧
      (∀ t k p, (t, k, p) ∈ es ↔ ((L.queue q).voteIndex t k p).isSome) ∧ es.Nodup := by
  obtain ⟨es, hstream, hmem, hnodup, -⟩ := h.voteIndexStream q c
  refine ⟨es, ?_, fun t k p ↦ hmem _, hnodup⟩
  rw [VoteQueue.voteIndexEntries, hstream]
  exact Results.collect_map fun _ _ ↦ rfl

theorem Represents.pendingEntries (h : Represents s L) (hL : L.Sound) :
    ∃ es : List (Second × q.Key × q.Value),
      (q.queue c).pendingEntries s = .ok (es.map q.readPending) ∧
      (∀ t k v, (t, k, v) ∈ es ↔ (L.queue q).pending k = some (t, v)) ∧
      (es.map fun e ↦ e.2.1).Nodup := by
  have hslash : '/' ∉ ([] : Str) := List.not_mem_nil
  obtain ⟨es, hstream, hmem, hnodup⟩ := h.pendingStreamBelow hL q c hslash
  refine ⟨es.map fun e ↦ (e.2.1, e.1, e.2.2), ?_, fun t k v ↦ ?_, ?_⟩
  · rw [VoteQueue.pendingEntries, hstream, Results.andThen_map_ok, List.map_map]
    refine Results.collect_map fun e _ ↦ ?_
    rw [VoteQueue.parsePendingByKeyTimestamp_build]
    rfl
  · rw [List.mem_map]
    constructor
    · rintro ⟨e, he, hkey⟩
      obtain ⟨rfl, rfl, rfl⟩ := hkey
      exact ((hmem e).mp he).1
    · intro hv
      exact ⟨(k, t, v), (hmem _).mpr ⟨hv, List.nil_prefix⟩, rfl⟩
  · rw [List.map_map]
    refine List.Nodup.map_on (fun e he e' he' hkey ↦ ?_) hnodup
    have hv := ((hmem e).mp he).1
    rw [show e.1 = e'.1 from hkey, ((hmem e').mp he').1, Option.some_inj] at hv
    exact Prod.ext hkey hv.symm

theorem Represents.pendingIndexEntries (h : Represents s L) (hL : L.Sound) :
    ∃ es : List (Second × q.Key × q.Value),
      (q.queue c).pendingIndexEntries s = .ok (es.map q.readPending) ∧
      (∀ t k v, (t, k, v) ∈ es ↔ (L.queue q).pending k = some (t, v)) ∧ es.Nodup := by
  obtain ⟨es, hstream, hmem, hnodup, -⟩ := h.pendingIndexStream hL q c
  refine ⟨es, ?_, fun t k v ↦ hmem _, hnodup⟩
  rw [VoteQueue.pendingIndexEntries, hstream]
  exact Results.collect_map fun _ _ ↦ rfl

end Entries

end Felidae
