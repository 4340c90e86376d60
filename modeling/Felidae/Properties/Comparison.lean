import Felidae.Chain.Refine
import Felidae.Debug.CompareState
import Felidae.Publish.Contents
import Felidae.Publish.Reference

/-!
# What a comparison shows

A comparison of the storage of two nodes names exactly the keys that the nodes do not hold alike,
wherever their chains have come from. Two scans are enough, since the chain writes nothing outside
the two substores, and so is a comparison of bytes, since values of one kind are told apart by them.
A root hash is reported as different exactly if a key of its substore is named.
-/

namespace Felidae

open Std (ExtTreeMap)

section Dumps

variable [MerkleTree] {a b : Storage} {key : Str}

/-- Every key is in a substore. -/
def Snapshot.InSubstores (s : Snapshot) : Prop :=
  ∀ key value, s[key]? = some value → ∃ substore : Substore, substore.prefixed [] <+: key

omit [MerkleTree] in
theorem mem_scans {s : Snapshot} {value : Bytes} :
    (key, value) ∈ (["internal/", "canonical/"].flatMap fun head ↦ s.scan head.toList) ↔
      s[key]? = some value ∧ ∃ substore : Substore, substore.prefixed [] <+: key := by
  have hinternal : Substore.internal.prefixed [] = "internal/".toList := by decide
  have hcanonical : Substore.canonical.prefixed [] = "canonical/".toList := by decide
  simp only [List.flatMap_cons, List.flatMap_nil, List.append_nil, List.mem_append,
    PrefixMap.mem_scan, ← and_or_left]
  refine and_congr_right fun _ ↦ ⟨?_, ?_⟩
  · rintro (h | h)
    · exact ⟨.internal, hinternal ▸ h⟩
    · exact ⟨.canonical, hcanonical ▸ h⟩
  · rintro ⟨substore, h⟩
    cases substore with
    | internal => exact .inl (hinternal ▸ h)
    | canonical => exact .inr (hcanonical ▸ h)

/-- A dump holds all keys. -/
theorem getElem?_loadAndDump (h : a.latestSnapshot.InSubstores) :
    (loadAndDump a).keys[key]? = a.latestSnapshot[key]? := by
  refine Option.ext fun value ↦ ?_
  rw [loadAndDump, PrefixMap.getElem?_insertAll_iff, mem_scans]
  -- a key that both scans list has one value
  · exact and_iff_left_of_imp fun hget ↦ h key value hget
  · intro k v w hv hw
    exact Option.some.inj ((mem_scans.mp hv).1.symm.trans (mem_scans.mp hw).1)

theorem mem_keysOnlyIn (ha : a.latestSnapshot.InSubstores) (hb : b.latestSnapshot.InSubstores) :
    key ∈ keysOnlyIn (loadAndDump a) (loadAndDump b) ↔
      (∃ value, a.latestSnapshot[key]? = some value) ∧ b.latestSnapshot[key]? = none := by
  rw [keysOnlyIn, List.mem_filter, ExtTreeMap.mem_keys, ExtTreeMap.mem_iff_isSome_getElem?,
    ExtTreeMap.contains_eq_isSome_getElem?, getElem?_loadAndDump ha, getElem?_loadAndDump hb,
    Option.isSome_iff_exists, Bool.not_eq_true', Option.isSome_eq_false_iff,
    Option.isNone_iff_eq_none]

theorem mem_valueMismatch (ha : a.latestSnapshot.InSubstores)
    (hb : b.latestSnapshot.InSubstores) : key ∈ (compareState a b).valueMismatch ↔
      ∃ v w, a.latestSnapshot[key]? = some v ∧ b.latestSnapshot[key]? = some w ∧ v ≠ w := by
  rw [compareState, compareDumps, List.mem_filter, ExtTreeMap.mem_keys,
    ExtTreeMap.mem_iff_isSome_getElem?, ExtTreeMap.contains_eq_isSome_getElem?,
    getElem?_loadAndDump ha, getElem?_loadAndDump hb]
  rcases a.latestSnapshot[key]? with _ | v <;> rcases b.latestSnapshot[key]? with _ | w <;> simp

/-- A key is named by a comparison. -/
def StateDiff.Names (d : StateDiff) (key : Str) : Prop :=
  key ∈ d.onlyA ∨ key ∈ d.onlyB ∨ key ∈ d.valueMismatch

theorem names_iff (ha : a.latestSnapshot.InSubstores) (hb : b.latestSnapshot.InSubstores) :
    (compareState a b).Names key ↔ a.latestSnapshot[key]? ≠ b.latestSnapshot[key]? := by
  have hA : key ∈ (compareState a b).onlyA ↔ _ := mem_keysOnlyIn ha hb
  have hB : key ∈ (compareState a b).onlyB ↔ _ := mem_keysOnlyIn hb ha
  rw [StateDiff.Names, hA, hB, mem_valueMismatch ha hb]
  rcases a.latestSnapshot[key]? with _ | v <;> rcases b.latestSnapshot[key]? with _ | w <;> simp

/-- Root hashes differ exactly if a key of the substore is named. -/
theorem rootHash_ne_iff [LawfulMerkleTree] (ha : a.latestSnapshot.InSubstores)
    (hb : b.latestSnapshot.InSubstores) (substore : Substore) :
    hexEncode (MerkleTree.rootHash (substore.entries a.latestSnapshot))
        ≠ hexEncode (MerkleTree.rootHash (substore.entries b.latestSnapshot)) ↔
      ∃ k, (compareState a b).Names (substore.prefixed k) := by
  rw [← not_forall_not, not_iff_not]
  simp only [names_iff ha hb, not_not]
  constructor
  · intro h k
    have hentries := LawfulMerkleTree.rootHash_injective (hexEncode_injective h)
    refine Option.ext fun value ↦ ?_
    rw [← Substore.mem_entries, ← Substore.mem_entries, hentries]
  · exact fun h ↦ by rw [Substore.entries_congr h]

end Dumps

/-! ## Two nodes -/

/-- What a comparison of two stores shows is what their ledgers do not hold alike. -/
structure StateDiff.Shows [Host] (d : StateDiff) (L M : Ledger) : Prop where
  onlyA : ∀ key, key ∈ d.onlyA ↔ ∃ k : Key, key = k.text ∧ (L.view k).isSome ∧ M.view k = none
  onlyB : ∀ key, key ∈ d.onlyB ↔ ∃ k : Key, key = k.text ∧ L.view k = none ∧ (M.view k).isSome
  valueMismatch : ∀ key, key ∈ d.valueMismatch ↔ ∃ (k : Key) (v w : Proto.Stored),
    key = k.text ∧ L.view k = some v ∧ M.view k = some w ∧ v ≠ w
  internalRoot : d.internalRootMismatch ↔
    ∃ k : Key, k.table.substore = .internal ∧ L.view k ≠ M.view k
  canonicalRoot : d.canonicalRootMismatch ↔
    ∃ k : Key, k.table.substore = .canonical ∧ L.view k ≠ M.view k
  nothing : (d.onlyA = [] ∧ d.onlyB = [] ∧ d.valueMismatch = []) ↔ L.view = M.view

section Nodes

variable [Host] [MerkleTree] {s t : Store} {L M : Ledger}

omit [MerkleTree] in
theorem Represents.inSubstores (h : Represents s L) : s.snapshot.InSubstores := by
  intro key value hget
  obtain ⟨k, rfl⟩ := h.exists_key hget
  exact ⟨_, substore_prefix_text k⟩

/-- The keys of one store only, in terms of the ledgers. -/
theorem Represents.mem_keysOnlyIn_iff (h : Represents s L) (h' : Represents t M) (v w : UInt64)
    {key : Str} : key ∈ keysOnlyIn (loadAndDump ⟨v, s.snapshot⟩) (loadAndDump ⟨w, t.snapshot⟩) ↔
      ∃ k : Key, key = k.text ∧ (L.view k).isSome ∧ M.view k = none := by
  rw [mem_keysOnlyIn h.inSubstores h'.inSubstores]
  constructor
  · rintro ⟨⟨value, hvalue⟩, hnone⟩
    obtain ⟨k, rfl⟩ := h.exists_key hvalue
    rw [h.getElem?_snapshot] at hvalue
    rw [h'.getElem?_snapshot, Option.map_eq_none_iff] at hnone
    obtain ⟨x, hx, -⟩ := Option.map_eq_some_iff.mp hvalue
    exact ⟨k, rfl, by rw [hx]; rfl, hnone⟩
  · rintro ⟨k, rfl, hsome, hnone⟩
    obtain ⟨x, hx⟩ := Option.isSome_iff_exists.mp hsome
    rw [h.getElem?_snapshot, h'.getElem?_snapshot, hx, hnone]
    exact ⟨⟨_, rfl⟩, rfl⟩

/-- The keys with two values, in terms of the ledgers. -/
theorem Represents.mem_valueMismatch_iff (h : Represents s L) (h' : Represents t M)
    (v w : UInt64) {key : Str} :
    key ∈ (compareState ⟨v, s.snapshot⟩ ⟨w, t.snapshot⟩).valueMismatch ↔
      ∃ (k : Key) (x y : Proto.Stored),
        key = k.text ∧ L.view k = some x ∧ M.view k = some y ∧ x ≠ y := by
  rw [mem_valueMismatch h.inSubstores h'.inSubstores]
  constructor
  · rintro ⟨b, b', hb, hb', hne⟩
    obtain ⟨k, rfl⟩ := h.exists_key hb
    rw [h.getElem?_snapshot] at hb
    rw [h'.getElem?_snapshot] at hb'
    obtain ⟨x, hx, rfl⟩ := Option.map_eq_some_iff.mp hb
    obtain ⟨y, hy, rfl⟩ := Option.map_eq_some_iff.mp hb'
    exact ⟨k, x, y, rfl, hx, hy, fun heq ↦ hne (congrArg _ heq)⟩
  · rintro ⟨k, x, y, rfl, hx, hy, hne⟩
    have hkind : x.kind = y.kind :=
      (Ledger.kind_of_view hx).trans (Ledger.kind_of_view hy).symm
    rw [h.getElem?_snapshot, h'.getElem?_snapshot, hx, hy]
    exact ⟨_, _, rfl, rfl, fun heq ↦ hne (Proto.Stored.eq_of_encode_eq hkind heq)⟩

/-- The comparison shows what the ledgers do not hold alike. -/
theorem Represents.compareState_shows [LawfulMerkleTree] (h : Represents s L)
    (h' : Represents t M) (v w : UInt64) :
    (compareState ⟨v, s.snapshot⟩ ⟨w, t.snapshot⟩).Shows L M := by
  have ha : (Storage.mk v s.snapshot).latestSnapshot.InSubstores := h.inSubstores
  have hb : (Storage.mk w t.snapshot).latestSnapshot.InSubstores := h'.inSubstores
  have hnames : ∀ k : Key, (compareState ⟨v, s.snapshot⟩ ⟨w, t.snapshot⟩).Names k.text ↔
      L.view k ≠ M.view k := by
    intro k
    rw [names_iff ha hb, ne_eq, h.getElem?_snapshot_eq_iff h']
  -- what is named is the text of a key
  have hkey : ∀ key, (compareState ⟨v, s.snapshot⟩ ⟨w, t.snapshot⟩).Names key →
      ∃ k : Key, key = k.text := by
    intro key hkey
    rw [names_iff ha hb] at hkey
    rcases hs : s.snapshot[key]? with _ | x
    · rcases ht : t.snapshot[key]? with _ | y
      · exact absurd (hs.trans ht.symm) hkey
      · exact h'.exists_key ht
    · exact h.exists_key hs
  have hroot : ∀ substore : Substore,
      (∃ key, (compareState ⟨v, s.snapshot⟩ ⟨w, t.snapshot⟩).Names (substore.prefixed key)) ↔
        ∃ k : Key, k.table.substore = substore ∧ L.view k ≠ M.view k := by
    intro substore
    constructor
    · -- the text of a key determines its substore
      rintro ⟨key, hnamed⟩
      obtain ⟨k, hk⟩ := hkey _ hnamed
      refine ⟨k, ?_, (hnames k).mp (hk ▸ hnamed)⟩
      exact Substore.eq_of_prefix (substore_prefix_text k)
        (hk ▸ Substore.prefixed_nil_prefix_iff.mpr ⟨key, rfl⟩)
    · rintro ⟨k, rfl, hne⟩
      obtain ⟨key, hk⟩ := Substore.prefixed_nil_prefix_iff.mp (substore_prefix_text k)
      exact ⟨key, hk ▸ (hnames k).mpr hne⟩
  have hnothing : (∀ key, ¬(compareState ⟨v, s.snapshot⟩ ⟨w, t.snapshot⟩).Names key) ↔
      L.view = M.view := by
    constructor
    · exact fun hnone ↦ funext fun k ↦ not_not.mp fun hne ↦ hnone _ ((hnames k).mpr hne)
    · intro heq key hnamed
      obtain ⟨k, rfl⟩ := hkey key hnamed
      exact (hnames k).mp hnamed (congrFun heq k)
  exact {
    onlyA := fun key ↦ h.mem_keysOnlyIn_iff h' v w
    onlyB := fun key ↦ (h'.mem_keysOnlyIn_iff h w v).trans
      (exists_congr fun k ↦ and_congr_right fun _ ↦ and_comm)
    valueMismatch := fun key ↦ h.mem_valueMismatch_iff h' v w
    internalRoot := decide_eq_true_iff.trans ((rootHash_ne_iff ha hb .internal).trans (hroot _))
    canonicalRoot := decide_eq_true_iff.trans ((rootHash_ne_iff ha hb .canonical).trans (hroot _))
    nothing := by
      rw [← hnothing, List.eq_nil_iff_forall_not_mem, List.eq_nil_iff_forall_not_mem,
        List.eq_nil_iff_forall_not_mem, ← forall_and, ← forall_and]
      exact forall_congr' fun key ↦ by rw [StateDiff.Names, not_or, not_or] }

/-- A comparison of the states of two nodes, of whatever runs, names exactly the keys that they do
not hold alike. -/
theorem Run.compareState_exact [LawfulHost] [LawfulMerkleTree] {genesis genesis' : InitChain}
    {requests requests' : List FinalizeBlock} {ms ms' : List (Moment Store Event)}
    (hrun : Run genesis requests ms s) (hrun' : Run genesis' requests' ms' t) (v w : UInt64) :
    ∃ L M, Represents s L ∧ Represents t M ∧
      (compareState ⟨v, s.snapshot⟩ ⟨w, t.snapshot⟩).Shows L M := by
  obtain ⟨L, hs, -⟩ := hrun.exists_represents (.inl rfl)
  obtain ⟨M, ht, -⟩ := hrun'.exists_represents (.inl rfl)
  exact ⟨L, M, hs, ht, hs.compareState_shows ht v w⟩

end Nodes

namespace Reference

/-- A node that has fallen back by a block is compared with one that has not. -/
theorem compareState_exact_enrolling : ∃ ms s ms' t, Run genesis enrolling ms s ∧
    Run genesis [blockAt 1 10 [found]] ms' t ∧ ∃ L M, Represents s L ∧ Represents t M ∧
      (compareState ⟨2, s.snapshot⟩ ⟨1, t.snapshot⟩).Shows L M := by
  obtain ⟨ms, s, -, hrun⟩ := exists_run
    (by decide +kernel : (Run.exec genesis (inOrder listed enrolling)).isSome)
  obtain ⟨ms', t, -, hrun'⟩ := exists_run
    (by decide +kernel : (Run.exec genesis (inOrder listed [blockAt 1 10 [found]])).isSome)
  exact ⟨ms, s, ms', t, hrun, hrun', hrun.compareState_exact hrun' 2 1⟩

end Reference

end Felidae
