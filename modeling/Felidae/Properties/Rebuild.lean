import Felidae.Publish.Reconstruct
import Felidae.Publish.Reference

/-!
# Rebuilding an export

Leaf for leaf, what is exported is what is written into the light client's store. But the store is
committed without a batch having been staged, so that every rebuild ends with an error; staged and
then committed, the store would hold the canonical substore that was exported.
-/

open Std

namespace Felidae.Publish

/-- The leaves, with their values decoded. -/
abbrev Decodes (leaves : List (Str × Str)) (pairs : List (Str × Bytes)) : Prop :=
  List.Forall₂ (fun leaf pair ↦ leaf.1 = pair.1 ∧ hexDecode leaf.2 = some pair.2) leaves pairs

theorem decodes_exportLeaves (s : Snapshot) :
    Decodes (exportLeaves s) (s.scan (Substore.canonical.prefixed [])) := by
  rw [exportLeaves, Decodes, List.forall₂_map_left_iff]
  exact List.forall₂_same.mpr fun e _ ↦ ⟨rfl, hexDecode_hexEncode e.2⟩

/-! ## Writing the leaves -/

theorem putLeaf_of_decodes {leaf : Str × Str} {value : Bytes} (h : hexDecode leaf.2 = some value)
    (b : RawStore) : putLeaf leaf b
      = (.ok (), { b with state := b.state.write (b.state.view.insert leaf.1 value) }) := by
  rw [putLeaf, Exec.read_bind_of_ok (by rw [h]; rfl)]
  rfl

/-- Leaves that decode are written over what the working state shows, and nothing else changes. -/
theorem putLeaves_of_decodes {leaves : List (Str × Str)} {pairs : List (Str × Bytes)}
    (h : Decodes leaves pairs) : ∀ b : RawStore, ∃ b', putLeaves leaves b = (.ok (), b') ∧
      b'.state.view = PrefixMap.insertAll b.state.view pairs ∧ b'.storage = b.storage ∧
      b'.state.snapshot = b.state.snapshot := by
  induction h with
  | nil => exact fun b ↦ ⟨b, rfl, rfl, rfl, rfl⟩
  | @cons leaf pair leaves pairs hpair _ ih =>
    intro b
    obtain ⟨b', hput, hview, hstorage, hsnapshot⟩ :=
      ih { b with state := b.state.write (b.state.view.insert leaf.1 pair.2) }
    refine ⟨b', ?_, ?_, hstorage, hsnapshot⟩
    · rw [putLeaves, Exec.forEach, Exec.bind_of_ok (putLeaf_of_decodes hpair.2 b)]
      exact hput
    · rw [hview, Delta.view_write, hpair.1]
      rfl

/-- Writing leaves stages nothing. -/
theorem keeps_putLeaves (leaves : List (Str × Str)) :
    Exec.Keeps Backend.stagedBatch (putLeaves leaves) :=
  Exec.keeps_forEach fun _ _ ↦ (Exec.keeps_read _).bind fun _ _ ↦ rfl

/-- No rebuild succeeds. -/
theorem rebuild_new_eq (leaves : List (Str × Str)) (s : Snapshot) :
    ∃ e b, rebuild leaves (.new s) = (.error e, b) := by
  rw [rebuild]
  rcases hput : putLeaves leaves (.new s) with ⟨e | ⟨⟩, b⟩
  · exact ⟨e, b, Exec.bind_of_error hput⟩
  · have hstaged : b.stagedBatch = none := (keeps_putLeaves leaves).eq hput
    rw [Exec.bind_of_ok hput, Backend.commit, hstaged]
    exact ⟨_, _, rfl⟩

/-! ## Exports -/

/-- What rebuilding an export should come to: the canonical substore that was exported. -/
def RebuildsExport (s : Snapshot) : Prop :=
  ∃ b, rebuild (exportLeaves s) (.new ∅) = (.ok (), b) ∧
    Substore.canonical.entries b.storage = Substore.canonical.entries s

/-- An export holds what is scanned, and a store it is written into shows the same. -/
theorem entries_insertAll_scan (s : Snapshot) :
    Substore.canonical.entries ((∅ : Snapshot).insertAll (s.scan (Substore.canonical.prefixed [])))
      = Substore.canonical.entries s := by
  refine Substore.entries_congr fun k ↦ Option.ext fun value ↦ ?_
  rw [PrefixMap.getElem?_insertAll_iff, PrefixMap.mem_scan]
  · exact and_iff_left (Substore.prefixed_nil_prefix_iff.mpr ⟨k, rfl⟩)
  · intro k a b ha hb
    have hget := (PrefixMap.mem_scan.mp ha).1.symm.trans (PrefixMap.mem_scan.mp hb).1
    exact Option.some.inj hget

/-- With the batch staged before it is committed, the rebuild would come to the canonical substore
that was exported. -/
theorem rebuild_prepared (s : Snapshot) (root : Snapshot → Bytes) : ∃ b : RawStore,
    (putLeaves (exportLeaves s) >>= fun _ ↦ Backend.prepareCommit root >>= fun _ ↦ Backend.commit)
      (.new ∅) = (.ok (), b) ∧
    Substore.canonical.entries b.storage = Substore.canonical.entries s := by
  obtain ⟨b, hput, hview, hstorage, hsnapshot⟩ :=
    putLeaves_of_decodes (decodes_exportLeaves s) (.new ∅)
  refine ⟨.new b.state.view, ?_, ?_⟩
  · rw [Exec.bind_of_ok hput, Exec.bind_of_ok (x := Backend.prepareCommit root) rfl,
      Backend.commit_of_staged rfl, Delta.view, hsnapshot]
    exact congrArg (fun s ↦ (Except.ok (), Backend.new (overlay s b.state.written))) hstorage
  · change Substore.canonical.entries b.state.view = _
    rw [hview, Backend.new, Delta.view_new, entries_insertAll_scan]

/-- No export is rebuilt: the light client's own store reports that nothing was staged, and the
response is not accepted. -/
theorem not_rebuildsExport [MerkleTree] (s : Snapshot) : ¬RebuildsExport s ∧
    (∃ b, rebuild (exportLeaves s) (.new ∅) = (.error (.reject
      "no staged batch to commit - prepare_commit must be called before commit"), b)) ∧
    ∀ response : CanonicalLeavesResponse, ∃ e b,
      reconstructTree { response with leaves := exportLeaves s } (.new ∅) = (.error e, b) := by
  obtain ⟨e, b, hfails⟩ := rebuild_new_eq (exportLeaves s) ∅
  refine ⟨?_, ?_, fun response ↦ ⟨e, b, ?_⟩⟩
  · rintro ⟨b', hrebuilt, -⟩
    cases (hrebuilt.symm.trans hfails)
  · obtain ⟨b', hput, -, -, -⟩ := putLeaves_of_decodes (decodes_exportLeaves s) (.new ∅)
    have hstaged : b'.stagedBatch = none := (keeps_putLeaves (exportLeaves s)).eq hput
    exact ⟨b', by rw [rebuild, Exec.bind_of_ok hput, Backend.commit, hstaged]⟩
  · rw [reconstructTree]
    exact Exec.bind_of_error hfails

end Felidae.Publish

namespace Felidae.Reference

open Publish

/-- Two domains are enrolled and exported, and the rebuild fails. -/
theorem not_rebuildsExport_snapshot : Substore.canonical.entries snapshot ≠ [] ∧
    ¬RebuildsExport snapshot := by
  refine ⟨by decide +kernel, ?_⟩
  rintro ⟨b, hrebuilt, -⟩
  have hfails : (rebuild (exportLeaves snapshot) (.new ∅)).1 = .error (.reject
      "no staged batch to commit - prepare_commit must be called before commit") := by
    decide +kernel
  rw [hrebuilt] at hfails
  cases hfails

end Felidae.Reference
