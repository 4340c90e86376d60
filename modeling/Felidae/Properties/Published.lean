import Felidae.Chain.Refine
import Felidae.Publish.Contents
import Felidae.Publish.Reference

/-!
# The published list

What `/canonical/leaves` lists on a chain: the enrolled domains and nothing else, each once and
under the text of its own name, with the hash that was observed. So whoever reads the list knows
what is enrolled, and two nodes publish the same list exactly if the same domains are enrolled on
both.
-/

namespace Felidae

open Publish
open Std (ReflOrd OrientedCmp)

section Host

variable [Host] {s t : Store} {L M : Ledger}

/-- The leaf of an enrolled domain. -/
def leafOf (d : PrefixOrderDomain) (hash : Hash32) : Str × Str :=
  ((Key.canonical d).text, hexEncode (Proto.Stored.bytes hash.bytes).encode)

theorem leafOf_injective [LawfulHost] {d d' : PrefixOrderDomain} {hash hash' : Hash32}
    (h : leafOf d hash = leafOf d' hash') : d = d' ∧ hash = hash' := by
  obtain ⟨hkey, hvalue⟩ := Prod.mk.inj h
  have hbytes : hash.bytes = hash'.bytes :=
    Proto.Stored.bytes.inj (Proto.Stored.eq_of_encode_eq rfl (hexEncode_injective hvalue))
  obtain ⟨bytes, hlength⟩ := hash
  obtain rfl := hbytes
  exact ⟨Key.canonical.inj (Key.text_injective hkey), rfl⟩

/-- The list says what is enrolled: every enrolled domain is listed with its hash, nothing else is,
and the leaves are in the order of the names. -/
structure ListsEnrolled (leaves : List (Str × Str)) (L : Ledger) : Prop where
  mem_iff : ∀ leaf, leaf ∈ leaves ↔ ∃ d hash, L.canonical d = some hash ∧ leaf = leafOf d hash
  ordered : leaves.Pairwise fun a b ↦ compare a.1 b.1 = .lt

/-- Who reads the list knows what is enrolled. -/
theorem ListsEnrolled.canonical_eq [LawfulHost] {leaves : List (Str × Str)}
    (h : ListsEnrolled leaves L) (h' : ListsEnrolled leaves M) : L.canonical = M.canonical := by
  have hle : ∀ {L M : Ledger}, ListsEnrolled leaves L → ListsEnrolled leaves M →
      ∀ d hash, L.canonical d = some hash → M.canonical d = some hash := by
    intro L M h h' d hash hcanonical
    obtain ⟨d', hash', hcanonical', heq⟩ :=
      (h'.mem_iff _).mp ((h.mem_iff _).mpr ⟨d, hash, hcanonical, rfl⟩)
    obtain ⟨rfl, rfl⟩ := leafOf_injective heq
    exact hcanonical'
  exact funext fun d ↦ Option.ext fun hash ↦ ⟨hle h h' d hash, hle h' h d hash⟩

/-- And the list is determined by it. -/
theorem ListsEnrolled.eq {leaves leaves' : List (Str × Str)} (h : ListsEnrolled leaves L)
    (h' : ListsEnrolled leaves' M) (hcanonical : L.canonical = M.canonical) : leaves = leaves' := by
  have hnodup : ∀ {l : List (Str × Str)},
      (l.Pairwise fun a b ↦ compare a.1 b.1 = .lt) → l.Nodup := by
    intro l hl
    refine hl.imp fun {a b} hlt heq ↦ ?_
    rw [heq, ReflOrd.compare_self] at hlt
    cases hlt
  -- the same leaves, in the one order that the names have
  have hperm : leaves.Perm leaves' := by
    refine (List.perm_ext_iff_of_nodup (hnodup h.ordered) (hnodup h'.ordered)).mpr fun leaf ↦ ?_
    rw [h.mem_iff, h'.mem_iff, hcanonical]
  refine hperm.eq_of_pairwise (fun a b _ _ hlt hgt ↦ ?_) h.ordered h'.ordered
  exact absurd hgt (OrientedCmp.not_lt_of_lt hlt)

omit [Host] in
/-- The leaves of a response are those of the snapshot. -/
theorem leaves_of_canonicalLeaves [MerkleTree] {snapshot : Snapshot}
    {response : CanonicalLeavesResponse} (h : canonicalLeaves snapshot = .ok response) :
    response.leaves = exportLeaves snapshot := by
  obtain ⟨_, -, h⟩ := except_bind_eq_ok.mp h
  obtain ⟨_, -, h⟩ := except_bind_eq_ok.mp h
  rw [← Except.ok.inj h]

namespace Represents

/-- The leaves are the enrolled domains. -/
theorem mem_exportLeaves (h : Represents s L) {leaf : Str × Str} :
    leaf ∈ exportLeaves s.snapshot ↔
      ∃ d hash, L.canonical d = some hash ∧ leaf = leafOf d hash := by
  rw [exportLeaves, List.mem_map]
  constructor
  · rintro ⟨⟨key, value⟩, hmem, rfl⟩
    obtain ⟨hget, hprefix⟩ := PrefixMap.mem_scan.mp hmem
    obtain ⟨k, rfl⟩ := h.exists_key hget
    have hsubstore := Substore.eq_of_prefix hprefix (substore_prefix_text k)
    rw [h.getElem?_snapshot] at hget
    obtain ⟨v, hv, rfl⟩ := Option.map_eq_some_iff.mp hget
    cases k with
    | canonical d =>
      obtain ⟨hash, hhash, rfl⟩ := Option.map_eq_some_iff.mp hv
      exact ⟨d, hash, hhash, rfl⟩
    | _ => cases hsubstore
  -- an enrolled domain is scanned
  · rintro ⟨d, hash, hcanonical, rfl⟩
    refine ⟨((Key.canonical d).text, _), PrefixMap.mem_scan.mpr ⟨?_, ?_⟩, rfl⟩
    · rw [h.getElem?_snapshot, Ledger.view, hcanonical]
      rfl
    · exact List.prefix_append _ _

theorem exportLeaves_lists (h : Represents s L) : ListsEnrolled (exportLeaves s.snapshot) L where
  mem_iff := fun _ ↦ h.mem_exportLeaves
  ordered := List.pairwise_map.mpr (PrefixMap.pairwise_scan _ _)

/-- Whether and as what the leaves are published depends on the height only. -/
theorem canonicalLeaves [MerkleTree] (h : Represents s L) :
    (L.height = none →
      canonicalLeaves s.snapshot = .error (.reject "block height not found in state")) ∧
    ∀ height, L.height = some height →
      MerkleTree.decodeHeight (DomainType.toStored height).encode = .ok height →
      ∃ response, canonicalLeaves s.snapshot = .ok response ∧
        response.blockHeight = height.value ∧ response.leaves = exportLeaves s.snapshot := by
  have hget : s.snapshot[Substore.internal.prefixed "current/block_height".toList]? =
      (L.height.map DomainType.toStored).map Proto.Stored.encode :=
    h.getElem?_snapshot .blockHeight
  constructor
  · intro hnone
    rw [hnone] at hget
    rw [Publish.canonicalLeaves, hget]
    rfl
  · intro height hheight hdecode
    rw [hheight, Option.map_some, Option.map_some] at hget
    rw [Publish.canonicalLeaves, hget, okOr_some, except_ok_bind, hdecode]
    exact ⟨_, rfl, rfl, rfl⟩

end Represents

/-- What a node publishes, on whatever run, says what is enrolled: before the first block nothing is
published, and from then on the leaves list the enrolled domains, so that two nodes publish the same
leaves exactly if the same is enrolled on both. -/
theorem Run.published_exact [LawfulHost] [MerkleTree] {genesis genesis' : InitChain}
    {requests requests' : List FinalizeBlock} {ms ms' : List (Moment Store Event)}
    (hrun : Run genesis requests ms s) (hrun' : Run genesis' requests' ms' t) :
    ∃ L M, Represents s L ∧ Represents t M ∧
      (L.height = none →
        canonicalLeaves s.snapshot = .error (.reject "block height not found in state")) ∧
      ∀ height, L.height = some height →
        MerkleTree.decodeHeight (DomainType.toStored height).encode = .ok height →
        ∃ response, canonicalLeaves s.snapshot = .ok response ∧
          response.blockHeight = height.value ∧ ListsEnrolled response.leaves L ∧
          ∀ response', canonicalLeaves t.snapshot = .ok response' →
            (response.leaves = response'.leaves ↔ L.canonical = M.canonical) := by
  obtain ⟨L, hs, -⟩ := hrun.exists_represents (.inl rfl)
  obtain ⟨M, ht, -⟩ := hrun'.exists_represents (.inl rfl)
  refine ⟨L, M, hs, ht, hs.canonicalLeaves.1, fun height hheight hdecode ↦ ?_⟩
  obtain ⟨response, hresponse, hvalue, hleaves⟩ := hs.canonicalLeaves.2 height hheight hdecode
  have hlists : ListsEnrolled response.leaves L := hleaves ▸ hs.exportLeaves_lists
  refine ⟨response, hresponse, hvalue, hlists, fun response' hresponse' ↦ ?_⟩
  have hlists' : ListsEnrolled response'.leaves M :=
    leaves_of_canonicalLeaves hresponse' ▸ ht.exportLeaves_lists
  constructor
  · intro heq
    exact ListsEnrolled.canonical_eq hlists (heq ▸ hlists')
  · exact hlists.eq hlists'

end Host

namespace Reference

/-- After two blocks the domain that was observed is published. -/
theorem published_exact_enrolling : ∃ ms s, Run genesis enrolling ms s ∧
    ∃ L response, Represents s L ∧ canonicalLeaves s.snapshot = .ok response ∧
      response.blockHeight = 2 ∧ ListsEnrolled response.leaves L := by
  obtain ⟨ms, s, hrun, hread⟩ := exists_run_of_any genesis listed enrolling
    (fun r ↦ (State.blockHeight r.2).toOption.map Height.value == some 2) (by decide +kernel)
  obtain ⟨L, M, hs, -, -, hpublished⟩ := hrun.published_exact hrun
  have hvalue := beq_iff_eq.mp hread
  rw [hs.blockHeight] at hvalue
  rcases hheight : L.height with _ | height
  · rw [hheight] at hvalue
    cases hvalue
  · rw [hheight, okOr_some] at hvalue
    obtain rfl : height = ⟨2, by omega⟩ := Height.ext (Option.some.inj hvalue)
    obtain ⟨response, hresponse, hnumber, hlists, -⟩ := hpublished _ hheight (by decide +kernel)
    exact ⟨ms, s, hrun, L, response, hs, hresponse, hnumber, hlists⟩

end Reference

end Felidae
