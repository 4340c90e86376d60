import Mathlib.Data.List.Nodup
import Mathlib.Logic.Function.Basic
import Std.Data.ExtTreeMap.Lemmas

/-!
# Ordered maps scanned by prefix

An ordered key-value store whose keys are strings or byte strings is used in three ways: point
reads, point writes, and scans of all keys with a given prefix in key order. The map itself is
`Std.ExtTreeMap` with its lexicographic order; this file adds the scan.

A program usually lays several tables out in one such map, giving each a literal head and an
injective encoding of the table's own keys. `Region` says that the part of the map below a head is
exactly such a table, and the lemmas about it turn writes of encoded keys into updates of the
table and scans into membership statements, so that no later proof looks at a string.
-/

open Std

namespace Felidae

universe u v

/-- A store of values under strings over `κ`, in lexicographic order. -/
abbrev PrefixMap (κ : Type u) [Ord κ] (α : Type v) := ExtTreeMap (List κ) α

namespace PrefixMap

variable {κ : Type u} [Ord κ] [TransOrd κ] {α : Type v}

/-- All entries whose key starts with `p`, in key order. -/
def scan [DecidableEq κ] (m : PrefixMap κ α) (p : List κ) : List (List κ × α) :=
  m.toList.filter fun e ↦ p.isPrefixOf e.1

theorem mem_scan [LawfulEqOrd κ] [DecidableEq κ] {m : PrefixMap κ α} {p k : List κ} {a : α} :
    (k, a) ∈ m.scan p ↔ m[k]? = some a ∧ p <+: k := by
  rw [scan, List.mem_filter, ExtTreeMap.mem_toList_iff_getElem?_eq_some,
    List.isPrefixOf_iff_prefix]

theorem pairwise_scan [DecidableEq κ] (m : PrefixMap κ α) (p : List κ) :
    (m.scan p).Pairwise fun a b ↦ compare a.1 b.1 = .lt :=
  ExtTreeMap.ordered_keys_toList.filter _

theorem nodup_keys_scan [DecidableEq κ] (m : PrefixMap κ α) (p : List κ) :
    ((m.scan p).map Prod.fst).Nodup := by
  rw [List.Nodup, List.pairwise_map]
  refine (pairwise_scan m p).imp fun {a b} hab heq ↦ ?_
  rw [heq, ReflOrd.compare_self] at hab
  exact Ordering.noConfusion hab

theorem getElem?_insert_self (m : PrefixMap κ α) (k : List κ) (a : α) :
    (m.insert k a)[k]? = some a := ExtTreeMap.getElem?_insert_self

theorem getElem?_insert_of_ne [LawfulEqOrd κ] {m : PrefixMap κ α} {k k' : List κ} {a : α}
    (h : k ≠ k') :
    (m.insert k a)[k']? = m[k']? := by
  rw [ExtTreeMap.getElem?_insert, if_neg (by rwa [Std.compare_eq_iff_eq])]

theorem insert_insert [LawfulEqOrd κ] (m : PrefixMap κ α) (k : List κ) (a b : α) :
    (m.insert k a).insert k b = m.insert k b := by
  refine ExtTreeMap.ext_getElem? fun k' ↦ ?_
  by_cases h : k = k'
  · subst h
    rw [getElem?_insert_self, getElem?_insert_self]
  · rw [getElem?_insert_of_ne h, getElem?_insert_of_ne h, getElem?_insert_of_ne h]

theorem getElem?_erase_self (m : PrefixMap κ α) (k : List κ) : (m.erase k)[k]? = none :=
  ExtTreeMap.getElem?_erase_self

theorem getElem?_erase_of_ne [LawfulEqOrd κ] {m : PrefixMap κ α} {k k' : List κ} (h : k ≠ k') :
    (m.erase k)[k']? = m[k']? := by
  rw [ExtTreeMap.getElem?_erase, if_neg (by rwa [Std.compare_eq_iff_eq])]

/-- A scan shows the part of the map below the prefix. -/
theorem scan_congr [LawfulEqOrd κ] [DecidableEq κ] {m n : PrefixMap κ α} {p : List κ}
    (h : ∀ k, p <+: k → m[k]? = n[k]?) : m.scan p = n.scan p := by
  have hperm : (m.scan p).Perm (n.scan p) := by
    rw [List.perm_ext_iff_of_nodup (List.Nodup.of_map Prod.fst (nodup_keys_scan m p))
      (List.Nodup.of_map Prod.fst (nodup_keys_scan n p))]
    rintro ⟨k, a⟩
    rw [mem_scan, mem_scan]
    exact and_congr_left fun hk ↦ by rw [h k hk]
  refine List.Perm.eq_of_pairwise (fun a b _ _ hab hba ↦ ?_) (pairwise_scan m p)
    (pairwise_scan n p) hperm
  cases (OrientedCmp.gt_of_lt hab).symm.trans hba

/-- Entries inserted one after the other; a later one replaces an earlier one with its key. -/
def insertAll (m : PrefixMap κ α) (es : List (List κ × α)) : PrefixMap κ α :=
  es.foldl (fun m e ↦ m.insert e.1 e.2) m

theorem insertAll_cons (m : PrefixMap κ α) (e : List κ × α) (es : List (List κ × α)) :
    m.insertAll (e :: es) = insertAll (m.insert e.1 e.2) es := rfl

/-- What is in the map afterwards was inserted or there before. -/
theorem mem_or_of_getElem?_insertAll [LawfulEqOrd κ] {es : List (List κ × α)} {k : List κ} {a : α} :
    ∀ {m : PrefixMap κ α}, (m.insertAll es)[k]? = some a → (k, a) ∈ es ∨ m[k]? = some a := by
  induction es with
  | nil => exact fun h ↦ .inr h
  | cons e es ih =>
    intro m h
    rcases ih (insertAll_cons m e es ▸ h) with hmem | hget
    · exact .inl (List.mem_cons_of_mem _ hmem)
    · by_cases hk : e.1 = k
      · subst hk
        rw [getElem?_insert_self] at hget
        exact .inl (Option.some.inj hget ▸ List.mem_cons_self)
      · rw [getElem?_insert_of_ne hk] at hget
        exact .inr hget

/-- Under an inserted key there is an inserted value. -/
theorem exists_getElem?_insertAll [LawfulEqOrd κ] {es : List (List κ × α)} {k : List κ} :
    ∀ {m : PrefixMap κ α}, ((∃ a, (k, a) ∈ es) ∨ ∃ a, m[k]? = some a) →
      ∃ a, (m.insertAll es)[k]? = some a := by
  induction es with
  | nil =>
    rintro m (⟨a, ha⟩ | h)
    · exact absurd ha List.not_mem_nil
    · exact h
  | cons e es ih =>
    intro m h
    rw [insertAll_cons]
    apply ih
    by_cases hk : e.1 = k
    · exact .inr ⟨e.2, hk ▸ getElem?_insert_self m e.1 e.2⟩
    · rw [getElem?_insert_of_ne hk]
      refine h.imp (fun ha ↦ ?_) id
      obtain ⟨a, ha⟩ := ha
      rcases List.mem_cons.mp ha with rfl | ha
      · exact absurd rfl hk
      · exact ⟨a, ha⟩

/-- If no key is given two values, then the map holds exactly what was inserted. -/
theorem getElem?_insertAll_iff [LawfulEqOrd κ] {es : List (List κ × α)}
    (hes : ∀ k a b, (k, a) ∈ es → (k, b) ∈ es → a = b) {k : List κ} {a : α} :
    ((∅ : PrefixMap κ α).insertAll es)[k]? = some a ↔ (k, a) ∈ es := by
  have hmem : ∀ {b}, ((∅ : PrefixMap κ α).insertAll es)[k]? = some b → (k, b) ∈ es := fun h ↦
    (mem_or_of_getElem?_insertAll h).resolve_right fun hget ↦ by
      rw [ExtTreeMap.getElem?_empty] at hget
      cases hget
  refine ⟨hmem, fun ha ↦ ?_⟩
  obtain ⟨b, hb⟩ := exists_getElem?_insertAll (m := (∅ : PrefixMap κ α)) (.inl ⟨a, ha⟩)
  rw [hb, hes k a b ha (hmem hb)]

end PrefixMap

/-! ## One table inside the map -/

section Region

variable {κ : Type u} [Ord κ] [TransOrd κ] {α : Type v} {K : Type*}

/-- Below `head`, the map holds exactly the table `view`, whose keys are encoded by `enc`. -/
structure Region (m : PrefixMap κ α) (head : List κ) (enc : K → List κ) (view : K → Option α) :
    Prop where
  get : ∀ k, m[head ++ enc k]? = view k
  covered : ∀ key a, m[key]? = some a → head <+: key → ∃ k, key = head ++ enc k

namespace Region

variable {m m' : PrefixMap κ α} {head : List κ} {enc : K → List κ} {view : K → Option α}

/-- A map without keys below `head` holds the empty table there. -/
theorem empty (h : ∀ key a, m[key]? = some a → ¬head <+: key) :
    Region m head enc fun _ ↦ none where
  get k := by
    rcases hk : m[head ++ enc k]? with _ | a
    · rfl
    · exact absurd (List.prefix_append _ _) (h _ a hk)
  covered key a hka hp := absurd hp (h key a hka)

/-- Two maps that agree below `head` hold the same table there. -/
theorem congr (h : Region m head enc view) (hm : ∀ key, head <+: key → m'[key]? = m[key]?) :
    Region m' head enc view where
  get k := by rw [hm _ (List.prefix_append _ _), h.get]
  covered key a hka hp := h.covered key a (by rw [← hm key hp, hka]) hp

/-- Two maps hold the same under a key, if their tables agree wherever it is the key of an entry. -/
theorem getElem?_congr {view' : K → Option α} (h : Region m head enc view)
    (h' : Region m' head enc view') {key : List κ} (hkey : head <+: key)
    (heq : ∀ k, key = head ++ enc k → view' k = view k) : m'[key]? = m[key]? := by
  by_cases hk : ∃ k, key = head ++ enc k
  · obtain ⟨k, hk⟩ := hk
    rw [hk, h.get, h'.get, heq k hk]
  · have hnone : ∀ {n : PrefixMap κ α} {w : K → Option α},
        Region n head enc w → n[key]? = none := by
      intro n w hn
      rcases hget : n[key]? with _ | a
      · rfl
      · exact absurd (hn.covered key a hget hkey) hk
    rw [hnone h, hnone h']

theorem insert [LawfulEqOrd κ] [DecidableEq K] (h : Region m head enc view) (henc :
  Function.Injective enc)
    (k : K) (a : α) :
    Region (m.insert (head ++ enc k) a) head enc (Function.update view k (some a)) where
  get k' := by
    by_cases hk : k' = k
    · rw [hk, PrefixMap.getElem?_insert_self, Function.update_self]
    · have hne : head ++ enc k ≠ head ++ enc k' := fun he ↦
        hk (henc (List.append_cancel_left he)).symm
      rw [PrefixMap.getElem?_insert_of_ne hne, Function.update_of_ne hk, h.get]
  covered key b hkb hp := by
    by_cases hk : head ++ enc k = key
    · exact ⟨k, hk.symm⟩
    · rw [PrefixMap.getElem?_insert_of_ne hk] at hkb
      exact h.covered key b hkb hp

theorem erase [LawfulEqOrd κ] [DecidableEq K] (h : Region m head enc view) (henc :
  Function.Injective enc)
    (k : K) : Region (m.erase (head ++ enc k)) head enc (Function.update view k none) where
  get k' := by
    by_cases hk : k' = k
    · rw [hk, PrefixMap.getElem?_erase_self, Function.update_self]
    · have hne : head ++ enc k ≠ head ++ enc k' := fun he ↦
        hk (henc (List.append_cancel_left he)).symm
      rw [PrefixMap.getElem?_erase_of_ne hne, Function.update_of_ne hk, h.get]
  covered key b hkb hp := by
    by_cases hk : head ++ enc k = key
    · exact ⟨k, hk.symm⟩
    · rw [PrefixMap.getElem?_erase_of_ne hk] at hkb
      exact h.covered key b hkb hp

/-- A scan below the head lists the entries of the table whose encoded key matches. -/
theorem mem_scan [LawfulEqOrd κ] [DecidableEq κ] (h : Region m head enc view) {p key : List κ}
    {a : α} :
    (key, a) ∈ m.scan (head ++ p) ↔ ∃ k, key = head ++ enc k ∧ p <+: enc k ∧ view k = some a := by
  rw [PrefixMap.mem_scan]
  constructor
  · rintro ⟨hka, hp⟩
    obtain ⟨k, rfl⟩ := h.covered key a hka ((List.prefix_append _ _).trans hp)
    exact ⟨k, rfl, (List.prefix_append_right_inj head).mp hp, by rw [← h.get, hka]⟩
  · rintro ⟨k, rfl, hp, hv⟩
    exact ⟨by rw [h.get, hv], (List.prefix_append_right_inj head).mpr hp⟩

/-- A scan, as a list of table keys. If the entries a scan meets are the images of the indices that
satisfy `P`, each of one index, then the scan lists these indices, in the order of their keys. -/
theorem exists_scan [LawfulEqOrd κ] [DecidableEq κ] {ι : Type*} (h : Region m head enc view)
    {p : List κ} {P : ι → Prop} {key : ι → K} {val : ι → α}
    (hcover : ∀ k a, view k = some a → p <+: enc k → ∃ i, P i ∧ key i = k ∧ val i = a)
    (hmem : ∀ i, P i → view (key i) = some (val i) ∧ p <+: enc (key i))
    (hinj : ∀ i j, P i → P j → key i = key j → i = j) (henc : Function.Injective enc) :
    ∃ is : List ι, m.scan (head ++ p) = is.map (fun i ↦ (head ++ enc (key i), val i)) ∧
      (∀ i, i ∈ is ↔ P i) ∧
      is.Pairwise fun i j ↦ compare (head ++ enc (key i)) (head ++ enc (key j)) = .lt := by
  have hex : ∀ l : List (List κ × α), (∀ e ∈ l, e ∈ m.scan (head ++ p)) →
      ∃ is : List ι, l = is.map (fun i ↦ (head ++ enc (key i), val i)) ∧ ∀ i ∈ is, P i := by
    intro l
    induction l with
    | nil => exact fun _ ↦ ⟨[], rfl, by simp⟩
    | cons e l ih =>
      intro hl
      obtain ⟨is, rfl, his⟩ := ih fun e he ↦ hl e (List.mem_cons_of_mem _ he)
      obtain ⟨k, hk, hp, ha⟩ := h.mem_scan.mp (hl e List.mem_cons_self)
      obtain ⟨i, hi, rfl, hval⟩ := hcover k e.2 ha hp
      refine ⟨i :: is, ?_, by simpa [hi] using his⟩
      rw [List.map_cons, hval, ← hk]
  obtain ⟨is, hscan, his⟩ := hex _ fun _ he ↦ he
  refine ⟨is, hscan, fun i ↦ ⟨his i, fun hi ↦ ?_⟩, ?_⟩
  · obtain ⟨hv, hp⟩ := hmem i hi
    have hentry := h.mem_scan.mpr ⟨key i, rfl, hp, hv⟩
    rw [hscan] at hentry
    obtain ⟨j, hj, heq⟩ := List.mem_map.mp hentry
    have hkey := henc (List.append_cancel_left (congrArg Prod.fst heq))
    rwa [← hinj j i (his j hj) hi hkey]
  · have hpair := PrefixMap.pairwise_scan m (head ++ p)
    rwa [hscan, List.pairwise_map] at hpair

end Region

end Region

end Felidae
