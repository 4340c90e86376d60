import Felidae.Foundation.PrefixMap

/-!
# Copy on write

A delta over a snapshot records what has been written since, and leaves the snapshot as it is; the
changes are carried over later, into the state that is current then. `CopyOnWrite σ δ` says that
states of type `σ` can be overlaid by changes of type `δ`, and that the difference between two
states is such a change. Ordered maps are the basic instance: their changes are the keys written,
with the values they were given or the fact that they were deleted. Pairs of states are overlaid
component by component.
-/

open Std

namespace Felidae

universe u v w

/-- States that can be overlaid by changes. -/
class CopyOnWrite (σ : Type u) (δ : outParam (Type v)) where
  unchanged : δ
  /-- Carry the changes over into a state. -/
  overlay : σ → δ → σ
  /-- The changes that lead from one state to another. -/
  changes : σ → σ → δ
  overlay_unchanged : ∀ s, overlay s unchanged = s
  overlay_changes : ∀ s t, overlay s (changes s t) = t

export CopyOnWrite (unchanged overlay changes overlay_unchanged overlay_changes)

attribute [simp] overlay_unchanged overlay_changes

/-- A snapshot and what was written over it. -/
structure Delta (σ : Type u) (δ : Type v) where
  snapshot : σ
  written : δ

namespace Delta

variable {σ : Type u} {δ : Type v} [CopyOnWrite σ δ]

/-- A delta over a snapshot, with nothing written yet. -/
def new (snapshot : σ) : Delta σ δ := ⟨snapshot, unchanged σ⟩

/-- What is read through the delta. -/
def view (d : Delta σ δ) : σ := overlay d.snapshot d.written

/-- Write through the delta until the given state is read. -/
def write (d : Delta σ δ) (s : σ) : Delta σ δ := ⟨d.snapshot, changes d.snapshot s⟩

@[simp] theorem snapshot_new (s : σ) : (new s : Delta σ δ).snapshot = s := rfl

@[simp] theorem view_new (s : σ) : (new s : Delta σ δ).view = s := overlay_unchanged s

@[simp] theorem snapshot_write (d : Delta σ δ) (s : σ) : (d.write s).snapshot = d.snapshot := rfl

@[simp] theorem view_write (d : Delta σ δ) (s : σ) : (d.write s).view = s :=
  overlay_changes d.snapshot s

end Delta

/-! ## Ordered maps -/

namespace PrefixMap

variable {κ : Type u} [Ord κ] [TransOrd κ] [LawfulEqOrd κ] [DecidableEq κ] {α : Type v}

/-- One key written: the value it was given, or `none` if it was deleted. -/
def apply (m : PrefixMap κ α) (e : List κ × Option α) : PrefixMap κ α :=
  match e.2 with
  | some a => m.insert e.1 a
  | none => m.erase e.1

theorem getElem?_apply (m : PrefixMap κ α) (e : List κ × Option α) (k : List κ) :
    (m.apply e)[k]? = if e.1 = k then e.2 else m[k]? := by
  obtain ⟨k', o⟩ := e
  by_cases hk : k' = k
  · subst hk
    rw [if_pos rfl]
    cases o with
    | none => exact getElem?_erase_self m k'
    | some a => exact getElem?_insert_self m k' a
  · rw [if_neg hk]
    cases o with
    | none => exact getElem?_erase_of_ne hk
    | some a => exact getElem?_insert_of_ne hk

/-- Changes that give keys the values they have in another map, and cover all keys at which the two
maps differ, lead to the other map. -/
theorem foldl_apply_eq {n : PrefixMap κ α} {es : List (List κ × Option α)}
    (hes : ∀ e ∈ es, n[e.1]? = e.2) :
    ∀ {m : PrefixMap κ α}, (∀ k, (∀ e ∈ es, e.1 ≠ k) → m[k]? = n[k]?) → es.foldl apply m = n := by
  induction es with
  | nil =>
    intro m hm
    exact ExtTreeMap.ext_getElem? fun k ↦ hm k fun e he ↦ absurd he List.not_mem_nil
  | cons e es ih =>
    intro m hm
    apply ih fun e' he' ↦ hes e' (List.mem_cons_of_mem _ he')
    intro k hk
    rw [getElem?_apply]
    by_cases hek : e.1 = k
    · rw [if_pos hek, ← hes e List.mem_cons_self, hek]
    · rw [if_neg hek]
      refine hm k fun e' he' ↦ ?_
      rcases List.mem_cons.mp he' with rfl | he'
      · exact hek
      · exact hk e' he'

variable [DecidableEq α]

/-- The keys of one map that another lacks, and the entries of the other that are new. -/
def difference (m n : PrefixMap κ α) : List (List κ × Option α) :=
  ((m.toList.filter fun e ↦ n[e.1]? = none).map fun e ↦ (e.1, none)) ++
    (n.toList.filter fun e ↦ m[e.1]? ≠ some e.2).map fun e ↦ (e.1, some e.2)

theorem foldl_difference (m n : PrefixMap κ α) : (m.difference n).foldl apply m = n := by
  apply foldl_apply_eq
  · intro e he
    rcases List.mem_append.mp he with he | he
    · obtain ⟨x, hx, rfl⟩ := List.mem_map.mp he
      exact of_decide_eq_true (List.mem_filter.mp hx).2
    · obtain ⟨x, hx, rfl⟩ := List.mem_map.mp he
      exact ExtTreeMap.mem_toList_iff_getElem?_eq_some.mp (List.mem_filter.mp hx).1
  · intro k hk
    rcases hn : n[k]? with _ | a
    · rcases hm : m[k]? with _ | b
      · rfl
      · refine absurd rfl (hk (k, none)
          (List.mem_append_left _ (List.mem_map.mpr ⟨(k, b), ?_, rfl⟩)))
        exact List.mem_filter.mpr
          ⟨ExtTreeMap.mem_toList_iff_getElem?_eq_some.mpr hm, decide_eq_true hn⟩
    · by_contra hne
      refine hk (k, some a) (List.mem_append_right _ (List.mem_map.mpr ⟨(k, a), ?_, rfl⟩)) rfl
      exact List.mem_filter.mpr
        ⟨ExtTreeMap.mem_toList_iff_getElem?_eq_some.mpr hn, decide_eq_true hne⟩

instance : CopyOnWrite (PrefixMap κ α) (List (List κ × Option α)) where
  unchanged := []
  overlay m es := es.foldl apply m
  changes := difference
  overlay_unchanged _ := rfl
  overlay_changes := foldl_difference

end PrefixMap

end Felidae
