import Mathlib.Data.List.FinRange
import Mathlib.Data.List.Induction
import Mathlib.Data.List.Nodup

/-!
# The tally

Votes are counted by value in a `HashMap`, and the winner is the first value with a quorum that an
iteration over the map meets. The order of iteration is a parameter: any two nodes may use
different ones. The tally itself does not depend on it, and neither does the winner as long as no
two values have a quorum.
-/

namespace Felidae

/-! ## Iteration -/

/-- The order in which a `HashMap` is iterated, given how many entries it has. -/
structure IterOrder where
  perm : (n : ℕ) → Equiv.Perm (Fin n)

namespace IterOrder

/-- The entries of a map in the order of iteration. -/
def arrange {α : Type} (order : IterOrder) (entries : List α) : List α :=
  List.ofFn fun i ↦ entries.get (order.perm entries.length i)

theorem arrange_perm {α : Type} (order : IterOrder) (entries : List α) :
    (order.arrange entries).Perm entries := by
  have h := Equiv.Perm.ofFn_comp_perm (order.perm entries.length) entries.get
  rwa [List.ofFn_get] at h

end IterOrder

/-! ## Counting -/

section Tally

variable {V : Type} [DecidableEq V]

/-- `*tally.entry(value).or_insert(0) += 1` -/
def countVote (value : V) : List (V × ℕ) → List (V × ℕ)
  | [] => [(value, 1)]
  | (v, n) :: tally => if v = value then (v, n + 1) :: tally else (v, n) :: countVote value tally

/-- The number of votes for each value. -/
def tally (values : List V) : List (V × ℕ) := values.foldl (fun t v ↦ countVote v t) []

/-- The first value, in the order of iteration, whose count reaches the quorum. -/
def winner (order : IterOrder) (quorum : UInt64) (tally : List (V × ℕ)) : Option V :=
  ((order.arrange tally).find? fun e ↦ decide (quorum.toNat ≤ e.2)).map Prod.fst


/-! ### What the tally says -/

theorem map_fst_countVote (value : V) (t : List (V × ℕ)) :
    (countVote value t).map Prod.fst
      = if value ∈ t.map Prod.fst then t.map Prod.fst else t.map Prod.fst ++ [value] := by
  induction t with
  | nil => rfl
  | cons e t ih =>
    obtain ⟨v, n⟩ := e
    rw [countVote]
    by_cases hv : v = value
    · subst hv
      simp
    · rw [if_neg hv, List.map_cons, ih, List.map_cons]
      by_cases hmem : value ∈ t.map Prod.fst
      · rw [if_pos hmem, if_pos (List.mem_cons_of_mem _ hmem)]
      · rw [if_neg hmem, if_neg (by rw [List.mem_cons, not_or]; exact ⟨Ne.symm hv, hmem⟩)]
        rfl

theorem nodup_countVote {value : V} {t : List (V × ℕ)} (h : (t.map Prod.fst).Nodup) :
    ((countVote value t).map Prod.fst).Nodup := by
  rw [map_fst_countVote]
  split_ifs with hmem
  · exact h
  · exact List.Nodup.append h (List.nodup_singleton _) (by simpa using hmem)

/-- The entries of a tally after one more vote. -/
theorem mem_countVote (value w : V) (n : ℕ) : ∀ {t : List (V × ℕ)}, (t.map Prod.fst).Nodup →
    ((w, n) ∈ countVote value t ↔
      if w = value then (∃ m, (w, m) ∈ t ∧ n = m + 1) ∨ (w ∉ t.map Prod.fst ∧ n = 1)
      else (w, n) ∈ t)
  | [], _ => by
    by_cases hw : w = value <;> simp [countVote, hw]
  | (v, m) :: t, h => by
    rw [List.map_cons, List.nodup_cons] at h
    have ih := mem_countVote value w n h.2
    rw [countVote]
    by_cases hv : v = value
    · subst hv
      rw [if_pos rfl]
      by_cases hw : w = v
      · subst hw
        have hno : ∀ j, (w, j) ∉ t := fun j hj ↦ h.1 (List.mem_map.mpr ⟨_, hj, rfl⟩)
        simp [hno]
      · simp [hw]
    · rw [if_neg hv, List.mem_cons, ih]
      by_cases hw : w = value
      · subst hw
        simp [Ne.symm hv]
      · simp [hw]

/-- A tally lists every value once, with the number of its votes. -/
theorem tally_spec (l : List V) :
    ((tally l).map Prod.fst).Nodup ∧ ∀ w n, (w, n) ∈ tally l ↔ w ∈ l ∧ n = l.count w := by
  induction l using List.reverseRecOn with
  | nil => simp [tally]
  | append_singleton l v ih =>
    obtain ⟨hnodup, hmem⟩ := ih
    have hstep : tally (l ++ [v]) = countVote v (tally l) := by
      rw [tally, List.foldl_append]
      rfl
    refine ⟨by rw [hstep]; exact nodup_countVote hnodup, fun w n ↦ ?_⟩
    have hkeys : w ∈ (tally l).map Prod.fst ↔ w ∈ l := by
      rw [List.mem_map]
      constructor
      · rintro ⟨⟨w', m⟩, he, rfl⟩
        exact ((hmem _ _).mp he).1
      · exact fun hw ↦ ⟨(w, l.count w), (hmem _ _).mpr ⟨hw, rfl⟩, rfl⟩
    rw [hstep, mem_countVote _ _ _ hnodup, hkeys, List.mem_append, List.mem_singleton,
      List.count_append]
    by_cases hw : w = v
    · subst hw
      by_cases hl : w ∈ l
      · simp [hmem, hl]
      · simp [hmem, hl, List.count_eq_zero_of_not_mem hl]
    · simp [hmem, hw, List.count_eq_zero_of_not_mem (a := w) (l := [v]) (by simpa using hw)]

theorem winner_eq_none {order : IterOrder} {quorum : UInt64} {l : List V}
    (h : winner order quorum (tally l) = none) {w : V} (hw : w ∈ l) :
    l.count w < quorum.toNat := by
  rw [winner, Option.map_eq_none_iff, List.find?_eq_none] at h
  have hmem := ((tally_spec l).2 w _).mpr ⟨hw, rfl⟩
  have := h _ ((order.arrange_perm _).mem_iff.mpr hmem)
  simpa using this

theorem winner_eq_some {order : IterOrder} {quorum : UInt64} {l : List V} {w : V}
    (h : winner order quorum (tally l) = some w) : w ∈ l ∧ quorum.toNat ≤ l.count w := by
  obtain ⟨⟨w', n⟩, hfind, rfl⟩ := Option.map_eq_some_iff.mp h
  have hmem := (order.arrange_perm _).mem_iff.mp (List.mem_of_find?_eq_some hfind)
  have hquorum := List.find?_some hfind
  obtain ⟨hw, rfl⟩ := ((tally_spec l).2 _ _).mp hmem
  exact ⟨hw, of_decide_eq_true hquorum⟩

/-- If at most one value has a quorum, the order of iteration does not matter. -/
theorem winner_congr {order order' : IterOrder} {quorum : UInt64} {l : List V}
    (h : ∀ w ∈ l, ∀ w' ∈ l, quorum.toNat ≤ l.count w → quorum.toNat ≤ l.count w' → w = w') :
    winner order quorum (tally l) = winner order' quorum (tally l) := by
  rcases hw : winner order quorum (tally l) with _ | w
  · rcases hw' : winner order' quorum (tally l) with _ | w'
    · rfl
    · obtain ⟨hmem, hle⟩ := winner_eq_some hw'
      exact absurd (winner_eq_none hw hmem) (Nat.not_lt.mpr hle)
  · obtain ⟨hmem, hle⟩ := winner_eq_some hw
    rcases hw' : winner order' quorum (tally l) with _ | w'
    · exact absurd (winner_eq_none hw' hmem) (Nat.not_lt.mpr hle)
    · obtain ⟨hmem', hle'⟩ := winner_eq_some hw'
      rw [h w hmem w' hmem' hle hle']

end Tally

end Felidae
