import Mathlib.Data.List.Nodup
import Mathlib.Logic.Function.Basic

/-!
# Functions given by a table

A function known at some arguments, and given by another function at all others. It is injective
if the values of the table are different, and if the other function is injective and avoids them.
-/

namespace Felidae

section

variable {α β : Type} [DecidableEq α]

/-- The function a table gives, with `f` where the table has no entry. -/
def tabulate (table : List (α × β)) (f : α → β) (a : α) : β := (table.lookup a).getD (f a)

theorem tabulate_cases (table : List (α × β)) (f : α → β) (a : α) :
    (a, tabulate table f a) ∈ table ∨ tabulate table f a = f a := by
  rw [tabulate]
  rcases h : table.lookup a with _ | b
  · exact .inr rfl
  · obtain ⟨l₁, l₂, rfl, -⟩ := List.lookup_eq_some_iff.mp h
    exact .inl (List.mem_append_right _ List.mem_cons_self)

theorem tabulate_injective {table : List (α × β)} {f : α → β} (hf : Function.Injective f)
    (hvalues : (table.map Prod.snd).Nodup) (hnew : ∀ a, f a ∉ table.map Prod.snd) :
    Function.Injective (tabulate table f) := by
  intro a a' h
  rcases tabulate_cases table f a with ha | ha <;> rcases tabulate_cases table f a' with ha' | ha'
  · rw [← h] at ha'
    exact congrArg Prod.fst (List.inj_on_of_nodup_map hvalues ha ha' rfl)
  · exact absurd (List.mem_map.mpr ⟨_, ha, h.trans ha'⟩) (hnew a')
  · exact absurd (List.mem_map.mpr ⟨_, ha', h.symm.trans ha⟩) (hnew a)
  · exact hf (ha.symm.trans (h.trans ha'))

end

end Felidae
