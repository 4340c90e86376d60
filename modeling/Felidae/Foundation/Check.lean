import Felidae.Foundation.Exec

/-!
# Checks

A check either passes or fails with an error of an expected kind; it decides the proposition under
which it passes. Sequences and branches of checks decide what their parts say.
-/

namespace Felidae

universe u v

variable {ε : Type u}

/-- The check passes if the proposition holds, and fails with an expected error if not. -/
def Decides (expected : ε → Prop) (check : Except ε Unit) (P : Prop) : Prop :=
  (P ∧ check = .ok ()) ∨ (¬P ∧ ∃ e, expected e ∧ check = .error e)

namespace Decides

variable {expected : ε → Prop} {check next : Except ε Unit} {P Q : Prop}

theorem ok (hP : P) : Decides expected (.ok ()) P := .inl ⟨hP, rfl⟩

theorem error {e : ε} (he : expected e) (hP : ¬P) : Decides expected (.error e) P :=
  .inr ⟨hP, e, he, rfl⟩

theorem iff (h : Decides expected check P) : check = .ok () ↔ P := by
  rcases h with ⟨hP, hok⟩ | ⟨hP, e, -, herr⟩
  · exact iff_of_true hok hP
  · rw [herr]
    exact iff_of_false (fun h ↦ by cases h) hP

/-- An error of a check is an expected one. -/
theorem expected_of_error (h : Decides expected check P) {e : ε} (he : check = .error e) :
    expected e := by
  rcases h with ⟨-, hok⟩ | ⟨-, e', he', herr⟩
  · cases hok.symm.trans he
  · rw [← Except.error.inj (herr.symm.trans he)]
    exact he'

theorem congr (h : Decides expected check P) (hPQ : P ↔ Q) : Decides expected check Q := by
  rwa [← propext hPQ]

/-- The second check is only made if the first one passes. -/
theorem bind (h : Decides expected check P) (hnext : P → Decides expected next Q) :
    Decides expected (check >>= fun _ ↦ next) (P ∧ Q) := by
  rcases h with ⟨hP, hok⟩ | ⟨hP, e, he, herr⟩
  · rw [hok]
    exact (hnext hP).congr (and_iff_right hP).symm
  · rw [herr]
    exact error he fun h ↦ hP h.1

/-- A read before a check. -/
theorem read_bind {α : Type} {read : Except ε α} {a : α} {next : α → Except ε Unit}
    (hread : read = .ok a) (h : Decides expected (next a) P) :
    Decides expected (read >>= next) P := by
  rwa [hread]

end Decides

end Felidae
