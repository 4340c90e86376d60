import Mathlib.Data.List.Basic

/-!
# Histories

A history is the list of the steps a transition system has taken, the last one first, each with
the states before and after it. The rules here are the ones safety proofs use: what holds
initially and is preserved by every step holds at the end and at every moment; what holds after
some moment and is preserved by the later steps still holds; what holds after some moment lasts
until a first step ends it; what holds now and did not hold initially has an origin.
-/

namespace Felidae

universe u v

/-- A step that was taken. -/
structure Moment (σ : Type u) (ε : Type v) where
  before : σ
  event : ε
  after : σ

variable {σ : Type u} {ε : Type v}

/-- The steps taken from an initial state, the last one first, and the state reached. -/
inductive History (init : σ → Prop) (step : σ → ε → σ → Prop) :
    List (Moment σ ε) → σ → Prop where
  | start {s : σ} (hinit : init s) : History init step [] s
  | next {h : List (Moment σ ε)} {s t : σ} {e : ε} (hist : History init step h s)
      (hstep : step s e t) : History init step (⟨s, e, t⟩ :: h) t

/-- Something holds through all the moments up to the state `s`, and each of them goes by as
described, or a first one ends it. -/
def LastsUntil (P : σ → Prop) (during ends : Moment σ ε → Prop) (newer : List (Moment σ ε))
    (s : σ) : Prop :=
  (P s ∧ ∀ x ∈ newer, P x.after ∧ during x) ∨
    ∃ later x between, newer = later ++ x :: between ∧ P x.before ∧ ends x ∧
      ∀ y ∈ between, P y.after ∧ during y

namespace History

variable {init : σ → Prop} {step : σ → ε → σ → Prop} {h newer older : List (Moment σ ε)}
  {m x : Moment σ ε} {s : σ}

/-- The rule for invariants. -/
theorem invariant {P : σ → Prop} (hinit : ∀ s, init s → P s)
    (hstep : ∀ s e t, P s → step s e t → P t) (hist : History init step h s) : P s := by
  induction hist with
  | start hs => exact hinit _ hs
  | next _ hst ih => exact hstep _ _ _ ih hst

/-- A history up to one of its moments is a history, and the moment is a step. -/
theorem split (hist : History init step (newer ++ m :: older) s) :
    History init step older m.before ∧ step m.before m.event m.after := by
  induction newer generalizing s with
  | nil => cases hist with | next hist hstep => exact ⟨hist, hstep⟩
  | cons x newer ih => cases hist with | next hist hstep => exact ih hist

/-- A history that ends right after one of its moments. -/
theorem upTo (hist : History init step (newer ++ m :: older) s) :
    History init step (m :: older) m.after :=
  .next hist.split.1 hist.split.2

theorem step_of_mem (hist : History init step h s) (hm : m ∈ h) :
    step m.before m.event m.after := by
  obtain ⟨newer, older, rfl⟩ := List.append_of_mem hm
  exact hist.split.2

/-- A moment leads to the next one, or to the end. -/
theorem after_of_mem (hist : History init step h s) (hm : m ∈ h) :
    m.after = s ∨ ∃ x ∈ h, x.before = m.after := by
  induction hist with
  | start => exact absurd hm List.not_mem_nil
  | @next h s t e hist hstep ih =>
    rcases List.mem_cons.mp hm with rfl | hm
    · exact .inl rfl
    · rcases ih hm with hlast | ⟨x, hx, hbefore⟩
      · exact .inr ⟨⟨s, e, t⟩, List.mem_cons_self, hlast.symm⟩
      · exact .inr ⟨x, List.mem_cons_of_mem _ hx, hbefore⟩

/-- An invariant holds before and after every moment. -/
theorem invariant_of_mem {P : σ → Prop} (hinit : ∀ s, init s → P s)
    (hstep : ∀ s e t, P s → step s e t → P t) (hist : History init step h s) (hm : m ∈ h) :
    P m.before ∧ P m.after := by
  obtain ⟨newer, older, rfl⟩ := List.append_of_mem hm
  exact ⟨hist.split.1.invariant hinit hstep, hist.upTo.invariant hinit hstep⟩

/-- What no step changes is at every moment what it is at the end. -/
theorem eq_of_mem {α : Type*} {f : σ → α} (hf : ∀ s e t, step s e t → f t = f s)
    (hist : History init step h s) (hm : m ∈ h) : f m.before = f s ∧ f m.after = f s := by
  induction hist with
  | start => exact absurd hm List.not_mem_nil
  | @next h s t e hist hstep ih =>
    rw [hf s e t hstep]
    rcases List.mem_cons.mp hm with rfl | hm
    · exact ⟨rfl, hf s e t hstep⟩
    · exact ih hm

/-- What holds after a moment, and is preserved by the later ones, holds at the end. -/
theorem kept {P : σ → Prop} (hist : History init step (newer ++ m :: older) s) (hm : P m.after)
    (hkeep : ∀ x ∈ newer, P x.before → P x.after) : P s := by
  induction newer generalizing s with
  | nil => cases hist with | next _ _ => exact hm
  | cons x newer ih =>
    cases hist with
    | next hist hstep =>
      exact hkeep _ List.mem_cons_self (ih hist fun y hy ↦ hkeep y (List.mem_cons_of_mem _ hy))

/-- What holds after a moment, and is ended or preserved by each later one, lasts until then. -/
theorem lastsUntil {P : σ → Prop} {during ends : Moment σ ε → Prop}
    (hist : History init step (newer ++ m :: older) s) (hm : P m.after)
    (hkeep : ∀ x ∈ newer, P x.before → P x.after ∧ during x ∨ ends x) :
    LastsUntil P during ends newer s := by
  induction newer generalizing s with
  | nil => cases hist with | next _ _ => exact .inl ⟨hm, fun x hx ↦ absurd hx List.not_mem_nil⟩
  | cons x newer ih =>
    cases hist with
    | next hist hstep =>
      rcases ih hist fun y hy ↦ hkeep y (List.mem_cons_of_mem _ hy) with
        ⟨hbefore, hkept⟩ | ⟨later, y, between, rfl, hy⟩
      · rcases hkeep _ List.mem_cons_self hbefore with hafter | hends
        · exact .inl ⟨hafter.1, List.forall_mem_cons.mpr ⟨hafter, hkept⟩⟩
        · exact .inr ⟨[], _, newer, rfl, hbefore, hends, hkept⟩
      · exact .inr ⟨_ :: later, y, between, rfl, hy⟩

/-- What does not hold initially, but at the end, was made to hold by a last step, and has held
since without being made again. -/
theorem origin (P : σ → Prop) (made : Moment σ ε → Prop) (hinit : ∀ s, init s → ¬P s)
    (hmade : ∀ h s e t, History init step h s → step s e t → P t → made ⟨s, e, t⟩ ∨ P s)
    (hist : History init step h s) (hP : P s) :
    ∃ newer m older, h = newer ++ m :: older ∧ made m ∧ P m.after ∧
      ∀ x ∈ newer, ¬made x ∧ P x.before ∧ P x.after := by
  induction hist with
  | start hs => exact absurd hP (hinit _ hs)
  | @next h s t e hist hstep ih =>
    by_cases hm : made ⟨s, e, t⟩
    · exact ⟨[], _, h, rfl, hm, hP, fun x hx ↦ absurd hx List.not_mem_nil⟩
    · have hbefore := (hmade h s e t hist hstep hP).resolve_left hm
      obtain ⟨newer, m, older, rfl, hm', hafter, hnewer⟩ := ih hbefore
      refine ⟨⟨s, e, t⟩ :: newer, m, older, rfl, hm', hafter, fun x hx ↦ ?_⟩
      rcases List.mem_cons.mp hx with rfl | hx
      · exact ⟨hm, hbefore, hP⟩
      · exact hnewer x hx

end History

end Felidae
