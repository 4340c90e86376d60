import Mathlib.Data.List.Basic

/-!
# Computations that fail without undoing their writes

`Exec σ ε α` is a function that reads and writes a state `σ` and ends in a value or in an error.
Unlike `StateT σ (Except ε)`, the state reached at the error is part of the result: a computation
that wrote before it failed has written. This is what a method on `&mut self` returning a
`Result` does, and it is the reason failed computations have to be reasoned about at all.
-/

namespace Felidae

universe u v w

/-- A computation over a state, whose writes survive its failure. -/
def Exec (σ : Type u) (ε : Type v) (α : Type w) : Type (max u v w) := σ → Except ε α × σ

namespace Exec

variable {σ : Type u} {ε : Type v} {α β γ : Type w}

instance : Monad (Exec σ ε) where
  pure a := fun s ↦ (.ok a, s)
  bind x f := fun s ↦
    match x s with
    | (.ok a, t) => f a t
    | (.error e, t) => (.error e, t)

/-- Run a computation that only reads. -/
def read (f : σ → Except ε α) : Exec σ ε α := fun s ↦ (f s, s)

/-- Change the state; this cannot fail. -/
def modify (f : σ → σ) : Exec σ ε PUnit := fun s ↦ (.ok ⟨⟩, f s)

/-- Fail, keeping the state as it is. -/
def throw (e : ε) : Exec σ ε α := fun s ↦ (.error e, s)

/-- `for b in l { body(b)? }` -/
def forEach (body : β → Exec σ ε PUnit) : List β → Exec σ ε PUnit
  | [] => pure ⟨⟩
  | b :: l => body b >>= fun _ ↦ forEach body l

/-- `for b in l { out.push(body(b)?) }` -/
def mapEach (body : β → Exec σ ε α) : List β → Exec σ ε (List α)
  | [] => pure []
  | b :: l => body b >>= fun a ↦ mapEach body l >>= fun as ↦ pure (a :: as)

@[simp] theorem pure_apply (a : α) (s : σ) : (pure a : Exec σ ε α) s = (.ok a, s) := rfl

@[simp] theorem read_apply (f : σ → Except ε α) (s : σ) : read f s = (f s, s) := rfl

@[simp] theorem modify_apply (f : σ → σ) (s : σ) :
    (modify f : Exec σ ε PUnit) s = (.ok ⟨⟩, f s) := rfl

@[simp] theorem throw_apply (e : ε) (s : σ) : (throw e : Exec σ ε α) s = (.error e, s) := rfl

theorem bind_apply (x : Exec σ ε α) (f : α → Exec σ ε β) (s : σ) :
    (x >>= f) s = match x s with
      | (.ok a, t) => f a t
      | (.error e, t) => (.error e, t) := rfl

theorem bind_of_ok {x : Exec σ ε α} {f : α → Exec σ ε β} {s t : σ} {a : α}
    (h : x s = (.ok a, t)) : (x >>= f) s = f a t := by
  rw [bind_apply, h]

theorem bind_of_error {x : Exec σ ε α} {f : α → Exec σ ε β} {s t : σ} {e : ε}
    (h : x s = (.error e, t)) : (x >>= f) s = (.error e, t) := by
  rw [bind_apply, h]

theorem read_bind_of_ok {g : σ → Except ε α} {f : α → Exec σ ε β} {s : σ} {a : α}
    (h : g s = .ok a) : (read g >>= f) s = f a s :=
  bind_of_ok (by rw [read_apply, h])

theorem read_bind_of_error {g : σ → Except ε α} {f : α → Exec σ ε β} {s : σ} {e : ε}
    (h : g s = .error e) : (read g >>= f) s = (.error e, s) :=
  bind_of_error (by rw [read_apply, h])

@[simp] theorem modify_bind (g : σ → σ) (f : PUnit → Exec σ ε β) (s : σ) :
    ((modify g : Exec σ ε PUnit) >>= f) s = f ⟨⟩ (g s) := rfl

@[simp] theorem pure_bind (a : α) (f : α → Exec σ ε β) (s : σ) :
    ((pure a : Exec σ ε α) >>= f) s = f a s := rfl

@[simp] theorem throw_bind (e : ε) (f : α → Exec σ ε β) (s : σ) :
    ((throw e : Exec σ ε α) >>= f) s = (.error e, s) := rfl

/-- Peeling the first computation off a sequence that succeeded. -/
theorem bind_eq_ok {x : Exec σ ε α} {f : α → Exec σ ε β} {s t : σ} {b : β} :
    (x >>= f) s = (.ok b, t) ↔ ∃ a r, x s = (.ok a, r) ∧ f a r = (.ok b, t) := by
  rw [bind_apply]
  rcases hx : x s with ⟨(e | a), r⟩
  · simp
  · simp

/-- The computation without its result. -/
def forget (x : Exec σ ε α) : Exec σ ε PUnit := x >>= fun _ ↦ pure ⟨⟩

theorem forget_bind {x : Exec σ ε α} {f : α → Exec σ ε β} :
    forget (x >>= f) = x >>= fun a ↦ forget (f a) := by
  funext s
  rw [forget, bind_apply, bind_apply, bind_apply]
  rcases x s with ⟨e | a, t⟩ <;> rfl

theorem forget_of_ok {x : Exec σ ε α} {s t : σ} {a : α} (h : x s = (.ok a, t)) :
    forget x s = (.ok ⟨⟩, t) := bind_of_ok h

/-- A loop that fails has done the passes before the one that fails. -/
theorem forEach_eq_error {body : β → Exec σ ε PUnit} {e : ε} {t : σ} : ∀ {l : List β} {s : σ},
    forEach body l s = (.error e, t) → ∃ done b rest r, l = done ++ b :: rest ∧
      forEach body done s = (.ok ⟨⟩, r) ∧ body b r = (.error e, t)
  | [], _, h => by cases (Prod.mk.inj h).1
  | b :: l, s, h => by
    rcases hb : body b s with ⟨e' | ⟨⟩, r⟩
    · rw [forEach, bind_of_error hb] at h
      exact ⟨[], b, l, s, rfl, rfl, hb.trans h⟩
    · rw [forEach, bind_of_ok hb] at h
      obtain ⟨done, b', rest, r', rfl, hdone, hb'⟩ := forEach_eq_error h
      exact ⟨b :: done, b', rest, r', rfl, (bind_of_ok hb).trans hdone, hb'⟩

/-- A loop of state changes is their composition. -/
theorem forEach_modify {ι : Type*} (f : β → σ → σ) (g : ι → β) : ∀ (l : List ι) (s : σ),
    forEach (fun b ↦ (modify (f b) : Exec σ ε PUnit)) (l.map g) s
      = (.ok ⟨⟩, l.foldl (fun s i ↦ f (g i) s) s)
  | [], _ => rfl
  | i :: l, s => by
    rw [List.map_cons, forEach, modify_bind, forEach_modify f g l, List.foldl_cons]

/-- A loop whose passes all succeed collects their results. -/
theorem mapEach_map_of_ok {ι : Type*} {b : β → Exec σ ε α} {g : ι → β} {r : ι → α}
    {f : ι → σ → σ} (h : ∀ i s, b (g i) s = (.ok (r i), f i s)) : ∀ (l : List ι) (s : σ),
    mapEach b (l.map g) s = (.ok (l.map r), l.foldl (fun s i ↦ f i s) s)
  | [], _ => rfl
  | i :: l, s => by
    rw [List.map_cons, mapEach, bind_of_ok (h i s), bind_of_ok (mapEach_map_of_ok h l _)]
    rfl

/-! ### Frames -/

/-- The computation does not change what `f` sees of the state, whether it succeeds or fails. -/
def Keeps {β : Type*} (f : σ → β) (x : Exec σ ε α) : Prop := ∀ s, f (x s).2 = f s

section Keeps

variable {ω : Type*} {f : σ → ω}

theorem Keeps.eq {x : Exec σ ε α} (hx : Keeps f x) {s t : σ} {r : Except ε α}
    (h : x s = (r, t)) : f t = f s := (congrArg (fun r ↦ f r.2) h).symm.trans (hx s)

theorem keeps_pure (a : α) : Keeps f (pure a : Exec σ ε α) := fun _ ↦ rfl

theorem keeps_read (g : σ → Except ε α) : Keeps f (read g) := fun _ ↦ rfl

theorem keeps_throw (e : ε) : Keeps f (throw e : Exec σ ε α) := fun _ ↦ rfl

theorem keeps_modify {g : σ → σ} (h : ∀ s, f (g s) = f s) :
    Keeps f (modify g : Exec σ ε PUnit) := h

/-- A continuation that keeps `f` leaves of it what the first computation has left. -/
theorem bind_of_keeps (x : Exec σ ε α) {g : α → Exec σ ε β} (hg : ∀ a, Keeps f (g a)) (s : σ) :
    f ((x >>= g) s).2 = f (x s).2 := by
  rw [bind_apply]
  rcases x s with ⟨(e | a), t⟩
  · rfl
  · exact hg a t

theorem Keeps.bind {x : Exec σ ε α} {g : α → Exec σ ε β} (hx : Keeps f x)
    (hg : ∀ a, Keeps f (g a)) : Keeps f (x >>= g) := fun s ↦
  (bind_of_keeps x hg s).trans (hx s)

/-- What follows a read may depend on what can be read. -/
theorem keeps_read_bind {r : σ → Except ε α} {g : α → Exec σ ε β}
    (h : ∀ s a, r s = .ok a → Keeps f (g a)) : Keeps f (read r >>= g) := by
  intro s
  rcases hs : r s with e | a
  · rw [read_bind_of_error hs]
  · rw [read_bind_of_ok hs]
    exact h s a hs s

theorem keeps_forEach {body : β → Exec σ ε PUnit} {l : List β} (h : ∀ b ∈ l, Keeps f (body b)) :
    Keeps f (forEach body l) := by
  induction l with
  | nil => exact keeps_pure _
  | cons b l ih =>
    exact (h b List.mem_cons_self).bind fun _ ↦ ih fun c hc ↦ h c (List.mem_cons_of_mem _ hc)

theorem keeps_mapEach {body : β → Exec σ ε α} {l : List β} (h : ∀ b ∈ l, Keeps f (body b)) :
    Keeps f (mapEach body l) := by
  induction l with
  | nil => exact keeps_pure _
  | cons b l ih =>
    exact (h b List.mem_cons_self).bind fun _ ↦
      (ih fun c hc ↦ h c (List.mem_cons_of_mem _ hc)).bind fun _ ↦ keeps_pure _

/-- What a loop leaves of `f`: what was there, or what a pass has put there. -/
theorem forEach_cases {P : β → ω → Prop} {x : β → Exec σ ε PUnit}
    (h : ∀ b s, f (x b s).2 = f s ∨ P b (f (x b s).2)) : ∀ (l : List β) (s : σ),
    f (forEach x l s).2 = f s ∨ ∃ b ∈ l, P b (f (forEach x l s).2)
  | [], _ => .inl rfl
  | b :: l, s => by
    have hb := h b s
    rw [forEach, bind_apply]
    rcases hs : x b s with ⟨e | ⟨⟩, t⟩ <;> rw [hs] at hb
    · exact hb.imp id fun hP ↦ ⟨b, List.mem_cons_self, hP⟩
    · rcases forEach_cases h l t with hsame | ⟨b', hb', hP⟩
      · refine hb.imp hsame.trans fun hP ↦ ⟨b, List.mem_cons_self, ?_⟩
        exact (congrArg (P b) hsame).mpr hP
      · exact .inr ⟨b', List.mem_cons_of_mem _ hb', hP⟩

end Keeps

end Exec

/-! ## Fallible computations without a state -/

/-- What is in one of two lists that correspond has something to correspond to in the other. -/
theorem exists_of_mem_forall₂ {α : Type u} {β : Type v} {R : α → β → Prop} {l : List α}
    {l' : List β} (h : List.Forall₂ R l l') {a : α} (ha : a ∈ l) : ∃ b ∈ l', R a b := by
  induction h with
  | nil => exact absurd ha List.not_mem_nil
  | @cons a' b' l l' hab _ ih =>
    rcases List.mem_cons.mp ha with rfl | ha
    · exact ⟨b', List.mem_cons_self, hab⟩
    · obtain ⟨b, hb, hab⟩ := ih ha
      exact ⟨b, List.mem_cons_of_mem _ hb, hab⟩

/-- Where one of two lists that correspond is split, the other one is split. -/
theorem exists_split_of_forall₂ {α : Type u} {β : Type v} {R : α → β → Prop} :
    ∀ {l₁ : List α} {a : α} {l₂ : List α} {l' : List β}, List.Forall₂ R (l₁ ++ a :: l₂) l' →
      ∃ l₁' b l₂', l' = l₁' ++ b :: l₂' ∧
        List.Forall₂ R l₁ l₁' ∧ R a b ∧ List.Forall₂ R l₂ l₂' := by
  intro l₁
  induction l₁ with
  | nil =>
    intro a l₂ l' h
    cases h with
    | cons hab htail => exact ⟨[], _, _, rfl, .nil, hab, htail⟩
  | cons c l₁ ih =>
    intro a l₂ l' h
    cases h with
    | cons hcd htail =>
      obtain ⟨l₁', b, l₂', rfl, hfront, hab, hback⟩ := ih htail
      exact ⟨_ :: l₁', b, l₂', rfl, .cons hcd hfront, hab, hback⟩

section Except

variable {ε : Type u} {α β : Type v}

theorem except_bind_eq_ok {x : Except ε α} {f : α → Except ε β} {b : β} :
    (x >>= f) = .ok b ↔ ∃ a, x = .ok a ∧ f a = .ok b := by
  rcases x with e | a
  · exact ⟨fun h ↦ (by cases h), by rintro ⟨_, h, _⟩; cases h⟩
  · refine ⟨fun h ↦ ⟨a, rfl, h⟩, ?_⟩
    rintro ⟨_, ha, h⟩
    exact Except.ok.inj ha ▸ h

theorem except_toOption_eq_some {x : Except ε α} {a : α} : x.toOption = some a ↔ x = .ok a := by
  cases x <;> simp [Except.toOption]

theorem except_map_eq_ok {x : Except ε α} {f : α → β} {b : β} :
    x.map f = .ok b ↔ ∃ a, x = .ok a ∧ f a = b := by
  cases x <;> simp [Except.map]

theorem mapError_eq_ok {ε' : Type*} {x : Except ε α} {f : ε → ε'} {a : α} :
    x.mapError f = .ok a ↔ x = .ok a := by
  cases x with
  | error e => exact iff_of_false (fun h ↦ by cases h) fun h ↦ by cases h
  | ok b => rw [Except.mapError, Except.ok.injEq, Except.ok.injEq]

@[simp] theorem except_ok_bind (a : α) (f : α → Except ε β) : (Except.ok a >>= f) = f a := rfl

@[simp] theorem except_error_bind (e : ε) (f : α → Except ε β) :
    (Except.error e >>= f) = Except.error e := rfl

/-- `into_iter().map(f).collect::<Result<Vec<_>, _>>()` -/
def collect (f : α → Except ε β) : List α → Except ε (List β)
  | [] => .ok []
  | a :: l => f a >>= fun b ↦ collect f l >>= fun bs ↦ .ok (b :: bs)

theorem collect_eq_ok_cons {f : α → Except ε β} {a : α} {l : List α} {r : List β} :
    collect f (a :: l) = .ok r ↔ ∃ b bs, f a = .ok b ∧ collect f l = .ok bs ∧ r = b :: bs := by
  rw [collect, except_bind_eq_ok]
  constructor
  · rintro ⟨b, hb, h⟩
    obtain ⟨bs, hbs, h⟩ := except_bind_eq_ok.mp h
    exact ⟨b, bs, hb, hbs, (Except.ok.inj h).symm⟩
  · rintro ⟨b, bs, hb, hbs, rfl⟩
    exact ⟨b, hb, except_bind_eq_ok.mpr ⟨bs, hbs, rfl⟩⟩

/-- A list collects exactly if all its elements do. -/
theorem exists_collect_iff {f : α → Except ε β} {l : List α} :
    (∃ r, collect f l = .ok r) ↔ ∀ a ∈ l, ∃ b, f a = .ok b := by
  induction l with
  | nil => exact ⟨fun _ _ ha ↦ absurd ha List.not_mem_nil, fun _ ↦ ⟨[], rfl⟩⟩
  | cons a l ih =>
    rw [List.forall_mem_cons, ← ih]
    constructor
    · rintro ⟨r, hr⟩
      obtain ⟨b, bs, hb, hbs, -⟩ := collect_eq_ok_cons.mp hr
      exact ⟨⟨b, hb⟩, bs, hbs⟩
    · rintro ⟨⟨b, hb⟩, bs, hbs⟩
      exact ⟨b :: bs, collect_eq_ok_cons.mpr ⟨b, bs, hb, hbs, rfl⟩⟩

/-- Every element collected comes from one of the list. -/
theorem exists_of_mem_collect {f : α → Except ε β} : ∀ {l : List α} {r : List β},
    collect f l = .ok r → ∀ b ∈ r, ∃ a ∈ l, f a = .ok b
  | [], r, h, b, hb => by
    rw [← Except.ok.inj h] at hb
    exact absurd hb List.not_mem_nil
  | a :: l, r, h, b, hb => by
    obtain ⟨b', bs, hb', hbs, rfl⟩ := collect_eq_ok_cons.mp h
    rcases List.mem_cons.mp hb with rfl | hb
    · exact ⟨a, List.mem_cons_self, hb'⟩
    · obtain ⟨c, hc, hcb⟩ := exists_of_mem_collect hbs b hb
      exact ⟨c, List.mem_cons_of_mem _ hc, hcb⟩

/-- What a function makes of an encoded list, one element at a time. -/
theorem collect_map_eq_ok {γ : Type v} {f : α → Except ε β} {e : γ → α} {g : γ → β} {l : List γ}
    (h : ∀ c ∈ l, f (e c) = .ok (g c)) : collect f (l.map e) = .ok (l.map g) := by
  induction l with
  | nil => rfl
  | cons c l ih =>
    rw [List.map_cons, collect, h c List.mem_cons_self, except_ok_bind,
      ih fun d hd ↦ h d (List.mem_cons_of_mem _ hd)]
    rfl

/-- The collected list is the image of the list under the function's successes. -/
theorem forall₂_of_collect {f : α → Except ε β} :
    ∀ {l : List α} {r : List β}, collect f l = .ok r → List.Forall₂ (fun a b ↦ f a = .ok b) l r
  | [], r, h => by
    rw [← Except.ok.inj h]
    exact .nil
  | a :: l, r, h => by
    obtain ⟨b, bs, hb, hbs, rfl⟩ := collect_eq_ok_cons.mp h
    exact .cons hb (forall₂_of_collect hbs)

theorem mem_collect_iff {f : α → Except ε β} {l : List α} {r : List β} (h : collect f l = .ok r)
    {b : β} : b ∈ r ↔ ∃ a ∈ l, f a = .ok b := by
  refine ⟨exists_of_mem_collect h b, ?_⟩
  rintro ⟨a, ha, hb⟩
  obtain ⟨b', hb', hab⟩ := exists_of_mem_forall₂ (forall₂_of_collect h) ha
  rwa [← Except.ok.inj (hab.symm.trans hb)]

end Except

end Felidae
