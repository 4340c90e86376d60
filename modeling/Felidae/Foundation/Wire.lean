import Felidae.Foundation.Bytes

/-!
# Encodings that can be read back

The wire format of protocol buffers as combinators whose types say that nothing is lost. A `Code`
can be told apart from whatever follows it. A `Field` is a tagged, possibly absent, possibly
repeated code, and can be told apart from whatever follows as long as that starts with another
tag. `Fields` with different tags one after the other determine the values of all of them, and so
does the `Layout` of a message.
-/

namespace Felidae

/-! ## Codes -/

/-- A code no word of which runs into what follows. -/
structure Code (α : Type) where
  encode : α → Bytes
  split : ∀ {a a' : α} {r r' : Bytes}, encode a ++ r = encode a' ++ r' → a = a' ∧ r = r'

/-- The base-128 digits of `n`, lowest first, with a continuation bit on all but the last; as many
as there is fuel for. -/
def groups : ℕ → ℕ → Bytes
  | 0, n => [UInt8.ofNat n]
  | fuel + 1, n =>
    if n < 128 then [UInt8.ofNat n] else UInt8.ofNat (n % 128 + 128) :: groups fuel (n / 128)

theorem groups_split : ∀ {fuel fuel' n n' : ℕ} {r r' : Bytes}, n < 128 ^ (fuel + 1) →
    n' < 128 ^ (fuel' + 1) → groups fuel n ++ r = groups fuel' n' ++ r' → n = n' ∧ r = r' := by
  have hof : ∀ {a b : ℕ}, a < 256 → b < 256 → UInt8.ofNat a = UInt8.ofNat b → a = b := by
    intro a b ha hb h
    have := congrArg UInt8.toNat h
    rwa [UInt8.toNat_ofNat', UInt8.toNat_ofNat', Nat.mod_eq_of_lt ha, Nat.mod_eq_of_lt hb] at this
  -- a number is either written in one byte or goes on
  have hone : ∀ {fuel n : ℕ}, n < 128 ^ (fuel + 1) →
      n < 128 ∧ groups fuel n = [UInt8.ofNat n] ∨ ∃ f, fuel = f + 1 ∧ ¬n < 128 ∧
        groups fuel n = UInt8.ofNat (n % 128 + 128) :: groups f (n / 128) := by
    intro fuel n hn
    cases fuel with
    | zero => exact .inl ⟨by simpa using hn, rfl⟩
    | succ f =>
      by_cases hlt : n < 128
      · exact .inl ⟨hlt, if_pos hlt⟩
      · exact .inr ⟨f, rfl, hlt, if_neg hlt⟩
  intro fuel
  induction fuel with
  | zero =>
    intro fuel' n n' r r' hn hn' h
    have hlt : n < 128 := by simpa using hn
    rw [groups] at h
    rcases hone hn' with ⟨hlt', heq⟩ | ⟨f, rfl, -, heq⟩ <;> rw [heq] at h
    · obtain ⟨hhead, htail⟩ := List.cons.inj h
      exact ⟨hof (by omega) (by omega) hhead, htail⟩
    · have := hof (by omega) (by omega) (List.cons.inj h).1
      omega
  | succ fuel ih =>
    intro fuel' n n' r r' hn hn' h
    rcases hone hn with ⟨hlt, heq⟩ | ⟨f, hf, hge, heq⟩ <;>
      rcases hone hn' with ⟨hlt', heq'⟩ | ⟨f', rfl, hge', heq'⟩ <;> rw [heq, heq'] at h
    · obtain ⟨hhead, htail⟩ := List.cons.inj h
      exact ⟨hof (by omega) (by omega) hhead, htail⟩
    · have := hof (by omega) (by omega) (List.cons.inj h).1
      omega
    · have := hof (by omega) (by omega) (List.cons.inj h).1
      omega
    · obtain rfl : fuel = f := by omega
      obtain ⟨hhead, htail⟩ := List.cons.inj h
      have hmod := hof (by omega) (by omega) hhead
      have hdiv : ∀ {m k : ℕ}, m < 128 ^ (k + 1 + 1) → m / 128 < 128 ^ (k + 1) := fun hm ↦
        Nat.div_lt_of_lt_mul (by rwa [Nat.pow_succ, Nat.mul_comm] at hm)
      obtain ⟨hquot, hr⟩ := ih (hdiv hn) (hdiv hn') htail
      exact ⟨by omega, hr⟩

namespace Code

/-- Base-128 integers. -/
def varint : Code ℕ where
  encode n := groups n n
  split := by
    have hfuel : ∀ n : ℕ, n < 128 ^ (n + 1) := fun n ↦
      (Nat.lt_pow_self (by decide)).trans (Nat.pow_lt_pow_right (by decide) n.lt_succ_self)
    intro a a' r r' h
    exact groups_split (hfuel a) (hfuel a') h

/-- Byte strings, preceded by their length. -/
def bytes : Code Bytes where
  encode b := varint.encode b.length ++ b
  split {a a' r r'} h := by
    rw [List.append_assoc, List.append_assoc] at h
    obtain ⟨hlen, h⟩ := varint.split h
    exact List.append_inj h hlen

/-- A code for what can be written as another type. -/
def contramap {α β : Type} (c : Code β) (f : α → β) (hf : Function.Injective f) : Code α where
  encode a := c.encode (f a)
  split h := ⟨hf (c.split h).1, (c.split h).2⟩

end Code

/-! ## Fields -/

/-- A tagged part of a message. -/
structure Field (α : Type) where
  tag : UInt8
  encode : α → Bytes
  head_eq : ∀ {a : α} {x : UInt8}, (encode a).head? = some x → x = tag
  split : ∀ {a a' : α} {r r' : Bytes}, r.head? ≠ some tag → r'.head? ≠ some tag →
    encode a ++ r = encode a' ++ r' → a = a' ∧ r = r'

namespace Field

variable {α β : Type}

/-- A field that may be absent. -/
def optional (tag : UInt8) (c : Code α) : Field (Option α) where
  tag := tag
  encode o := o.elim [] fun a ↦ tag :: c.encode a
  head_eq {a x} h := by
    cases a with
    | none => cases h
    | some a => exact (Option.some.inj h).symm
  split {a a' r r'} hr hr' h := by
    cases a <;> cases a'
    · exact ⟨rfl, h⟩
    · exact absurd (by rw [show r = _ from h]; rfl) hr
    · exact absurd (by rw [← show _ = r' from h]; rfl) hr'
    · obtain ⟨ha, htail⟩ := c.split (List.cons.inj h).2
      exact ⟨congrArg some ha, htail⟩

/-- A field that may be repeated. -/
def repeated (tag : UInt8) (c : Code α) : Field (List α) where
  tag := tag
  encode l := l.flatMap fun a ↦ tag :: c.encode a
  head_eq {a x} h := by
    cases a with
    | nil => cases h
    | cons a l => exact (Option.some.inj h).symm
  split {a a' r r'} hr hr' h := by
    induction a generalizing a' with
    | nil =>
      cases a' with
      | nil => exact ⟨rfl, h⟩
      | cons b l => exact absurd (by rw [show r = _ from h]; rfl) hr
    | cons b l ih =>
      cases a' with
      | nil => exact absurd (by rw [← show _ = r' from h]; rfl) hr'
      | cons b' l' =>
        rw [List.flatMap_cons, List.flatMap_cons, List.append_assoc, List.append_assoc] at h
        obtain ⟨hb, htail⟩ := c.split (List.cons.inj h).2
        obtain ⟨hl, hrest⟩ := ih htail
        exact ⟨by rw [hb, hl], hrest⟩

def contramap (F : Field β) (f : α → β) (hf : Function.Injective f) : Field α where
  tag := F.tag
  encode a := F.encode (f a)
  head_eq h := F.head_eq h
  split hr hr' h := ⟨hf (F.split hr hr' h).1, (F.split hr hr' h).2⟩

/-- A field that is absent when it has the default value. -/
def implicit [DecidableEq α] (tag : UInt8) (default : α) (c : Code α) : Field α :=
  (optional tag c).contramap (fun a ↦ if a = default then none else some a) fun a b h ↦ by
    by_cases ha : a = default <;> by_cases hb : b = default <;> simp_all

end Field

/-! ## Messages -/

/-- Fields one after the other, which determine their values if their tags are different. -/
structure Fields (α : Type) where
  tags : List UInt8
  encode : α → Bytes
  head_mem : ∀ {a : α} {x : UInt8}, (encode a).head? = some x → x ∈ tags
  injective : tags.Nodup → Function.Injective encode

namespace Fields

variable {α β : Type}

def one (F : Field α) : Fields α where
  tags := [F.tag]
  encode := F.encode
  head_mem h := List.mem_singleton.mpr (F.head_eq h)
  injective _ a a' h := (@Field.split α F a a' [] [] (by simp) (by simp) (by rw [h])).1

def cons (F : Field α) (Fs : Fields β) : Fields (α × β) where
  tags := F.tag :: Fs.tags
  encode a := F.encode a.1 ++ Fs.encode a.2
  head_mem {a x} hx := by
    rw [List.head?_append, Option.or_eq_some_iff] at hx
    rcases hx with hx | ⟨-, hx⟩
    · rw [F.head_eq hx]
      exact List.mem_cons_self
    · exact List.mem_cons_of_mem _ (Fs.head_mem hx)
  injective hnodup a a' heq := by
    obtain ⟨hF, hFs⟩ := List.nodup_cons.mp hnodup
    have hne : ∀ b, (Fs.encode b).head? ≠ some F.tag := fun b hb ↦ hF (Fs.head_mem hb)
    obtain ⟨h₁, h₂⟩ := F.split (hne a.2) (hne a'.2) heq
    exact Prod.ext h₁ (Fs.injective hFs h₂)

end Fields

/-- How a type of messages is written. -/
structure Layout (α : Type) where
  encode : α → Bytes
  injective : Function.Injective encode

/-- The layout of a type with the given fields. -/
def Fields.layout {α β : Type} (Fs : Fields β) (hnodup : Fs.tags.Nodup) (f : α → β)
    (hf : Function.Injective f) : Layout α where
  encode a := Fs.encode (f a)
  injective := (Fs.injective hnodup).comp hf

/-- A message inside another. -/
def Code.message {α : Type} (L : Layout α) : Code α := bytes.contramap L.encode L.injective

end Felidae
