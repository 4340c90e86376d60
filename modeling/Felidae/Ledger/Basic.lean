import Felidae.Ledger.Layout

/-!
# The ledger

What the store means: registers, histories, validators, two queues and the canonical state, as
functions of their own keys. A queue is two partial functions, the votes and the pending changes;
the index of pending changes mirrors them, while the index of votes may hold entries of votes that
have since been replaced, and is a component of its own.

`Represents s L` says that the store `s` holds exactly the ledger `L`. The rules of this file turn
each store operation into one on the functions.
-/

open Classical

namespace Felidae

/-- A vote queue, seen from its votes. -/
structure QueueState (K V : Type) where
  votes : K → Bytes → Option (Second × V)
  voteIndex : Second → K → Bytes → Option V
  pending : K → Option (Second × V)

structure Ledger where
  chainId : ChainId
  /-- The config as it was written. -/
  written : Config
  height : Option Height
  time : Option Time
  blockTimes : Height → Option Time
  appHashes : Height → Option AppHash
  validators : Bytes → Option Power
  queue : ∀ q : QueueId, QueueState q.Key q.Value
  canonical : PrefixOrderDomain → Option Hash32

/-- The part of an entry that was made in second `t`. -/
def heldAt {V : Type} (o : Option (Second × V)) (t : Second) : Option V :=
  o.bind fun e ↦ if e.1 = t then some e.2 else none

@[simp] theorem heldAt_eq_some {V : Type} {o : Option (Second × V)} {t : Second} {v : V} :
    heldAt o t = some v ↔ o = some (t, v) := by
  rcases o with _ | ⟨t', v'⟩
  · simp [heldAt]
  · by_cases ht : t' = t <;> simp [heldAt, ht]

theorem heldAt_bind {V : Type} (o : Option (Second × V)) (P : Second → Prop) (t : Second) :
    heldAt (o.bind fun e ↦ if P e.1 then none else some e) t
      = if P t then none else heldAt o t := by
  rcases o with _ | ⟨t', v⟩
  · simp [heldAt]
  · by_cases ht : t' = t
    · subst ht
      by_cases hP : P t' <;> simp [heldAt, hP]
    · by_cases hP : P t' <;> simp [heldAt, hP, ht]

namespace Ledger

/-- The config in force: what is read back of the one written. -/
def config (L : Ledger) : Config := L.written.readBack

variable [Host]

/-- The verifiable store of a ledger. -/
def view (L : Ledger) : Key → Option Proto.Stored
  | .config => some (DomainType.toStored L.written)
  | .chainId => some (DomainType.toStored L.chainId)
  | .blockHeight => L.height.map DomainType.toStored
  | .blockTime => L.time.map DomainType.toStored
  | .blocktime h => (L.blockTimes h).map DomainType.toStored
  | .apphash h => (L.appHashes h).map (DomainType.toStored (V := Bytes))
  | .validator pubKey => (L.validators pubKey).map DomainType.toStored
  | .vote q k party t => (heldAt ((L.queue q).votes k party) t).map DomainType.toStored
  | .pending q k t => (heldAt ((L.queue q).pending k) t).map DomainType.toStored
  | .canonical d => (L.canonical d).map fun h ↦ DomainType.toStored (V := Bytes) h.bytes

/-- The non-verifiable store of a ledger. -/
def indexView (L : Ledger) : IndexKey → Option Proto.Stored
  | .vote q t k party => ((L.queue q).voteIndex t k party).map DomainType.toStored
  | .pending q t k => (heldAt ((L.queue q).pending k) t).map DomainType.toStored

end Ledger

/-! ## Stores laid out by keys -/

/-- A partial function with part of its domain taken away. -/
noncomputable def without {α β : Type} (f : α → Option β) (D : Set α) : α → Option β :=
  fun a ↦ if a ∈ D then none else f a

theorem without_apply_of_mem {α β : Type} {f : α → Option β} {D : Set α} {a : α} (h : a ∈ D) :
    without f D a = none := if_pos h

theorem without_apply_of_notMem {α β : Type} {f : α → Option β} {D : Set α} {a : α} (h : a ∉ D) :
    without f D a = f a := if_neg h

@[simp] theorem without_empty {α β : Type} (f : α → Option β) : without f ∅ = f := by
  funext a
  exact without_apply_of_notMem (Set.notMem_empty a)

theorem without_without {α β : Type} (f : α → Option β) (D E : Set α) :
    without (without f D) E = without f (D ∪ E) := by
  funext a
  simp only [without, Set.mem_union]
  by_cases hD : a ∈ D <;> by_cases hE : a ∈ E <;> simp [hD, hE]

theorem update_none_eq_without {α β : Type} (f : α → Option β) (a : α) :
    Function.update f a none = without f {a} := by
  funext b
  by_cases hb : b = a
  · rw [hb, Function.update_self, without_apply_of_mem (Set.mem_singleton a)]
  · rw [Function.update_of_ne hb, without_apply_of_notMem (by simpa using hb)]

/-- The two parts of the store are the given partial functions of their keys. -/
structure Laid [Host] (s : Store) (view : Key → Option Proto.Stored)
    (index : IndexKey → Option Proto.Stored) : Prop where
  verifiable : Region s.verifiable [] Key.text view
  nonverifiable : Region s.nonverifiable [] IndexKey.bytes index

/-- The store holds exactly the ledger. -/
def Represents [Host] (s : Store) (L : Ledger) : Prop := Laid s L.view L.indexView

namespace Laid

variable [Host] {s : Store} {view : Key → Option Proto.Stored}
  {index : IndexKey → Option Proto.Stored} {substore : Substore}

theorem congr (h : Laid s view index) {view' : Key → Option Proto.Stored}
    {index' : IndexKey → Option Proto.Stored} (hv : view' = view) (hi : index' = index) :
    Laid s view' index' := by
  rwa [hv, hi]

/-! ### Writes -/

/-- A loop that deletes one key of each part at a time. -/
theorem foldl_delete {ι : Type} {f : ι → Store → Store} {key : ι → Key} {ikey : ι → IndexKey}
    (hf : ∀ i s view index, Laid s view index →
      Laid (f i s) (without view {key i}) (without index {ikey i})) :
    ∀ (is : List ι) {s : Store} {view : Key → Option Proto.Stored}
      {index : IndexKey → Option Proto.Stored}, Laid s view index →
      Laid (is.foldl (fun s i ↦ f i s) s) (without view {k | ∃ i ∈ is, k = key i})
        (without index {k | ∃ i ∈ is, k = ikey i})
  | [], s, view, index, h => by simpa using h
  | i :: is, s, view, index, h => by
    have ih := foldl_delete hf is (hf i s view index h)
    rw [without_without, without_without] at ih
    refine ih.congr (congrArg _ ?_) (congrArg _ ?_) <;>
    · ext k
      simp

section Writes

variable [LawfulHost] {V : Type} [DomainType V]

theorem put (h : Laid s view index) {key : Str} {k : Key} (hk : substore.prefixed key = k.text)
    (v : V) : Laid (s.put substore key v)
      (Function.update view k (some (DomainType.toStored v))) index where
  verifiable := by
    have := h.verifiable.insert Key.text_injective k (DomainType.toStored v)
    rwa [List.nil_append, ← hk] at this
  nonverifiable := h.nonverifiable

theorem delete (h : Laid s view index) {key : Str} {k : Key}
    (hk : substore.prefixed key = k.text) :
    Laid (s.delete substore key) (without view {k}) index where
  verifiable := by
    have := h.verifiable.erase Key.text_injective k
    rwa [List.nil_append, ← hk, update_none_eq_without] at this
  nonverifiable := h.nonverifiable

theorem indexPut (h : Laid s view index) {key : Bytes} {k : IndexKey}
    (hk : substore.prefixedBytes key = k.bytes) (v : V) :
    Laid (s.indexPut substore key v) view
      (Function.update index k (some (DomainType.toStored v))) where
  verifiable := h.verifiable
  nonverifiable := by
    have := h.nonverifiable.insert IndexKey.bytes_injective k (DomainType.toStored v)
    rwa [List.nil_append, ← hk] at this

theorem indexDelete (h : Laid s view index) {key : Bytes} {k : IndexKey}
    (hk : substore.prefixedBytes key = k.bytes) :
    Laid (s.indexDelete substore key) view (without index {k}) where
  verifiable := h.verifiable
  nonverifiable := by
    have := h.nonverifiable.erase IndexKey.bytes_injective k
    rwa [List.nil_append, ← hk, update_none_eq_without] at this

end Writes

/-! ### Reads -/

section Reads

variable {V : Type} [DomainType V]

theorem get (h : Laid s view index) {key : Str} {k : Key} (hk : substore.prefixed key = k.text) :
    Store.get V substore key s = match view k with
      | none => .ok none
      | some m => (DomainType.ofStored m).map some := by
  have hget := h.verifiable.get k
  rw [List.nil_append, ← hk] at hget
  rw [← hget]
  exact rfl

/-- Reading a register or a table entry that holds a clean value. -/
theorem get_clean (h : Laid s view index) {key : Str} {k : Key}
    (hk : substore.prefixed key = k.text) {o : Option V} (ho : view k = o.map DomainType.toStored)
    (hclean : ∀ v, o = some v → Clean v) : Store.get V substore key s = .ok o := by
  rw [h.get hk, ho]
  rcases o with _ | v
  · rfl
  · change (DomainType.ofStored (DomainType.toStored v)).map some = _
    rw [hclean v rfl]
    rfl

/-- A typed scan whose entries are clean values under keys the code can name. -/
theorem scan_eq {ι : Type} {p : Str} {is : List ι} {k : ι → Key} {v : ι → V} {n : ι → Str}
    (hscan : s.verifiable.scan (substore.prefixed p)
      = is.map fun i ↦ ((k i).text, DomainType.toStored (v i)))
    (hclean : ∀ i ∈ is, Clean (v i)) (hname : ∀ i, substore.prefixed (n i) = (k i).text) :
    s.scan V substore p = is.map fun i ↦ .ok (n i, v i) := by
  rw [Store.scan, hscan, List.map_map]
  refine List.map_congr_left fun i hi ↦ ?_
  have hread : DomainType.ofStored (DomainType.toStored (v i)) = .ok (v i) := hclean i hi
  simp only [Function.comp_apply, hread, except_ok_bind, ← hname, Substore.unprefix_prefixed]

theorem indexScan_eq {ι : Type} {p : Bytes} {is : List ι} {k : ι → IndexKey}
    {m : ι → Proto.Stored} {v : ι → V} {n : ι → Bytes}
    (hscan : s.nonverifiable.scan (substore.prefixedBytes p) = is.map fun i ↦ ((k i).bytes, m i))
    (hclean : ∀ i ∈ is, DomainType.ofStored (m i) = .ok (v i))
    (hname : ∀ i, substore.prefixedBytes (n i) = (k i).bytes) :
    s.indexScan V substore p = is.map fun i ↦ .ok (n i, v i) := by
  rw [Store.indexScan, hscan, List.map_map]
  refine List.map_congr_left fun i hi ↦ ?_
  simp only [Function.comp_apply, hclean i hi, except_ok_bind, ← hname,
    Substore.unprefixBytes_prefixedBytes]

variable [LawfulHost]

/-- A scan of the verifiable store, as a list of keys. -/
theorem exists_scan (h : Laid s view index) {ι : Type} {p : Str} {P : ι → Prop} {k : ι → Key}
    {v : ι → Proto.Stored}
    (hcover : ∀ x a, view x = some a → p <+: x.text → ∃ i, P i ∧ k i = x ∧ v i = a)
    (hmem : ∀ i, P i → view (k i) = some (v i) ∧ p <+: (k i).text)
    (hinj : ∀ i j, P i → P j → k i = k j → i = j) :
    ∃ is : List ι, s.verifiable.scan p = is.map (fun i ↦ ((k i).text, v i)) ∧
      (∀ i, i ∈ is ↔ P i) ∧ is.Nodup := by
  obtain ⟨is, hscan, hP, hpair⟩ :=
    h.verifiable.exists_scan hcover hmem hinj Key.text_injective
  refine ⟨is, hscan, hP, hpair.imp fun {i j} hij hne ↦ ?_⟩
  rw [hne, Std.ReflOrd.compare_self] at hij
  exact Ordering.noConfusion hij

/-- A scan of the index, as a list of keys from the oldest to the newest. -/
theorem exists_indexScan (h : Laid s view index) {ι : Type} {p : Bytes} {P : ι → Prop}
    {k : ι → IndexKey} {v : ι → Proto.Stored}
    (hcover : ∀ x a, index x = some a → p <+: x.bytes → ∃ i, P i ∧ k i = x ∧ v i = a)
    (hmem : ∀ i, P i → index (k i) = some (v i) ∧ p <+: (k i).bytes)
    (hinj : ∀ i j, P i → P j → k i = k j → i = j) :
    ∃ is : List ι, s.nonverifiable.scan p = is.map (fun i ↦ ((k i).bytes, v i)) ∧
      (∀ i, i ∈ is ↔ P i) ∧
      is.Pairwise fun i j ↦ compare (k i).bytes (k j).bytes = .lt :=
  h.nonverifiable.exists_scan hcover hmem hinj IndexKey.bytes_injective

end Reads

end Laid

end Felidae
