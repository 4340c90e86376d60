import Felidae.Convert
import Felidae.Foundation.Check

/-!
# The store

The state of the chain is one ordered key-value store with two substores and a non-verifiable
index. Reads return a decoded value, a failure to decode, or nothing; writes cannot fail. A prefix
scan is a stream whose items fail one by one.

The delta of a block is not distinguished from the committed store under it: reads see the writes
made before them, and nothing is rolled back when a computation fails.
-/

namespace Felidae

/-- The store of a node. -/
structure Store where
  verifiable : Verifiable
  nonverifiable : Nonverifiable

/-- A computation over the store. Its writes stay when it fails. -/
abbrev Command (α : Type) := Exec Store Fault α

inductive Substore where
  | internal
  | canonical
  deriving DecidableEq

namespace Substore

def display : Substore → Str
  | internal => "internal".toList
  | canonical => "canonical".toList

/-- `Substore::prefix` -/
def prefixed (substore : Substore) (key : Str) : Str := substore.display ++ '/' :: key

/-- `Substore::prefix_bytes` -/
def prefixedBytes (substore : Substore) (key : Bytes) : Bytes :=
  toUtf8 (substore.display ++ ['/']) ++ key

/-- `Substore::unprefix` -/
def unprefix (substore : Substore) (key : Str) : Option Str :=
  stripPrefix (substore.display ++ ['/']) key

/-- `Substore::unprefix_bytes` -/
def unprefixBytes (substore : Substore) (key : Bytes) : Option Bytes :=
  if (toUtf8 (substore.display ++ ['/'])).isPrefixOf key then
    some (key.drop (toUtf8 (substore.display ++ ['/'])).length)
  else none

@[simp] theorem unprefix_prefixed (substore : Substore) (key : Str) :
    Substore.unprefix substore (substore.prefixed key) = some key := by
  rw [Substore.unprefix, prefixed, List.append_cons substore.display '/' key, stripPrefix_append]

theorem eq_prefixed_of_unprefix {substore : Substore} {text key : Str}
    (h : Substore.unprefix substore text = some key) : text = substore.prefixed key := by
  rw [eq_append_of_stripPrefix h, prefixed, List.append_assoc, List.singleton_append]

@[simp] theorem unprefixBytes_prefixedBytes (substore : Substore) (key : Bytes) :
    Substore.unprefixBytes substore (substore.prefixedBytes key) = some key := by
  rw [unprefixBytes, prefixedBytes, if_pos (by simp), List.drop_left]

end Substore

/-- `ok_or_eyre` -/
def okOr {α : Type} (o : Option α) (e : Fault) : Except Fault α := o.elim (.error e) .ok

@[simp] theorem okOr_some {α : Type} (a : α) (e : Fault) : okOr (some a) e = .ok a := rfl

@[simp] theorem okOr_none {α : Type} (e : Fault) : okOr (none : Option α) e = .error e := rfl

theorem okOr_eq_ok {α : Type} {o : Option α} {e : Fault} {a : α} :
    okOr o e = .ok a ↔ o = some a := by
  cases o <;> simp

/-- `if c { bail!(message) }` -/
def bailIf (c : Prop) [Decidable c] (message : String) : Except Fault Unit :=
  if c then .error (.reject message) else .ok ()

/-- The errors that checks on a request end in. -/
def Fault.Rejects : Fault → Prop
  | .reject _ => True
  | _ => False

theorem decides_bailIf (c : Prop) [Decidable c] (message : String) :
    Decides Fault.Rejects (bailIf c message) ¬c := by
  rw [bailIf]
  by_cases hc : c
  · rw [if_pos hc]
    exact .error trivial (not_not.mpr hc)
  · rw [if_neg hc]
    exact .ok hc

/-! ## Streams -/

/-- A stream of results. -/
abbrev Results (α : Type) := List (Except Fault α)

namespace Results

variable {α β : Type}

/-- `stream.map(|result| f(result?))` -/
def andThen (l : Results α) (f : α → Except Fault β) : Results β := l.map (· >>= f)

/-- `TryStreamExt::try_take_while`: an error passes through. -/
def takeWhile (p : α → Bool) : Results α → Results α
  | [] => []
  | .error e :: l => .error e :: takeWhile p l
  | .ok a :: l => if p a then .ok a :: takeWhile p l else []

/-- `TryStreamExt::try_collect` -/
def collect (l : Results α) : Except Fault (List α) := Felidae.collect id l

/-- `while let Some(Ok(item)) = stream.next().await`: the items before the first error. -/
def untilError : Results α → List α
  | .ok a :: l => a :: untilError l
  | _ => []

variable {ι : Type}

@[simp] theorem andThen_map_ok (is : List ι) (a : ι → α) (f : α → Except Fault β) :
    andThen (is.map fun i ↦ .ok (a i)) f = is.map fun i ↦ f (a i) := by
  simp [andThen, Function.comp_def]

@[simp] theorem takeWhile_map_ok (is : List ι) (a : ι → α) (p : α → Bool) :
    takeWhile p (is.map fun i ↦ .ok (a i))
      = (is.takeWhile fun i ↦ p (a i)).map fun i ↦ .ok (a i) := by
  induction is with
  | nil => rfl
  | cons i is ih =>
    rw [List.map_cons, takeWhile, List.takeWhile_cons]
    by_cases h : p (a i) = true
    · rw [if_pos h, if_pos h, List.map_cons, ih]
    · rw [if_neg h, if_neg h, List.map_nil]

theorem collect_map {is : List ι} {f : ι → Except Fault β} {g : ι → β}
    (h : ∀ i ∈ is, f i = .ok (g i)) : collect (is.map f) = .ok (is.map g) :=
  collect_map_eq_ok h

@[simp] theorem untilError_map_ok (is : List ι) (a : ι → α) :
    untilError (is.map fun i ↦ .ok (a i)) = is.map a := by
  induction is with
  | nil => rfl
  | cons i is ih => rw [List.map_cons, untilError, ih, List.map_cons]

end Results

/-! ## Typed access -/

namespace Store

/-- The store before the chain is initialized. -/
def empty : Store := ⟨∅, ∅⟩

variable (V : Type) [DomainType V]

/-- `StateReadExt::get` -/
def get (substore : Substore) (key : Str) (s : Store) : Except Fault (Option V) :=
  match s.verifiable[substore.prefixed key]? with
  | none => .ok none
  | some m => (DomainType.ofStored m).map some

/-- `StateReadExt::prefix` -/
def scan (substore : Substore) (key : Str) (s : Store) : Results (Str × V) :=
  (s.verifiable.scan (substore.prefixed key)).map fun e ↦ do
    let v ← DomainType.ofStored e.2
    match Substore.unprefix substore e.1 with
    | none => .error (.panic "key from wrong substore")
    | some k => .ok (k, v)

/-- `StateReadExt::prefix_keys` -/
def scanKeys (substore : Substore) (key : Str) (s : Store) : Results Str :=
  (s.verifiable.scan (substore.prefixed key)).map fun e ↦
    match Substore.unprefix substore e.1 with
    | none => .error (.panic "key from wrong substore")
    | some k => .ok k

/-- `StateReadExt::index_prefix` -/
def indexScan (substore : Substore) (key : Bytes) (s : Store) : Results (Bytes × V) :=
  (s.nonverifiable.scan (substore.prefixedBytes key)).map fun e ↦ do
    let v ← DomainType.ofStored e.2
    match Substore.unprefixBytes substore e.1 with
    | none => .error (.panic "key from wrong substore")
    | some k => .ok (k, v)

variable {V}

/-- `StateWriteExt::put` -/
def put (substore : Substore) (key : Str) (v : V) (s : Store) : Store :=
  { s with verifiable := s.verifiable.insert (substore.prefixed key) (DomainType.toStored v) }

theorem get_put_self {v : V} (hv : Clean v) (substore : Substore) (key : Str) (s : Store) :
    Store.get V substore key (s.put substore key v) = .ok (some v) := by
  rw [get, put, PrefixMap.getElem?_insert_self]
  change (DomainType.ofStored (DomainType.toStored v)).map some = _
  rw [hv]
  rfl

theorem get_put_of_ne {W : Type} [DomainType W] {substore : Substore} {key key' : Str}
    (h : key ≠ key') (w : W) (s : Store) :
    Store.get V substore key' (s.put substore key w) = Store.get V substore key' s := by
  have hne : substore.prefixed key ≠ substore.prefixed key' := fun heq ↦
    h (List.cons.inj (List.append_cancel_left heq)).2
  rw [get, put, PrefixMap.getElem?_insert_of_ne hne, get]

/-- A value that is written again leaves no trace. -/
theorem put_put (substore : Substore) (key : Str) (v w : V) (s : Store) :
    (s.put substore key v).put substore key w = s.put substore key w := by
  rw [put, put, put, PrefixMap.insert_insert]

/-- `StateWriteExt::delete` -/
def delete (substore : Substore) (key : Str) (s : Store) : Store :=
  { s with verifiable := s.verifiable.erase (substore.prefixed key) }

/-- `StateWriteExt::index_put` -/
def indexPut (substore : Substore) (key : Bytes) (v : V) (s : Store) : Store :=
  { s with nonverifiable :=
      s.nonverifiable.insert (substore.prefixedBytes key) (DomainType.toStored v) }

/-- `StateWriteExt::index_delete` -/
def indexDelete (substore : Substore) (key : Bytes) (s : Store) : Store :=
  { s with nonverifiable := s.nonverifiable.erase (substore.prefixedBytes key) }

end Store

end Felidae
