import Mathlib.Data.Int.Notation
import Mathlib.Tactic.IntervalCases
import Mathlib.Tactic.Ring
import Felidae.Foundation.Text

/-!
# Byte strings

Fixed-width big-endian integers, lower-case hexadecimal and UTF-8, each with its decoder and the
fact that the decoder inverts it. The order of two big-endian strings of equal width is the order
of the numbers, which is what makes an index keyed by them scan in numerical order.
-/

namespace Felidae

/-- A byte string. -/
abbrev Bytes := List UInt8

/-! ## Big-endian integers -/

/-- The lowest `width` base-256 digits of `n`, most significant first. -/
def beBytes : ℕ → ℕ → Bytes
  | 0, _ => []
  | width + 1, n => UInt8.ofNat (n / 256 ^ width) :: beBytes width n

/-- The number a big-endian byte string denotes. -/
def ofBeBytes (b : Bytes) : ℕ := b.foldl (fun n d ↦ n * 256 + d.toNat) 0

/-- `i64::to_be_bytes` -/
def i64ToBeBytes (i : ℤ) : Bytes := beBytes 8 (i % 2 ^ 64).toNat

/-- `i64::from_be_bytes` -/
def i64FromBeBytes (b : Bytes) : ℤ :=
  if ofBeBytes b < 2 ^ 63 then (ofBeBytes b : ℤ) else (ofBeBytes b : ℤ) - 2 ^ 64

@[simp] theorem length_beBytes (width n : ℕ) : (beBytes width n).length = width := by
  induction width with
  | zero => rfl
  | succ width ih => rw [beBytes, List.length_cons, ih]

/-- The value of the lowest `width + 1` digits, by its leading digit and the others. -/
theorem mod_pow_succ (width n : ℕ) :
    n % 256 ^ (width + 1) = n / 256 ^ width % 256 * 256 ^ width + n % 256 ^ width := by
  rw [pow_succ, Nat.mod_mul, add_comm, mul_comm]

theorem foldl_beBytes (width n : ℕ) :
    ∀ a, (beBytes width n).foldl (fun n d ↦ n * 256 + d.toNat) a
      = a * 256 ^ width + n % 256 ^ width := by
  induction width with
  | zero => intro a; simp [beBytes, Nat.mod_one]
  | succ width ih =>
    intro a
    have hdigit : (UInt8.ofNat (n / 256 ^ width)).toNat = n / 256 ^ width % 256 :=
      UInt8.toNat_ofNat' ..
    rw [beBytes, List.foldl_cons, ih, hdigit, mod_pow_succ, pow_succ]
    ring

theorem ofBeBytes_beBytes {width n : ℕ} (h : n < 256 ^ width) :
    ofBeBytes (beBytes width n) = n := by
  rw [ofBeBytes, foldl_beBytes, Nat.mod_eq_of_lt h]
  omega

@[simp] theorem length_i64ToBeBytes (i : ℤ) : (i64ToBeBytes i).length = 8 := length_beBytes _ _

theorem i64FromBeBytes_toBeBytes {i : ℤ} (hlo : -2 ^ 63 ≤ i) (hhi : i < 2 ^ 63) :
    i64FromBeBytes (i64ToBeBytes i) = i := by
  have hlt : (i % 2 ^ 64).toNat < 256 ^ 8 := by omega
  rw [i64FromBeBytes, i64ToBeBytes, ofBeBytes_beBytes hlt]
  split <;> omega

/-- The lexicographic order of big-endian strings is the order of the numbers, whatever follows
them. -/
theorem mod_le_of_compare_beBytes (width : ℕ) : ∀ {n m : ℕ} {x y : Bytes},
    compare (beBytes width n ++ x) (beBytes width m ++ y) ≠ .gt →
      n % 256 ^ width ≤ m % 256 ^ width := by
  induction width with
  | zero => intro n m x y _; simp [Nat.mod_one]
  | succ width ih =>
    intro n m x y h
    have hpos : 0 < 256 ^ width := Nat.pow_pos (by decide)
    have hr := Nat.mod_lt n hpos
    rw [beBytes, beBytes, List.cons_append, List.cons_append, List.compare_cons_cons] at h
    rw [mod_pow_succ, mod_pow_succ]
    have hdigit : ∀ k, (UInt8.ofNat k).toNat = k % 256 := fun k ↦ UInt8.toNat_ofNat' ..
    rcases hd : compare (UInt8.ofNat (n / 256 ^ width)) (UInt8.ofNat (m / 256 ^ width)) with _ | _ |
      _
    · -- the leading digit decides
      rw [Std.compare_eq_lt, UInt8.lt_iff_toNat_lt, hdigit, hdigit] at hd
      have hstep := Nat.mul_le_mul_right (256 ^ width) (Nat.succ_le_of_lt hd)
      rw [Nat.succ_mul] at hstep
      omega
    · rw [hd, Ordering.eq_then] at h
      rw [Std.compare_eq_iff_eq, ← UInt8.toNat_inj, hdigit, hdigit] at hd
      rw [hd]
      have := ih h
      omega
    · rw [hd] at h
      exact absurd rfl h

theorem compare_append_left (p x y : Bytes) : compare (p ++ x) (p ++ y) = compare x y := by
  induction p with
  | nil => rfl
  | cons b p ih =>
    rw [List.cons_append, List.cons_append, List.compare_cons_cons, Std.ReflOrd.compare_self,
      Ordering.eq_then, ih]

/-- From zero on, the big-endian `i64` are ordered as the numbers. -/
theorem le_of_compare_i64ToBeBytes {i j : ℤ} (hi : 0 ≤ i) (hi' : i < 2 ^ 63) (hj : 0 ≤ j)
    (hj' : j < 2 ^ 63) {x y : Bytes}
    (h : compare (i64ToBeBytes i ++ x) (i64ToBeBytes j ++ y) ≠ .gt) : i ≤ j := by
  have hle := mod_le_of_compare_beBytes 8 h
  omega

/-! ## Decimal -/

/-- The lowest `width` decimal digits of `n`, most significant first: `{:0width}` of a number that
fits. -/
def decimal : ℕ → ℕ → Str
  | 0, _ => []
  | width + 1, n => Nat.digitChar (n / 10 ^ width % 10) :: decimal width n

theorem digitChar_injOn {n m : ℕ} (hn : n < 10) (hm : m < 10)
    (h : Nat.digitChar n = Nat.digitChar m) : n = m := by
  interval_cases n <;> interval_cases m <;> first | rfl | exact absurd h (by decide)

theorem mod_pow_eq_of_decimal_eq (width : ℕ) : ∀ {n m : ℕ}, decimal width n = decimal width m →
    n % 10 ^ width = m % 10 ^ width := by
  induction width with
  | zero => intro n m _; simp [Nat.mod_one]
  | succ width ih =>
    intro n m h
    obtain ⟨hdigit, hrest⟩ := List.cons_eq_cons.mp h
    rw [pow_succ, Nat.mod_mul, Nat.mod_mul, ih hrest,
      digitChar_injOn (Nat.mod_lt _ (by decide)) (Nat.mod_lt _ (by decide)) hdigit]

theorem decimal_injOn {width n m : ℕ} (hn : n < 10 ^ width) (hm : m < 10 ^ width)
    (h : decimal width n = decimal width m) : n = m := by
  have := mod_pow_eq_of_decimal_eq width h
  rwa [Nat.mod_eq_of_lt hn, Nat.mod_eq_of_lt hm] at this

/-! ## Hexadecimal -/

/-- The two lower-case digits of a byte. -/
def hexByte (b : UInt8) : Str := [Nat.digitChar (b.toNat / 16), Nat.digitChar (b.toNat % 16)]

/-- `hex::encode` -/
def hexEncode (b : Bytes) : Str := b.flatMap hexByte

/-- The value of a hexadecimal digit of either case. -/
def hexValue (c : Char) : Option ℕ :=
  if '0' ≤ c ∧ c ≤ '9' then some (c.toNat - 48)
  else if 'a' ≤ c ∧ c ≤ 'f' then some (c.toNat - 87)
  else if 'A' ≤ c ∧ c ≤ 'F' then some (c.toNat - 55)
  else none

/-- `hex::decode` -/
def hexDecode : Str → Option Bytes
  | [] => some []
  | [_] => none
  | c :: d :: s =>
    match hexValue c, hexValue d, hexDecode s with
    | some hi, some lo, some b => some (UInt8.ofNat (hi * 16 + lo) :: b)
    | _, _, _ => none

theorem hexValue_digitChar {n : ℕ} (h : n < 16) : hexValue (Nat.digitChar n) = some n := by
  interval_cases n <;> decide

theorem slash_notMem_hexEncode (b : Bytes) : '/' ∉ hexEncode b := by
  rw [hexEncode, List.mem_flatMap]
  rintro ⟨d, -, hd⟩
  have hdigit : ∀ n < 16, '/' ≠ Nat.digitChar n := by decide
  have hlt := d.toNat_lt
  rcases List.mem_cons.mp hd with h | h
  · exact hdigit _ (by omega) h
  · exact hdigit _ (by omega) (List.mem_singleton.mp h)

@[simp] theorem hexDecode_hexEncode (b : Bytes) : hexDecode (hexEncode b) = some b := by
  induction b with
  | nil => rfl
  | cons d b ih =>
    have hlt := d.toNat_lt
    have hd : UInt8.ofNat (d.toNat / 16 * 16 + d.toNat % 16) = d := by
      rw [Nat.div_add_mod', UInt8.ofNat_toNat]
    rw [hexEncode, List.flatMap_cons, ← hexEncode, hexByte, List.cons_append, List.cons_append,
      List.nil_append, hexDecode, hexValue_digitChar (by omega), hexValue_digitChar (by omega), ih]
    simp only [hd]

theorem hexEncode_injective : Function.Injective hexEncode := fun a b h ↦ by
  simpa using congrArg hexDecode h

/-! ## UTF-8 -/

/-- `str::as_bytes` -/
def toUtf8 (s : Str) : Bytes := s.flatMap String.utf8EncodeChar

/-- Decode at most `fuel` characters; a string has no more characters than bytes. -/
def fromUtf8Fuel : ℕ → Bytes → Option Str
  | _, [] => some []
  | 0, _ :: _ => none
  | fuel + 1, b :: bs =>
    match (b :: bs).toByteArray.utf8DecodeChar? 0 with
    | none => none
    | some c => (fromUtf8Fuel fuel ((b :: bs).drop c.utf8Size)).map (c :: ·)

/-- `std::str::from_utf8` -/
def fromUtf8 (b : Bytes) : Option Str := fromUtf8Fuel b.length b

@[simp] theorem toUtf8_nil : toUtf8 [] = [] := rfl

theorem toUtf8_cons (c : Char) (s : Str) : toUtf8 (c :: s) = String.utf8EncodeChar c ++ toUtf8 s :=
  List.flatMap_cons

theorem toUtf8_append (s t : Str) : toUtf8 (s ++ t) = toUtf8 s ++ toUtf8 t :=
  List.flatMap_append

theorem fromUtf8Fuel_toUtf8 (s : Str) :
    ∀ fuel, (toUtf8 s).length ≤ fuel → fromUtf8Fuel fuel (toUtf8 s) = some s := by
  induction s with
  | nil => intro fuel _; simp [fromUtf8Fuel]
  | cons c s ih =>
    intro fuel hfuel
    have hlen : (String.utf8EncodeChar c).length = c.utf8Size := String.length_utf8EncodeChar c
    have hpos := c.utf8Size_pos
    have hchar : (toUtf8 (c :: s)).toByteArray.utf8DecodeChar? 0 = some c :=
      List.utf8DecodeChar?_utf8Encode_cons
    rw [toUtf8_cons, List.length_append, hlen] at hfuel
    obtain ⟨fuel, rfl⟩ := Nat.exists_eq_succ_of_ne_zero (by omega : fuel ≠ 0)
    have hdrop : (toUtf8 (c :: s)).drop c.utf8Size = toUtf8 s := by
      rw [toUtf8_cons, ← hlen, List.drop_left]
    rcases hs : toUtf8 (c :: s) with _ | ⟨b, bs⟩
    · rw [toUtf8_cons] at hs
      have := congrArg List.length hs
      rw [List.length_append, hlen, List.length_nil] at this
      omega
    · rw [fromUtf8Fuel, ← hs, hchar]
      simp only [hdrop]
      rw [ih fuel (by omega), Option.map_some]

@[simp] theorem fromUtf8_toUtf8 (s : Str) : fromUtf8 (toUtf8 s) = some s :=
  fromUtf8Fuel_toUtf8 s _ le_rfl

theorem toUtf8_injective : Function.Injective toUtf8 := fun s t h ↦ by
  simpa using congrArg fromUtf8 h

end Felidae
