import Mathlib.Data.List.Basic
import Mathlib.Data.List.DropRight

/-!
# Text as lists of characters

The string operations that build and parse delimited keys: stripping a literal head, splitting at
a delimiter, cutting at the last delimiter. A segment is a string free of the delimiter; the
lemmas say that concatenations of segments can be taken apart again, and that a concatenation
starts with `seg ++ [delimiter]` only if `seg` is its first segment.
-/

namespace Felidae

/-- A string, as the list of its characters. -/
abbrev Str := List Char

/-! ## Stripping and cutting -/

/-- `str::strip_prefix` -/
def stripPrefix (p s : Str) : Option Str :=
  if p.isPrefixOf s then some (s.drop p.length) else none

/-- `str::strip_suffix` for one character, with `unwrap_or` of the string itself. -/
def stripTrailing (c : Char) (s : Str) : Str :=
  if s.getLast? = some c then s.dropLast else s

/-- `str::trim_start_matches` -/
def trimStart (c : Char) (s : Str) : Str := s.dropWhile (· = c)

/-- `str::trim_end_matches` -/
def trimEnd (c : Char) (s : Str) : Str := s.rdropWhile (· = c)

/-- `str::trim_start_matches` for a string, which is stripped as often as it occurs; the fuel is
the length of the text. -/
def trimStartMatches (p : Str) : ℕ → Str → Str
  | 0, s => s
  | fuel + 1, s => if p.isPrefixOf s then trimStartMatches p fuel (s.drop p.length) else s

/-- The two parts of a string around the last occurrence of `c` (`rfind` and two slices). -/
def cutLast (c : Char) (s : Str) : Option (Str × Str) :=
  match s.reverse.dropWhile (· ≠ c) with
  | [] => none
  | _ :: front => some (front.reverse, (s.reverse.takeWhile (· ≠ c)).reverse)

@[simp] theorem stripPrefix_append (p s : Str) : stripPrefix p (p ++ s) = some s := by
  rw [stripPrefix, if_pos (List.isPrefixOf_iff_prefix.mpr (List.prefix_append p s)),
    List.drop_left]

theorem eq_append_of_stripPrefix {p s r : Str} (h : stripPrefix p s = some r) : s = p ++ r := by
  rw [stripPrefix] at h
  split_ifs at h with hp
  obtain ⟨r', rfl⟩ := List.isPrefixOf_iff_prefix.mp hp
  rw [List.drop_left] at h
  rw [Option.some.inj h]

theorem trimStartMatches_append {p s : Str} (hp : p ≠ []) (h : ¬p <+: s) :
    trimStartMatches p (p ++ s).length (p ++ s) = s := by
  obtain ⟨c, p, rfl⟩ := List.exists_cons_of_ne_nil hp
  have hlen : ((c :: p) ++ s).length = (p ++ s).length + 1 := rfl
  rw [hlen, trimStartMatches, if_pos (by simp), List.drop_left]
  rcases hn : (p ++ s).length with _ | n
  · rw [trimStartMatches]
  · rw [trimStartMatches, if_neg (by simpa using h)]

theorem cutLast_append {c : Char} {s t : Str} (ht : c ∉ t) :
    cutLast c (s ++ c :: t) = some (s, t) := by
  have hrev : (s ++ c :: t).reverse = t.reverse ++ c :: s.reverse := by simp
  have hall : ∀ d ∈ t.reverse, decide (d ≠ c) = true := fun d hd ↦
    decide_eq_true fun h ↦ ht (h ▸ List.mem_reverse.mp hd)
  rw [cutLast, hrev, List.dropWhile_append_of_pos hall, List.takeWhile_append_of_pos hall,
    List.dropWhile_cons_of_neg (by simp), List.takeWhile_cons_of_neg (by simp)]
  simp

theorem trimStart_cons_of_head {c : Char} {s : Str} (h : s.head? ≠ some c) :
    trimStart c (c :: s) = s := by
  rw [trimStart, List.dropWhile_cons_of_pos (by simp)]
  cases s with
  | nil => rfl
  | cons d s => rw [List.dropWhile_cons_of_neg (by simpa using h)]

theorem not_suffix_trimEnd (c : Char) (s : Str) : ¬[c] <:+ trimEnd c s := by
  rintro ⟨t, ht⟩
  have hne : trimEnd c s ≠ [] := by
    rw [← ht]
    exact List.append_ne_nil_of_right_ne_nil t (List.cons_ne_nil _ _)
  have hlast : (trimEnd c s).getLast hne = c := by
    simp only [← ht, List.getLast_append_singleton]
  exact List.rdropWhile_last_not (· = c) s hne (decide_eq_true hlast)

theorem trimEnd_append {c : Char} {s t : Str} (hne : t ≠ []) (ht : c ∉ t) :
    trimEnd c (s ++ t ++ [c]) = s ++ t := by
  rw [trimEnd, List.rdropWhile_concat_pos (· = c) _ c (decide_eq_true rfl),
    List.rdropWhile_eq_self_iff]
  intro happend hlast
  rw [List.getLast_append_of_ne_nil happend hne] at hlast
  exact ht (of_decide_eq_true hlast ▸ List.getLast_mem hne)

/-! ## Joining -/

/-- Joining with a separator and adding one more is ending every part with it. -/
theorem intercalate_append {c : Char} : ∀ {ls : List Str}, ls ≠ [] →
    List.intercalate [c] ls ++ [c] = ls.flatMap (· ++ [c])
  | [], h => absurd rfl h
  | [l], _ => by simp
  | l :: l' :: ls, _ => by
    rw [List.intercalate_cons_cons, List.append_assoc, List.append_assoc,
      intercalate_append (List.cons_ne_nil l' ls)]
    simp

theorem notMem_intercalate {c d : Char} (hd : d ≠ c) :
    ∀ {ls : List Str}, (∀ l ∈ ls, c ∉ l) → c ∉ List.intercalate [d] ls
  | [], _ => List.not_mem_nil
  | [l], h => by simpa using h
  | l :: l' :: ls, h => by
    have ih := notMem_intercalate hd fun t ht ↦ h t (List.mem_cons_of_mem l ht)
    rw [List.intercalate_cons_cons, List.mem_append, List.mem_append, List.mem_singleton]
    rintro ((hl | rfl) | hls)
    · exact h l List.mem_cons_self hl
    · exact hd rfl
    · exact ih hls

/-! ## Segments -/

section Segments

variable {κ : Type*} {c : κ}

/-- A string starting with a complete segment starts with no other. -/
theorem cons_prefix_iff_of_notMem {k k' x y : List κ} (hk : c ∉ k) (hk' : c ∉ k') :
    k ++ c :: x <+: k' ++ c :: y ↔ k = k' ∧ x <+: y := by
  induction k generalizing k' with
  | nil =>
    cases k' with
    | nil => simp
    | cons d k' =>
      have hd : c ≠ d := fun h ↦ hk' (h ▸ List.mem_cons_self)
      simp [hd]
  | cons b k ih =>
    have hb : b ≠ c := fun h ↦ hk (h ▸ List.mem_cons_self)
    cases k' with
    | nil => simp [hb]
    | cons d k' =>
      rw [List.cons_append, List.cons_append, List.cons_prefix_cons,
        ih (fun h ↦ hk (List.mem_cons_of_mem _ h)) (fun h ↦ hk' (List.mem_cons_of_mem _ h)),
        List.cons_eq_cons, and_assoc]

/-- Two strings split at their first delimiter are equal only part by part. -/
theorem append_cons_inj_of_notMem {k k' x y : List κ} (hk : c ∉ k) (hk' : c ∉ k') :
    k ++ c :: x = k' ++ c :: y ↔ k = k' ∧ x = y := by
  constructor
  · intro h
    have hpre : k ++ c :: x <+: k' ++ c :: y := h ▸ List.prefix_rfl
    obtain ⟨rfl, -⟩ := (cons_prefix_iff_of_notMem hk hk').mp hpre
    exact ⟨rfl, by simpa using h⟩
  · rintro ⟨rfl, rfl⟩
    rfl

/-- A delimiter-free string is a prefix of a delimited one only inside its first segment. -/
theorem prefix_append_cons_iff_of_notMem {p k y : List κ} (hp : c ∉ p) :
    p <+: k ++ c :: y ↔ p <+: k := by
  constructor
  · intro h
    rcases List.prefix_or_prefix_of_prefix h (List.prefix_append k (c :: y)) with h' | h'
    · exact h'
    · obtain ⟨t, rfl⟩ := h'
      rw [List.prefix_append_right_inj] at h
      cases t with
      | nil => simp
      | cons d t =>
        obtain ⟨rfl, -⟩ := List.cons_prefix_cons.mp h
        exact absurd (List.mem_append_right _ List.mem_cons_self) hp
  · exact fun h ↦ h.trans (List.prefix_append _ _)

end Segments

theorem splitOn_segments₂ {c : Char} {k p : Str} (hk : c ∉ k) (hp : c ∉ p) :
    (k ++ c :: p).splitOn c = [k, p] := by
  have h := List.splitOn_intercalate c (by simp [hk, hp] : ∀ l ∈ [k, p], c ∉ l) (by simp)
  simpa [List.intercalate] using h

theorem splitOn_segments₃ {c : Char} {k p t : Str} (hk : c ∉ k) (hp : c ∉ p) (ht : c ∉ t) :
    (k ++ c :: (p ++ c :: t)).splitOn c = [k, p, t] := by
  have h := List.splitOn_intercalate c (by simp [hk, hp, ht] : ∀ l ∈ [k, p, t], c ∉ l) (by simp)
  simpa [List.intercalate] using h

/-- Two literal heads neither of which extends the other head disjoint sets of strings. -/
theorem not_prefix_of_heads {κ : Type*} {a b x : List κ} (hab : ¬a <+: b) (hba : ¬b <+: a) :
    ¬a <+: b ++ x := by
  intro h
  rcases List.prefix_or_prefix_of_prefix h (List.prefix_append b x) with h' | h'
  · exact hab h'
  · exact hba h'

end Felidae
