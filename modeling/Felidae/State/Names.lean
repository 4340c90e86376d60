import Felidae.State.Voting

/-!
# Names and their text

The scans that look for the subdomains of a domain compare text: a key starts with the key of the
domain and a dot. This is the same as being a proper subdomain, since labels contain no dots. The
root is the exception, whose text is a lone dot; a registered domain is never the root.
-/

namespace Felidae

namespace FQDN

/-- `zone` is a proper ancestor of the name. -/
def ProperAncestor (zone name : FQDN) : Prop := zone ≠ name ∧ name.isSubdomainOf zone

instance (zone name : FQDN) : Decidable (ProperAncestor zone name) := by
  unfold ProperAncestor
  infer_instance

theorem ProperAncestor.depth_lt {zone name : FQDN} (h : ProperAncestor zone name) :
    zone.depth < name.depth := by
  obtain ⟨l, hl⟩ := h.2
  have hne : l ≠ [] := by
    rintro rfl
    exact h.1 (ext_labels hl)
  have hlen := List.length_pos_iff.mpr hne
  rw [depth, depth, ← hl, List.length_append]
  omega

end FQDN

/-! ## Text -/

/-- A dot and the label, for each label. -/
def dotted (ls : List Label) : Str := ls.flatMap fun l ↦ '.' :: l.text

theorem dotted_cons (l : Label) (ls : List Label) :
    dotted (l :: ls) = '.' :: (l.text ++ dotted ls) := by
  simp [dotted]

/-- A dotted text starts with a dotted text and a dot exactly if labels follow. -/
theorem dotted_append_dot_prefix_iff : ∀ (rs ds : List Label),
    dotted rs ++ ['.'] <+: dotted ds ↔ rs <+: ds ∧ rs ≠ ds
  | [], [] => by simp [dotted]
  | [], d :: ds => by simp [dotted]
  | r :: rs, [] => by simp [dotted]
  | r :: rs, d :: ds => by
    have ih := dotted_append_dot_prefix_iff rs ds
    have hhead : ∃ y, dotted rs ++ ['.'] = '.' :: y := by
      cases rs with
      | nil => exact ⟨[], rfl⟩
      | cons r' rs => exact ⟨_, by rw [dotted_cons]; rfl⟩
    obtain ⟨y, hy⟩ := hhead
    rw [dotted_cons, dotted_cons, List.cons_append, List.append_assoc, List.cons_prefix_cons, hy]
    rw [hy] at ih
    have htext : r.text = d.text ↔ r = d := ⟨Label.ext_text, congrArg _⟩
    cases ds with
    | nil =>
      have hno : ¬r.text ++ '.' :: y <+: d.text ++ dotted [] := fun h ↦
        d.dot_notMem (by simpa [dotted] using h.subset (List.mem_append_right _ List.mem_cons_self))
      simp only [hno, and_false, false_iff, not_and]
      rintro hpre hne
      obtain ⟨rfl, hnil⟩ := List.cons_prefix_cons.mp hpre
      exact hne (by rw [List.prefix_nil.mp hnil])
    | cons d' ds =>
      rw [dotted_cons] at ih ⊢
      rw [cons_prefix_iff_of_notMem r.dot_notMem d.dot_notMem, htext, List.cons_prefix_cons]
      rw [List.cons_prefix_cons] at ih
      simp only [true_and] at ih ⊢
      rw [ih]
      constructor
      · rintro ⟨rfl, hpre, hne⟩
        exact ⟨⟨rfl, hpre⟩, fun h ↦ hne (List.cons.inj h).2⟩
      · rintro ⟨⟨rfl, hpre⟩, hne⟩
        exact ⟨rfl, hpre, fun h ↦ hne (congrArg _ h)⟩

theorem PrefixOrderDomain.display_of_ne_root {d : PrefixOrderDomain} (h : d.name.labels ≠ []) :
    d.display = dotted d.name.labels.reverse := by
  have hjoin : ∀ {ls : List Label}, ls ≠ [] →
      '.' :: List.intercalate ['.'] (ls.map Label.text) = dotted ls := by
    intro ls
    induction ls with
    | nil => exact fun h ↦ absurd rfl h
    | cons l ls ih =>
      intro _
      cases ls with
      | nil => simp [dotted]
      | cons l' ls =>
        have ih := ih (List.cons_ne_nil _ _)
        rw [dotted_cons, ← ih, List.map_cons, List.map_cons, List.intercalate_cons_cons]
        simp
  rw [display, ← List.map_reverse, hjoin (by simpa using h)]

/-- The scan for subdomains: what starts with a name and a dot is a proper subdomain. -/
theorem PrefixOrderDomain.display_dot_prefix_iff {r d : PrefixOrderDomain}
    (hr : r.name.labels ≠ []) :
    r.display ++ ['.'] <+: d.display ↔ FQDN.ProperAncestor r.name d.name := by
  have hne : r.name.labels ≠ d.name.labels ↔ r.name ≠ d.name :=
    not_congr ⟨FQDN.ext_labels, congrArg _⟩
  by_cases hd : d.name.labels = []
  · have hpre : ¬r.display ++ ['.'] <+: d.display := by
      rw [display_of_ne_root hr, display, hd]
      intro h
      have hlen := h.length_le
      have hpos : 0 < (dotted r.name.labels.reverse).length := by
        obtain ⟨l, ls, hl⟩ := List.exists_cons_of_ne_nil (List.reverse_ne_nil_iff.mpr hr)
        rw [hl, dotted_cons, List.length_cons]
        omega
      have hroot : ('.' :: List.intercalate ['.']
          (([] : List Label).map Label.text).reverse).length = 1 := rfl
      rw [hroot, List.length_append, List.length_singleton] at hlen
      omega
    simp only [hpre, false_iff]
    rintro ⟨-, hsub⟩
    rw [FQDN.isSubdomainOf, hd, List.suffix_nil] at hsub
    exact hr hsub
  · rw [display_of_ne_root hr, display_of_ne_root hd, dotted_append_dot_prefix_iff,
      List.reverse_prefix, FQDN.ProperAncestor, FQDN.isSubdomainOf, ← hne, and_comm,
      Ne, Ne, List.reverse_inj]

/-- What is at or below a name is the name itself or a proper subdomain of it. -/
theorem PrefixOrderDomain.isSubdomainOf_iff {r d : PrefixOrderDomain} :
    d.name.isSubdomainOf r.name ↔ d = r ∨ FQDN.ProperAncestor r.name d.name := by
  constructor
  · intro hd
    by_cases hne : r.name = d.name
    · exact .inl (by cases d; cases r; exact congrArg _ hne.symm)
    · exact .inr ⟨hne, hd⟩
  · rintro (rfl | hd)
    · exact List.suffix_rfl
    · exact hd.2

/-- The scan for what is below the root with one more dot meets nothing. -/
theorem PrefixOrderDomain.not_root_dot_prefix {r d : PrefixOrderDomain} (hr : r.name = .root) :
    ¬r.display ++ ['.'] <+: d.display := by
  have hroot : r.display = ['.'] := by
    rw [display, hr]
    rfl
  rw [hroot]
  rintro ⟨t, ht⟩
  have hhead := head_intercalate_labels d.name.labels.reverse
  rw [display, ← List.map_reverse] at ht
  exact hhead (by rw [← (List.cons.inj ht).2]; rfl)

/-! ## Registered domains -/

namespace FQDN

/-- The ancestor of a name that is one label longer than the zone. -/
def registered (name zone : FQDN) : FQDN := name.drop (name.depth - zone.depth - 1)

variable {name zone : FQDN}

theorem length_registered (h : ProperAncestor zone name) :
    (registered name zone).labels.length = zone.depth + 1 := by
  have := h.depth_lt
  rw [registered, drop, List.length_drop, ← depth]
  omega

theorem registered_labels_ne_nil (h : ProperAncestor zone name) :
    (registered name zone).labels ≠ [] := by
  have := length_registered h
  exact fun hnil ↦ by rw [hnil] at this; simp at this

theorem isSubdomainOf_registered : name.isSubdomainOf (registered name zone) :=
  List.drop_suffix _ _

/-- An ancestor of the right depth is the registered domain. -/
theorem registered_eq {r : FQDN} (hr : r.depth = zone.depth + 1) (hname : name.isSubdomainOf r)
    (hdepth : zone.depth < name.depth) : registered name zone = r := by
  have hlen : (registered name zone).labels.length = r.labels.length := by
    rw [registered, drop, List.length_drop, ← depth, ← depth, hr]
    omega
  exact ext_labels ((List.suffix_of_suffix_length_le isSubdomainOf_registered hname
    hlen.le).eq_of_length hlen)

end FQDN

/-- The subtraction does not underflow, and the lookup in the hierarchy finds a name. -/
theorem State.registeredDomain_eq {name zone : FQDN} (h : FQDN.ProperAncestor zone name) :
    State.registeredDomain name zone = .ok ⟨FQDN.registered name zone⟩ := by
  have hlt := h.depth_lt
  have hget : name.hierarchy[name.depth - zone.depth - 1]? = some (FQDN.registered name zone) := by
    rw [FQDN.hierarchy, List.getElem?_map, List.getElem?_range (by omega)]
    rfl
  rw [State.registeredDomain, if_neg (by omega), hget]
  rfl

end Felidae
