import Felidae.Reference
import Felidae.State.Names

/-!
# Prefix-ordered names

The keys of the canonical state and of the oracle queue are names written from the top-level label
down. Such a text is read back as the name, and the keys that start with the text of a name and a
dot are those of its proper subdomains. The text of the root is a dot already: every other key
starts with it.
-/

namespace Felidae

namespace FQDN

/-- Every other name is below the root. -/
theorem properAncestor_root_iff {d : FQDN} : ProperAncestor .root d ↔ d ≠ .root := by
  rw [ProperAncestor, ne_comm]
  exact and_iff_left List.nil_suffix

theorem labels_ne_nil_iff {d : FQDN} : d.labels ≠ [] ↔ d ≠ .root :=
  not_congr ⟨fun h ↦ ext_labels h, congrArg _⟩

end FQDN

namespace PrefixOrderDomain

theorem dot_prefix_display (d : PrefixOrderDomain) : ['.'] <+: d.display :=
  List.prefix_append ['.'] _

variable [Host] [LawfulHost]

/-- The text form of a name. It is read back, by both parsers, so that no two names have the same
one. A name is a proper subdomain of another one, not the root, exactly if its text starts with the
other one's and a dot; and every text but the root's own starts with the root's and is that of a
proper subdomain of the root. -/
theorem display_orders (d e : PrefixOrderDomain) :
    fromStr d.display = some d ∧ ofText d.display = .ok d ∧
    (d.display = e.display → d = e) ∧
    (e.name ≠ .root → (FQDN.ProperAncestor e.name d.name ↔ e.display ++ ['.'] <+: d.display)) ∧
    (e.name = .root → ['.'] <+: d.display ∧
      (d.display ≠ e.display → FQDN.ProperAncestor e.name d.name)) := by
  refine ⟨fromStr_display d, ?_, fun h ↦ display_injective h, fun he ↦ ?_, fun he ↦ ?_⟩
  · rw [ofText, fromStr_display]
  · exact (display_dot_prefix_iff (FQDN.labels_ne_nil_iff.mpr he)).symm
  · refine ⟨dot_prefix_display d, fun hne ↦ ?_⟩
    rw [he, FQDN.properAncestor_root_iff]
    intro hd
    have hde : d = e := by
      cases d
      cases e
      exact congrArg mk (hd.trans he.symm)
    exact hne (congrArg display hde)

end PrefixOrderDomain

namespace Reference

/-- `.com.example.www` starts with `.com.`, and `com` is an ancestor of `www.example.com`. -/
theorem display_orders_www : FQDN.ProperAncestor com www.name ∧
    ".com.".toList <+: www.display ∧ PrefixOrderDomain.fromStr www.display = some www := by
  obtain ⟨hread, -, -, hbelow, -⟩ := PrefixOrderDomain.display_orders www ⟨com⟩
  have hancestor : FQDN.ProperAncestor com www.name := by decide
  exact ⟨hancestor, (hbelow (by decide)).mp hancestor, hread⟩

end Reference

end Felidae
