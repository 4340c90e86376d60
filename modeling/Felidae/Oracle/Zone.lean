import Felidae.State.Names

/-!
# Zone inference

The oracle server is asked to observe a domain, and infers the zone from the Public Suffix List:
the suffix for a domain that is itself registrable, and the registrable domain for the domains below
it.
-/

namespace Felidae

/-! ## Names without the last dot -/

namespace FQDN

/-- The text of a name without the dots at its end. -/
def undotted (d : FQDN) : Str := trimEnd '.' d.display

/-- The name without its first label. -/
def parent (d : FQDN) : FQDN := d.drop 1

theorem undotted_append_dot (d : FQDN) : d.undotted ++ ['.'] = d.display := by
  obtain ⟨labels, hlength⟩ := d
  rcases List.eq_nil_or_concat' labels with rfl | ⟨ls, l, rfl⟩
  · rfl
  · have hdisplay : FQDN.display ⟨ls ++ [l], hlength⟩
        = (ls.flatMap (fun l ↦ l.text ++ ['.']) ++ l.text) ++ ['.'] := by
      rw [display]
      split
      next h => exact absurd h (List.append_ne_nil_of_right_ne_nil ls (List.cons_ne_nil _ _))
      next => simp
    rw [undotted, hdisplay, trimEnd_append l.ne_nil l.dot_notMem]

theorem undotted_injective [Host] [LawfulHost] : Function.Injective undotted := by
  intro a b h
  have hdisplay : a.display = b.display := by
    rw [← undotted_append_dot, h, undotted_append_dot]
  exact Except.ok.inj (by
    rw [← LawfulHost.fqdnFromStr_display, hdisplay, LawfulHost.fqdnFromStr_display])

theorem properAncestor_parent {r : FQDN} (h : r.labels ≠ []) : ProperAncestor r.parent r := by
  have hpos := List.length_pos_iff.mpr h
  refine ⟨fun heq ↦ ?_, List.drop_suffix 1 r.labels⟩
  have hlen := congrArg depth heq
  rw [depth, depth, parent, drop, List.length_drop] at hlen
  omega

end FQDN

/-! ## Inference -/

/-- `addr::domain::Name`, as far as it is read. -/
structure DomainName where
  root : Option Str
  suffix : Str
  deriving DecidableEq

/-- The `addr` crate and its Public Suffix List. -/
class PublicSuffixList where
  parseDomainName : Str → Except String DomainName

variable [Host] [PublicSuffixList]

/-- Infer the zone from a domain. -/
def inferZone (domain : FQDN) : Except Fault FQDN := do
  let domainStr := domain.undotted
  let parsed ← (PublicSuffixList.parseDomainName domainStr).mapError fun e ↦
    .reject s!"failed to parse domain {String.ofList domainStr}: {e}"
  let tld := parsed.suffix
  let root ← okOr parsed.root (.reject s!"no root domain found for {String.ofList domainStr}")
  -- the suffix of a registrable domain, and the registrable domain of any other
  let zoneStr := if domainStr = root then tld else root
  let fqdnStr := if ['.'].isSuffixOf zoneStr then zoneStr else zoneStr ++ ['.']
  (Host.fqdnFromStr fqdnStr).mapError fun e ↦
    .reject s!"failed to parse zone as FQDN {String.ofList fqdnStr}: {e}"

/-- By the list, `r` is the registrable domain of `d`: its root, where the suffix is what follows
the first label of `r`. -/
structure Registrable (d r : FQDN) : Prop where
  ne_root : r.labels ≠ []
  below : d.isSubdomainOf r
  parse : PublicSuffixList.parseDomainName d.undotted = .ok ⟨some r.undotted, r.parent.undotted⟩

/-- The suffix is inferred for the registrable domain, and the registrable domain for all other
domains that have it. -/
theorem Registrable.inferZone_eq [LawfulHost] {d r : FQDN} (h : Registrable d r) :
    inferZone d = .ok (if d = r then r.parent else r) := by
  have hroot : (if d.undotted = r.undotted then r.parent.undotted else r.undotted)
      = FQDN.undotted (if d = r then r.parent else r) := by
    by_cases hd : d = r
    · rw [if_pos hd, if_pos (congrArg _ hd)]
    · rw [if_neg hd, if_neg fun heq ↦ hd (FQDN.undotted_injective heq)]
  have hdot : ¬['.'].isSuffixOf (FQDN.undotted (if d = r then r.parent else r)) = true := by
    rw [List.isSuffixOf_iff_suffix]
    exact not_suffix_trimEnd '.' _
  rw [inferZone, h.parse]
  simp only [Except.mapError, except_ok_bind, okOr_some, hroot, if_neg hdot,
    FQDN.undotted_append_dot, LawfulHost.fqdnFromStr_display]

end Felidae
