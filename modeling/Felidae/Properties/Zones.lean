import Felidae.Oracle.Zone
import Felidae.Reference

/-!
# Inferred zones and the limit

The chain takes the zone of an observation as a public suffix, and counts the domain against the
name one label below the zone. The oracle server infers the suffix for a registrable domain, but
for the domains below it the registrable domain itself. So the two agree for registrable domains,
and for no others.
-/

namespace Felidae

section Zones

variable [Host] [PublicSuffixList] [LawfulHost] {d r zone : FQDN}

/-- What a domain is counted against: itself if it is registrable, and otherwise the name one label
below the registrable domain. -/
theorem Registrable.registeredDomain_eq (h : Registrable d r) (hzone : inferZone d = .ok zone) :
    State.registeredDomain d zone = .ok ⟨if d = r then r else FQDN.registered d r⟩ := by
  obtain rfl := Except.ok.inj (h.inferZone_eq.symm.trans hzone)
  by_cases hd : d = r
  · subst hd
    have hparent := FQDN.properAncestor_parent h.ne_root
    have hdepth : d.depth = d.parent.depth + 1 := by
      have := List.length_pos_iff.mpr h.ne_root
      rw [FQDN.depth, FQDN.depth, FQDN.parent, FQDN.drop, List.length_drop]
      omega
    rw [if_pos rfl, if_pos rfl, State.registeredDomain_eq hparent,
      FQDN.registered_eq hdepth (List.suffix_refl _) hparent.depth_lt]
  · rw [if_neg hd, if_neg hd, State.registeredDomain_eq ⟨fun heq ↦ hd heq.symm, h.below⟩]

/-- A domain is counted against its registrable domain exactly if it is that domain. Two domains
that have the same registrable domain are counted against the same name exactly if both are the
registrable domain, or both are at or below the same name one label below it. -/
theorem Registrable.counted_iff (h : Registrable d r) : ∃ zone, inferZone d = .ok zone ∧
    (State.registeredDomain d zone = .ok ⟨r⟩ ↔ d = r) ∧
    ∀ d' zone', Registrable d' r → inferZone d' = .ok zone' →
      (State.registeredDomain d zone = State.registeredDomain d' zone' ↔
        (d = r ∧ d' = r) ∨
          ∃ n : FQDN, n.depth = r.depth + 1 ∧ d.isSubdomainOf n ∧ d'.isSubdomainOf n) := by
  have hbelow : ∀ {d : FQDN}, Registrable d r → d ≠ r →
      FQDN.ProperAncestor r d ∧ (FQDN.registered d r).depth = r.depth + 1 := fun h hd ↦
    have hproper : FQDN.ProperAncestor r _ := ⟨fun heq ↦ hd heq.symm, h.below⟩
    ⟨hproper, FQDN.length_registered hproper⟩
  -- `r` itself is not below a name that is one label longer
  have hself : ∀ {n : FQDN}, n.depth = r.depth + 1 → ¬r.isSubdomainOf n := fun hn hr ↦ by
    have := hr.length_le
    rw [FQDN.depth, FQDN.depth] at hn
    omega
  refine ⟨_, h.inferZone_eq, ?_, fun d' zone' h' hzone' ↦ ?_⟩
  · rw [h.registeredDomain_eq h.inferZone_eq]
    by_cases hd : d = r
    · rw [if_pos hd]
      exact iff_of_true rfl hd
    · rw [if_neg hd]
      refine iff_of_false (fun heq ↦ ?_) hd
      have := (hbelow h hd).2
      rw [PrefixOrderDomain.mk.inj (Except.ok.inj heq)] at this
      omega
  · rw [h.registeredDomain_eq h.inferZone_eq, h'.registeredDomain_eq hzone', Except.ok.injEq,
      PrefixOrderDomain.mk.injEq]
    by_cases hd : d = r <;> by_cases hd' : d' = r
    · rw [if_pos hd, if_pos hd']
      exact iff_of_true rfl (.inl ⟨hd, hd'⟩)
    · rw [if_pos hd, if_neg hd']
      refine iff_of_false (fun heq ↦ ?_) ?_
      · have := (hbelow h' hd').2
        rw [← heq] at this
        omega
      · rintro (⟨-, heq⟩ | ⟨n, hn, hsub, -⟩)
        · exact hd' heq
        · exact hself hn (hd ▸ hsub)
    · rw [if_neg hd, if_pos hd']
      refine iff_of_false (fun heq ↦ ?_) ?_
      · have := (hbelow h hd).2
        rw [heq] at this
        omega
      · rintro (⟨heq, -⟩ | ⟨n, hn, -, hsub⟩)
        · exact hd heq
        · exact hself hn (hd' ▸ hsub)
    · rw [if_neg hd, if_neg hd']
      constructor
      · intro heq
        exact .inr ⟨_, (hbelow h hd).2, FQDN.isSubdomainOf_registered,
          heq ▸ FQDN.isSubdomainOf_registered⟩
      · rintro (⟨heq, -⟩ | ⟨n, hn, hsub, hsub'⟩)
        · exact absurd heq hd
        · rw [FQDN.registered_eq hn hsub (hbelow h hd).1.depth_lt,
            FQDN.registered_eq hn hsub' (hbelow h' hd').1.depth_lt]

end Zones

namespace Reference

/-- The default rule of the list: the suffix is the last label. -/
def parseDomainName (s : Str) : Except String DomainName :=
  match (s.splitOn '.').reverse with
  | tld :: label :: _ => .ok ⟨some (label ++ '.' :: tld), tld⟩
  | [tld] => .ok ⟨none, tld⟩
  | [] => .error "empty domain"

scoped instance : PublicSuffixList := ⟨parseDomainName⟩

theorem registrable_www : Registrable (nameOf "www.example.com.") (nameOf "example.com.") :=
  ⟨by decide +kernel, by decide +kernel, by decide +kernel⟩

theorem registrable_mail : Registrable (nameOf "mail.example.com.") (nameOf "example.com.") :=
  ⟨by decide +kernel, by decide +kernel, by decide +kernel⟩

/-- Two domains below one registrable domain are each counted against themselves, and not against
the registrable domain. -/
theorem not_counted_www : ∃ zone zone', inferZone (nameOf "www.example.com.") = .ok zone ∧
    inferZone (nameOf "mail.example.com.") = .ok zone' ∧
    State.registeredDomain (nameOf "www.example.com.") zone
      = .ok ⟨nameOf "www.example.com."⟩ ∧
    State.registeredDomain (nameOf "mail.example.com.") zone'
      = .ok ⟨nameOf "mail.example.com."⟩ ∧
    Registrable (nameOf "www.example.com.") (nameOf "example.com.") ∧
    Registrable (nameOf "mail.example.com.") (nameOf "example.com.") ∧
    nameOf "www.example.com." ≠ nameOf "example.com." ∧
    nameOf "www.example.com." ≠ nameOf "mail.example.com." :=
  ⟨nameOf "example.com.", nameOf "example.com.", by decide +kernel, by decide +kernel,
    by decide +kernel, by decide +kernel, registrable_www, registrable_mail, by decide +kernel,
    by decide +kernel⟩

theorem counted_iff_www : ∃ zone zone', inferZone (nameOf "www.example.com.") = .ok zone ∧
    inferZone (nameOf "mail.example.com.") = .ok zone' ∧
    (State.registeredDomain (nameOf "www.example.com.") zone = .ok ⟨nameOf "example.com."⟩ ↔
      nameOf "www.example.com." = nameOf "example.com.") ∧
    (State.registeredDomain (nameOf "www.example.com.") zone
        = State.registeredDomain (nameOf "mail.example.com.") zone' ↔
      nameOf "www.example.com." = nameOf "example.com." ∧
          nameOf "mail.example.com." = nameOf "example.com." ∨
        ∃ n : FQDN, n.depth = (nameOf "example.com.").depth + 1 ∧
          (nameOf "www.example.com.").isSubdomainOf n ∧
          (nameOf "mail.example.com.").isSubdomainOf n) := by
  obtain ⟨zone, hzone, hcounted, hsame⟩ := Registrable.counted_iff registrable_www
  obtain ⟨zone', hzone', -⟩ := Registrable.counted_iff registrable_mail
  exact ⟨zone, zone', hzone, hzone', hcounted, hsame _ zone' registrable_mail hzone'⟩

end Reference

end Felidae
