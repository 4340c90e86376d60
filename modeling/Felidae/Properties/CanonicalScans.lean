import Felidae.Chain.Refine
import Felidae.Properties.DomainNames

/-!
# The scans of the canonical state

The scan that counts subdomains and the one that publishes them build their prefixes differently.
For every domain but the root both prefixes are its text and a dot. The text of the root is a dot
already; the counting scan adds another one, and so finds nothing below the root.
-/

namespace Felidae

theorem PrefixOrderDomain.mem_map_toDomain {ds : List PrefixOrderDomain} {d : Domain} :
    d ∈ ds.map toDomain ↔ ofDomain d ∈ ds := by
  rw [List.mem_map]
  constructor
  · rintro ⟨x, hx, rfl⟩
    exact hx
  · exact fun hd ↦ ⟨ofDomain d, hd, rfl⟩

theorem PrefixOrderDomain.toDomain_injective : Function.Injective toDomain := fun a b h ↦ by
  cases a
  cases b
  exact congrArg mk (Domain.mk.inj h)

namespace State

variable [Host]

/-- The domain has a canonical hash. -/
def Enrolled (s : Store) (d : Domain) : Prop := ∃ hash, canonicalHash d s = .ok (some hash)

/-- The scans of what is below a domain list the same domains, those that are enrolled, each once,
and with their canonical hashes; and so do the scans of what is at or below it. -/
structure ScansAgree (s : Store) (d : Domain) : Prop where
  strict : ∃ ds, canonicalStrictSubdomains d s = .ok ds ∧ ds.Nodup ∧
    ∀ e, e ∈ ds ↔ Enrolled s e ∧ FQDN.ProperAncestor d.name e.name
  strictHashes : ∃ (ds : List Domain) (es : List (Domain × Hash32)),
    canonicalStrictSubdomains d s = .ok ds ∧
    canonicalStrictSubdomainsHashes d s = es.map .ok ∧ (es.map Prod.fst).Nodup ∧
    (∀ e, e ∈ ds ↔ e ∈ es.map Prod.fst) ∧ ∀ e ∈ es, canonicalHash e.1 s = .ok (some e.2)
  subdomains : ∃ (ds : List Domain) (es : List (Domain × Hash32)),
    canonicalSubdomains d s = .ok ds ∧
    canonicalSubdomainsHashes d s = .ok (es.map .ok) ∧
    (∀ e, e ∈ ds ↔ Enrolled s e ∧ e.name.isSubdomainOf d.name) ∧
    ∀ e, e ∈ es.map Prod.fst ↔ Enrolled s e ∧ e.name.isSubdomainOf d.name

end State

section Scans

variable [Host] {s : Store} {L : Ledger}

theorem Represents.enrolled_iff (h : Represents s L) {d : Domain} :
    State.Enrolled s d ↔ (L.canonical (.ofDomain d)).isSome := by
  rw [State.Enrolled, Option.isSome_iff_exists]
  refine exists_congr fun hash ↦ ?_
  rw [show d = (PrefixOrderDomain.ofDomain d).toDomain from rfl, h.canonicalHash, Except.ok.injEq]
  rfl

variable [LawfulHost]

/-- What the publishing scan yields, by the text it looks for. -/
theorem Represents.canonicalStrictSubdomainsHashes (h : Represents s L) (r : PrefixOrderDomain) :
    ∃ es : List (PrefixOrderDomain × Hash32),
      State.canonicalStrictSubdomainsHashes r.toDomain s
        = es.map (fun e ↦ .ok (e.1.toDomain, e.2)) ∧
      (∀ e, e ∈ es ↔ L.canonical e.1 = some e.2 ∧
        (if r.name ≠ .root then r.display ++ ['.'] else r.display) <+: e.1.display) ∧
      (es.map Prod.fst).Nodup := by
  obtain ⟨es, -, hscan, hmem, hnodup⟩ :=
    h.canonicalStream (if r.name ≠ .root then r.display ++ ['.'] else r.display)
  refine ⟨es, ?_, hmem, hnodup⟩
  rw [State.canonicalStrictSubdomainsHashes]
  change Results.andThen (s.scan Bytes .canonical
    (if r.name ≠ .root then r.display ++ ['.'] else r.display)) _ = _
  rw [hscan, Results.andThen_map_ok]
  refine List.map_congr_left fun e _ ↦ ?_
  simp only [PrefixOrderDomain.fromStr_display, okOr_some, except_ok_bind, dif_pos e.2.length_eq]
  rfl

/-- It yields what is below a domain, and below the root everything but the root. -/
theorem Represents.canonicalStrictSubdomainsHashes_below (h : Represents s L)
    {r : PrefixOrderDomain} (hr : r.name ≠ .root ∨ L.canonical r = none) :
    ∃ es : List (PrefixOrderDomain × Hash32),
      State.canonicalStrictSubdomainsHashes r.toDomain s
        = es.map (fun e ↦ .ok (e.1.toDomain, e.2)) ∧
      (∀ e, e ∈ es ↔ L.canonical e.1 = some e.2 ∧ FQDN.ProperAncestor r.name e.1.name) ∧
      (es.map Prod.fst).Nodup := by
  obtain ⟨es, hes, hmem, hnodup⟩ := h.canonicalStrictSubdomainsHashes r
  refine ⟨es, hes, fun e ↦ (hmem e).trans (and_congr_right fun he ↦ ?_), hnodup⟩
  by_cases hroot : r.name = .root
  · rw [if_neg (not_not.mpr hroot), hroot, FQDN.properAncestor_root_iff]
    refine iff_of_true ?_ fun hname ↦ ?_
    · rw [PrefixOrderDomain.display, hroot]
      exact e.1.dot_prefix_display
    · have hself : e.1 = r := by
        obtain ⟨⟨_⟩, _⟩ := e
        obtain ⟨_⟩ := r
        exact congrArg _ (hname.trans hroot.symm)
      rcases hr with hr | hr
      · exact hr hroot
      · rw [hself, hr] at he
        cases he
  · rw [if_pos hroot]
    exact PrefixOrderDomain.display_dot_prefix_iff (FQDN.labels_ne_nil_iff.mpr hroot)

/-- What is at or below a domain: what is below it, and itself if it is enrolled. -/
theorem Represents.canonicalSubdomainsHashes (h : Represents s L) (r : PrefixOrderDomain) :
    ∃ es : List (PrefixOrderDomain × Hash32),
      State.canonicalSubdomainsHashes r.toDomain s
        = .ok (es.map fun e ↦ .ok (e.1.toDomain, e.2)) ∧
      ∀ e, e ∈ es ↔ L.canonical e.1 = some e.2 ∧ e.1.name.isSubdomainOf r.name := by
  obtain ⟨es, hes, hmem, -⟩ := h.canonicalStrictSubdomainsHashes r
  -- the scan meets what is below `r`, and nothing that is not at or below it
  have hmeets : ∀ e ∈ es, L.canonical e.1 = some e.2 ∧ e.1.name.isSubdomainOf r.name := by
    intro e he
    obtain ⟨hcanon, hstart⟩ := (hmem e).mp he
    refine ⟨hcanon, ?_⟩
    by_cases hroot : r.name = .root
    · rw [hroot]
      exact List.nil_suffix
    · rw [if_pos hroot] at hstart
      exact ((PrefixOrderDomain.display_dot_prefix_iff
        (FQDN.labels_ne_nil_iff.mpr hroot)).mp hstart).2
  have hbelow : ∀ e, L.canonical e.1 = some e.2 → FQDN.ProperAncestor r.name e.1.name → e ∈ es := by
    intro e hcanon hproper
    refine (hmem e).mpr ⟨hcanon, ?_⟩
    by_cases hroot : r.name = .root
    · rw [if_neg (not_not.mpr hroot), PrefixOrderDomain.display, hroot]
      exact e.1.dot_prefix_display
    · rw [if_pos hroot]
      exact (PrefixOrderDomain.display_dot_prefix_iff
        (FQDN.labels_ne_nil_iff.mpr hroot)).mpr hproper
  rw [State.canonicalSubdomainsHashes, h.canonicalHash, hes]
  rcases hself : L.canonical r with _ | hash
  · refine ⟨es, rfl, fun e ↦ ⟨hmeets e, ?_⟩⟩
    rintro ⟨hcanon, hsub⟩
    rcases PrefixOrderDomain.isSubdomainOf_iff.mp hsub with heq | hproper
    · rw [heq, hself] at hcanon
      cases hcanon
    · exact hbelow e hcanon hproper
  · refine ⟨(r, hash) :: es, rfl, fun e ↦ ?_⟩
    rw [List.mem_cons]
    constructor
    · rintro (rfl | he)
      · exact ⟨hself, List.suffix_rfl⟩
      · exact hmeets e he
    · rintro ⟨hcanon, hsub⟩
      rcases PrefixOrderDomain.isSubdomainOf_iff.mp hsub with heq | hproper
      · refine .inl (Prod.ext heq ?_)
        rw [heq, hself] at hcanon
        exact (Option.some.inj hcanon).symm
      · exact .inr (hbelow e hcanon hproper)

/-- The counting scan finds nothing below the root. -/
theorem Represents.canonicalStrictSubdomains_root (h : Represents s L) {r : PrefixOrderDomain}
    (hr : r.name = .root) : State.canonicalStrictSubdomains r.toDomain s = .ok [] := by
  obtain ⟨ds, hds, hmem, -⟩ := h.canonicalStrictSubdomains_eq r
  have hnil : ds = [] := List.eq_nil_iff_forall_not_mem.mpr fun d hd ↦
    PrefixOrderDomain.not_root_dot_prefix hr ((hmem d).mp hd).2
  rw [hds, hnil, List.map_nil]

/-- The scans agree for every domain but the root, and for the root if there is nothing to find. -/
theorem Represents.scansAgree (h : Represents s L) {r : PrefixOrderDomain}
    (hr : r.name ≠ .root ∨ ∀ d, L.canonical d = none) : State.ScansAgree s r.toDomain := by
  have hself : r.name ≠ .root ∨ L.canonical r = none := hr.imp_right fun hnone ↦ hnone r
  obtain ⟨ds, hds, hmem, hnodup⟩ := h.canonicalStrictSubdomains_eq r
  obtain ⟨es, hes, hesmem, hesnodup⟩ := h.canonicalStrictSubdomainsHashes_below hself
  -- the scan takes the names with a dot before the prefix; at the root there are none
  have hbelow : ∀ d, d ∈ ds ↔ (L.canonical d).isSome ∧ FQDN.ProperAncestor r.name d.name := by
    intro d
    rw [hmem]
    refine and_congr_right fun hd ↦ ?_
    rcases hr with hr | hnone
    · exact PrefixOrderDomain.display_dot_prefix_iff (FQDN.labels_ne_nil_iff.mpr hr)
    · rw [hnone d] at hd
      cases hd
  have hfst : ∀ es : List (PrefixOrderDomain × Hash32),
      (es.map fun e ↦ (e.1.toDomain, e.2)).map Prod.fst
        = (es.map Prod.fst).map PrefixOrderDomain.toDomain := fun es ↦ by
    rw [List.map_map, List.map_map]
    rfl
  refine ⟨⟨_, hds, hnodup.map PrefixOrderDomain.toDomain_injective, fun e ↦ ?_⟩,
    ⟨_, es.map fun e ↦ (e.1.toDomain, e.2), hds, ?_, ?_, fun e ↦ ?_, ?_⟩, ?_⟩
  · rw [PrefixOrderDomain.mem_map_toDomain, hbelow, h.enrolled_iff]
    rfl
  · rw [hes, List.map_map]
    rfl
  · rw [hfst]
    exact hesnodup.map PrefixOrderDomain.toDomain_injective
  · rw [hfst, PrefixOrderDomain.mem_map_toDomain, PrefixOrderDomain.mem_map_toDomain, hbelow,
      Ledger.mem_map_fst_iff (P := fun d ↦ FQDN.ProperAncestor r.name d.name) hesmem]
  · intro e he
    obtain ⟨x, hx, rfl⟩ := List.mem_map.mp he
    rw [h.canonicalHash, ((hesmem x).mp hx).1]
  · obtain ⟨es', hes', hmem'⟩ := h.canonicalSubdomainsHashes r
    have hall : ∀ e : Domain, e ∈ (es'.map fun e ↦ (e.1.toDomain, e.2)).map Prod.fst ↔
        State.Enrolled s e ∧ e.name.isSubdomainOf r.name := fun e ↦ by
      rw [hfst, PrefixOrderDomain.mem_map_toDomain,
        Ledger.mem_map_fst_iff (P := fun d ↦ d.name.isSubdomainOf r.name) hmem', h.enrolled_iff]
      rfl
    -- the scan leaves the domain itself out, so it is looked up apart
    suffices hcount : ∃ ds', State.canonicalSubdomains r.toDomain s = .ok ds' ∧
        ∀ e, e ∈ ds' ↔ State.Enrolled s e ∧ e.name.isSubdomainOf r.name by
      obtain ⟨ds', hds', hmem⟩ := hcount
      exact ⟨ds', _, hds', by rw [hes', List.map_map]; rfl, hmem, hall⟩
    rcases hr with hr | hnone
    · obtain ⟨ds', hds', hmem⟩ := h.canonicalSubdomains (FQDN.labels_ne_nil_iff.mpr hr)
      refine ⟨_, hds', fun e ↦ ?_⟩
      rw [PrefixOrderDomain.mem_map_toDomain, hmem, h.enrolled_iff]
      rfl
    · have hempty : ds = [] := List.eq_nil_iff_forall_not_mem.mpr fun d hd ↦ by
        rw [hmem, hnone d] at hd
        cases hd.1
      refine ⟨[], ?_, fun e ↦ ?_⟩
      · rw [State.canonicalSubdomains, hds, h.canonicalHash, hnone r, hempty]
        rfl
      · rw [h.enrolled_iff, hnone]
        simp

/-- In every state of every run, the scans for a domain agree exactly if it is not the root or no
domain is enrolled. -/
theorem Run.scansAgree_iff {genesis : InitChain} {requests : List FinalizeBlock}
    {ms : List (Moment Store Event)} {s t : Store} (hrun : Run genesis requests ms s)
    (ht : Visited ms s t) (d : Domain) :
    State.ScansAgree t d ↔ d.name ≠ .root ∨ ∀ e, ¬State.Enrolled t e := by
  obtain ⟨L, h, -⟩ := hrun.exists_represents ht
  obtain ⟨r, rfl⟩ : ∃ r : PrefixOrderDomain, d = r.toDomain := ⟨.ofDomain d, rfl⟩
  constructor
  · rintro ⟨-, ⟨ds, es, hds, hes, -, hmem, -⟩, -⟩
    by_contra hneither
    obtain ⟨hroot, hsome⟩ := not_or.mp hneither
    have hroot : r.name = .root := not_not.mp hroot
    obtain ⟨e, he⟩ := not_forall_not.mp hsome
    obtain rfl := Except.ok.inj (hds.symm.trans (h.canonicalStrictSubdomains_root hroot))
    -- the publishing scan yields it
    obtain ⟨es', hes', hmem', -⟩ := h.canonicalStrictSubdomainsHashes r
    obtain ⟨hash, hhash⟩ := Option.isSome_iff_exists.mp (h.enrolled_iff.mp he)
    have hstart : r.display <+: (PrefixOrderDomain.ofDomain e).display := by
      rw [PrefixOrderDomain.display, hroot]
      exact PrefixOrderDomain.dot_prefix_display _
    have hlisted : (PrefixOrderDomain.ofDomain e, hash) ∈ es' := by
      rw [hmem', if_neg (not_not.mpr hroot)]
      exact ⟨hhash, hstart⟩
    have hyield : (.ok (e, hash) : Except Fault (Domain × Hash32)) ∈ es.map .ok := by
      rw [← hes, hes']
      exact List.mem_map.mpr ⟨_, hlisted, rfl⟩
    obtain ⟨x, hx, heq⟩ := List.mem_map.mp hyield
    obtain rfl := Except.ok.inj heq
    exact absurd ((hmem e).mpr (List.mem_map_of_mem hx)) List.not_mem_nil
  · intro hr
    refine h.scansAgree (hr.imp_right fun hnone x ↦ ?_)
    have hx := hnone x.toDomain
    rw [h.enrolled_iff, Option.not_isSome_iff_eq_none] at hx
    exact hx

end Scans

namespace Reference

/-- `www.example.com` is enrolled, and the counting scan of the root finds nothing. -/
def overlooked (s : Store) : Bool :=
  (match State.canonicalHash www.toDomain s with
    | .ok (some _) => true
    | _ => false) &&
  decide ((State.canonicalStrictSubdomains ⟨.root⟩ s).toOption = some [])

theorem not_scansAgree_of_overlooked {s : Store} (h : overlooked s = true) :
    ¬State.ScansAgree s ⟨.root⟩ := by
  rintro ⟨⟨ds, hds, -, hmem⟩, -, -⟩
  obtain ⟨hwww, hnone⟩ := Bool.and_eq_true_iff.mp h
  have henrolled : State.Enrolled s www.toDomain := by
    generalize hread : State.canonicalHash www.toDomain s = r at hwww
    rcases r with e | _ | hash
    · cases hwww
    · cases hwww
    · exact ⟨hash, hread⟩
  have hnil : ds = [] := by
    rw [hds] at hnone
    exact Option.some.inj (of_decide_eq_true hnone)
  have hlisted := (hmem www.toDomain).mpr ⟨henrolled, by decide⟩
  rw [hnil] at hlisted
  cases hlisted

theorem not_scansAgree_enrolling :
    ∃ ms s, Run genesis enrolling ms s ∧ ¬State.ScansAgree s ⟨.root⟩ := by
  obtain ⟨ms, s, hrun, hover⟩ := exists_run_of_any genesis listed enrolling
    (fun r ↦ overlooked r.2) (by decide +kernel)
  exact ⟨ms, s, hrun, not_scansAgree_of_overlooked hover⟩

theorem scansAgree_iff_enrolling : ∃ ms s, Run genesis enrolling ms s ∧
    (State.ScansAgree s ⟨com⟩ ↔
      com ≠ .root ∨ ∀ e, ¬State.Enrolled s e) := by
  obtain ⟨ms, s, -, hrun⟩ := exists_run isSome_exec_enrolling
  exact ⟨ms, s, hrun, Run.scansAgree_iff hrun (.inl rfl) _⟩

end Reference

end Felidae
