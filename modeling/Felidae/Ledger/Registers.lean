import Felidae.Ledger.Reads
import Mathlib.Data.Set.Card

/-!
# Registers, the canonical state and the subdomain limit on the ledger

Reads and writes outside the queues, and what the subdomain limit counts.
-/

open Classical

namespace Felidae

namespace Ledger

/-- The domains at or below `r` that are canonical or pending: what the subdomain limit counts. -/
def enrolled (L : Ledger) (r : FQDN) : Set PrefixOrderDomain :=
  {d | d.name.isSubdomainOf r ∧ (((L.queue .oracle).pending d).isSome ∨ (L.canonical d).isSome)}

/-- A domain may become pending below `r`: it is counted already, or one more may be counted. -/
def WithinLimit (L : Ledger) (d : PrefixOrderDomain) (r : FQDN) : Prop :=
  d ∈ L.enrolled r ∨
    (L.enrolled r).encard + 1 ≤ (L.config.oracles.maxEnrolledSubdomains.toNat : ℕ∞)

end Ledger

/-- The height below. -/
def Height.pred (h : Height) : Height := ⟨h.value - 1, (Nat.sub_le _ _).trans h.le⟩

/-- The canonical hash an observation leaves. -/
def HashObserved.hash? : HashObserved → Option Hash32
  | hash h => some h
  | notFound => none

/-- A domain is listed if it has a canonical hash. -/
theorem Ledger.mem_map_fst_iff {L : Ledger} {es : List (PrefixOrderDomain × Hash32)}
    {P : PrefixOrderDomain → Prop}
    (hmem : ∀ e, e ∈ es ↔ L.canonical e.1 = some e.2 ∧ P e.1) (d : PrefixOrderDomain) :
    d ∈ es.map Prod.fst ↔ (L.canonical d).isSome ∧ P d := by
  rw [List.mem_map]
  constructor
  · rintro ⟨e, he, rfl⟩
    obtain ⟨hcanon, hd⟩ := (hmem e).mp he
    exact ⟨by rw [hcanon]; rfl, hd⟩
  · rintro ⟨hcanon, hd⟩
    obtain ⟨hash, hhash⟩ := Option.isSome_iff_exists.mp hcanon
    exact ⟨(d, hash), (hmem _).mpr ⟨hhash, hd⟩, rfl⟩

namespace Represents

variable [Host] {s : Store} {L : Ledger}

/-! ## Reads -/

theorem config (h : Represents s L) : State.config s = .ok L.config := by
  have hget := Laid.get (V := Config) (k := .config) h
    (rfl : Substore.internal.prefixed "parameters/config".toList = Key.text .config)
  rw [State.config, hget]
  simp only [Ledger.view, Config.ofStored_toStored]
  rfl

theorem blockHeight (h : Represents s L) : State.blockHeight s
    = okOr L.height (.corrupt "block height not found in state; is the state initialized?") := by
  rw [State.blockHeight, Laid.get_clean (k := .blockHeight) h rfl rfl fun h _ ↦ h.clean]
  rfl

theorem blockTime (h : Represents s L) : State.blockTime s
    = okOr L.time (.corrupt "block time not found in state; is the state initialized?") := by
  rw [State.blockTime, Laid.get_clean (k := .blockTime) h rfl rfl fun t _ ↦ t.clean]
  rfl

theorem timeOfBlock (h : Represents s L) (height : Height) : State.timeOfBlock height s
    = okOr (L.blockTimes height) (.reject "block time not found in state") := by
  rw [State.timeOfBlock, Laid.get_clean (k := .blocktime height) h rfl rfl fun t _ ↦ t.clean]
  rfl

theorem previousAppHash (h : Represents s L) (height : Height) : State.previousAppHash height s
    = okOr (L.appHashes height) (.reject "app hash not found in state") := by
  rw [State.previousAppHash, Laid.get_clean (k := .apphash height) h rfl rfl fun b _ ↦ b.clean]
  rfl

theorem chainId (h : Represents s L) (hid : L.chainId.id ≠ []) : State.chainId s = .ok L.chainId :=
  by
  rw [State.chainId, Laid.get_clean (k := .chainId) (o := some L.chainId) h rfl rfl fun c hc ↦ by
    cases hc; exact ChainId.clean hid]
  rfl

theorem oracleVoting (h : Represents s L) :
    State.oracleVoting s = .ok (QueueId.oracle.queue L.config) := by
  rw [State.oracleVoting, h.config]
  rfl

theorem adminVoting (h : Represents s L) :
    State.adminVoting s = .ok (QueueId.admin.queue L.config) := by
  rw [State.adminVoting, h.config]
  rfl

theorem canonicalHash (h : Represents s L) (d : PrefixOrderDomain) :
    State.canonicalHash d.toDomain s = .ok (L.canonical d) := by
  have hget := Laid.get_clean (V := Bytes) (k := .canonical d)
    (o := (L.canonical d).map Hash32.bytes) h (rfl : Substore.canonical.prefixed d.display =
      Key.text (.canonical d))
    (by rw [Option.map_map]; rfl) fun b _ ↦ b.clean
  rw [State.canonicalHash]
  change (Store.get Bytes .canonical d.display s >>= _) = _
  rw [hget]
  rcases L.canonical d with _ | hash
  · rfl
  · simp only [Option.map_some, except_ok_bind, dif_pos hash.length_eq]
    rfl

variable [LawfulHost]

/-- The canonical domains whose text starts with some text, as the scans list them. -/
theorem canonicalStream (h : Represents s L) (p : Str) :
    ∃ es : List (PrefixOrderDomain × Hash32),
      s.scanKeys .canonical p = es.map (fun e ↦ .ok e.1.display) ∧
      s.scan Bytes .canonical p = es.map (fun e ↦ .ok (e.1.display, e.2.bytes)) ∧
      (∀ e, e ∈ es ↔ L.canonical e.1 = some e.2 ∧ p <+: e.1.display) ∧
      (es.map Prod.fst).Nodup := by
  obtain ⟨es, hscan, hmem, hnodup⟩ := Laid.exists_scan h
    (p := Substore.canonical.prefixed p)
    (P := fun e : PrefixOrderDomain × Hash32 ↦ L.canonical e.1 = some e.2 ∧ p <+: e.1.display)
    (k := fun e ↦ .canonical e.1) (v := fun e ↦ DomainType.toStored (V := Bytes) e.2.bytes)
    (fun x a hx hpre ↦ by
      obtain ⟨d, rfl, hd⟩ := canonical_prefix_iff.mp hpre
      obtain ⟨hash, hhash, rfl⟩ := Option.map_eq_some_iff.mp hx
      exact ⟨(d, hash), ⟨hhash, hd⟩, rfl, rfl⟩)
    (fun e he ↦ ⟨by rw [Ledger.view, he.1, Option.map_some],
      canonical_prefix_iff.mpr ⟨_, rfl, he.2⟩⟩)
    (fun e e' he he' hkey ↦ by
      have hd := Key.canonical.inj hkey
      have := he.1
      rw [hd, he'.1, Option.some_inj] at this
      exact Prod.ext hd this.symm)
  refine ⟨es, ?_, Laid.scan_eq hscan (fun e _ ↦ Bytes.clean _) (fun e ↦ rfl), hmem, ?_⟩
  · rw [Store.scanKeys, hscan, List.map_map]
    refine List.map_congr_left fun e _ ↦ ?_
    have hkey : Key.text (.canonical e.1) = Substore.canonical.prefixed e.1.display := rfl
    simp only [Function.comp_apply, hkey, Substore.unprefix_prefixed]
  · refine List.Nodup.map_on (fun e he e' he' heq ↦ ?_) hnodup
    have hhash := ((hmem e).mp he).1
    rw [heq, ((hmem e').mp he').1, Option.some_inj] at hhash
    exact Prod.ext heq hhash.symm

/-- What `canonical_strict_subdomains` lists: what starts with the text of the domain and a dot. -/
theorem canonicalStrictSubdomains_eq (h : Represents s L) (r : PrefixOrderDomain) :
    ∃ ds : List PrefixOrderDomain,
      State.canonicalStrictSubdomains r.toDomain s = .ok (ds.map PrefixOrderDomain.toDomain) ∧
      (∀ d, d ∈ ds ↔ (L.canonical d).isSome ∧ r.display ++ ['.'] <+: d.display) ∧ ds.Nodup := by
  obtain ⟨es, hkeys, -, hmem, hnodup⟩ := h.canonicalStream (r.display ++ ['.'])
  refine ⟨es.map Prod.fst, ?_, Ledger.mem_map_fst_iff hmem, hnodup⟩
  change collect _ (s.scanKeys .canonical (r.display ++ ['.'])).untilError = _
  rw [hkeys, Results.untilError_map_ok, List.map_map]
  refine collect_map_eq_ok fun e _ ↦ ?_
  rw [PrefixOrderDomain.fromStr_display]
  rfl

/-- The canonical domains below a domain. -/
theorem canonicalStrictSubdomains (h : Represents s L) {r : PrefixOrderDomain}
    (hr : r.name.labels ≠ []) :
    ∃ ds : List PrefixOrderDomain,
      State.canonicalStrictSubdomains r.toDomain s = .ok (ds.map PrefixOrderDomain.toDomain) ∧
      ∀ d, d ∈ ds ↔ (L.canonical d).isSome ∧ FQDN.ProperAncestor r.name d.name := by
  obtain ⟨ds, hds, hmem, -⟩ := h.canonicalStrictSubdomains_eq r
  refine ⟨ds, hds, fun d ↦ (hmem d).trans (and_congr_right fun _ ↦ ?_)⟩
  exact PrefixOrderDomain.display_dot_prefix_iff hr

/-- The canonical domains at or below a domain. -/
theorem canonicalSubdomains (h : Represents s L) {r : PrefixOrderDomain}
    (hr : r.name.labels ≠ []) :
    ∃ ds : List PrefixOrderDomain,
      State.canonicalSubdomains r.toDomain s = .ok (ds.map PrefixOrderDomain.toDomain) ∧
      ∀ d, d ∈ ds ↔ (L.canonical d).isSome ∧ d.name.isSubdomainOf r.name := by
  obtain ⟨ds, hds, hmem⟩ := h.canonicalStrictSubdomains hr
  rw [State.canonicalSubdomains]
  simp only [hds, h.canonicalHash, except_ok_bind]
  rcases hcanon : L.canonical r with _ | hash
  · refine ⟨ds, rfl, fun d ↦ ?_⟩
    rw [hmem, PrefixOrderDomain.isSubdomainOf_iff]
    refine and_congr_right fun hd ↦ ⟨.inr, ?_⟩
    rintro (rfl | hanc)
    · rw [hcanon] at hd
      cases hd
    · exact hanc
  · refine ⟨ds ++ [r], by rw [List.map_append]; rfl, fun d ↦ ?_⟩
    rw [List.mem_append, List.mem_singleton, hmem, PrefixOrderDomain.isSubdomainOf_iff]
    constructor
    · rintro (⟨hd, hanc⟩ | rfl)
      · exact ⟨hd, .inr hanc⟩
      · exact ⟨by rw [hcanon]; rfl, .inl rfl⟩
    · rintro ⟨hd, rfl | hanc⟩
      · exact .inr rfl
      · exact .inl ⟨hd, hanc⟩

/-- What the subdomain check counts is what is enrolled, and it rejects one domain too many. -/
theorem checkSubdomainLimit (h : Represents s L) (hL : L.Sound) (d : PrefixOrderDomain)
    {r : PrefixOrderDomain} (hr : r.name.labels ≠ []) :
    Decides Fault.Rejects (State.checkSubdomainLimitBeforePendingExact d r s)
      (L.WithinLimit d r.name) := by
  obtain ⟨es, hes, hesmem⟩ := h.pendingBelow hL L.config hr
  obtain ⟨ds, hds, hdsmem⟩ := h.canonicalSubdomains hr
  have hpend := h.pendingForKey hL .oracle L.config r
  let counted : List PrefixOrderDomain :=
    (((L.queue .oracle).pending r).map Prod.snd).toList.map (fun _ ↦ r) ++
      (es.map fun e ↦ (e.2.1.toTime, e.1, e.2.2)).map (fun e ↦ e.2.1) ++
      (ds.map PrefixOrderDomain.toDomain).map PrefixOrderDomain.ofDomain
  have hcounted : ∀ x, x ∈ counted ↔ x ∈ L.enrolled r.name := by
    intro x
    have hpending : (x ∈ (((L.queue .oracle).pending r).map Prod.snd).toList.map (fun _ ↦ r) ++
        (es.map fun e ↦ (e.2.1.toTime, e.1, e.2.2)).map (fun e ↦ e.2.1)) ↔
        ((L.queue .oracle).pending x).isSome ∧ x.name.isSubdomainOf r.name := by
      simp only [List.mem_append, List.mem_map, Option.mem_toList, Option.map_eq_some_iff]
      constructor
      · rintro (⟨v, ⟨e, he, rfl⟩, rfl⟩ | ⟨_, ⟨e, he, rfl⟩, rfl⟩)
        · exact ⟨by rw [he]; rfl, List.suffix_rfl⟩
        · obtain ⟨hp, hanc⟩ := (hesmem e).mp he
          exact ⟨by rw [hp]; rfl, hanc.2⟩
      · rintro ⟨hp, hsub⟩
        obtain ⟨e, he⟩ := Option.isSome_iff_exists.mp hp
        by_cases hne : r.name = x.name
        · obtain rfl : r = x := by cases r; cases x; exact congrArg _ hne
          exact .inl ⟨e.2, ⟨e, he, rfl⟩, rfl⟩
        · exact .inr ⟨_, ⟨(x, e), (hesmem _).mpr ⟨he, hne, hsub⟩, rfl⟩, rfl⟩
    have hcanonical : x ∈ (ds.map PrefixOrderDomain.toDomain).map PrefixOrderDomain.ofDomain ↔
        (L.canonical x).isSome ∧ x.name.isSubdomainOf r.name := by
      rw [← hdsmem, List.map_map]
      exact iff_of_eq (congrArg (x ∈ ·) (List.map_id ds))
    rw [List.mem_append, hpending, hcanonical, ← or_and_right, and_comm]
    rfl
  have hcard : (L.enrolled r.name).encard = (counted.dedup.length : ℕ∞) := by
    have hset : L.enrolled r.name = (counted.toFinset : Set PrefixOrderDomain) := by
      ext x
      rw [← hcounted, Finset.mem_coe, List.mem_toFinset]
    rw [hset, Set.encard_coe_eq_coe_finsetCard, List.card_toFinset]
  obtain ⟨m, hcheck⟩ : ∃ m, State.checkSubdomainLimitBeforePendingExact d r s =
      bailIf (d ∉ counted ∧
        L.config.oracles.maxEnrolledSubdomains.toNat < counted.dedup.length + 1) m := by
    rw [State.checkSubdomainLimitBeforePendingExact]
    simp only [h.config, h.oracleVoting, hpend, hes, hds, except_ok_bind]
    exact ⟨_, rfl⟩
  rw [hcheck]
  refine (decides_bailIf _ m).congr ?_
  rw [Ledger.WithinLimit, ← hcounted, hcard, not_and_or, not_not, Nat.not_lt]
  exact or_congr_right (by norm_cast)

/-! ## Writes -/

theorem setConfig (h : Represents s L) (c : Config) :
    ∃ t, State.setConfig c s = (.ok (), t) ∧ Represents t { L with written := c } := by
  refine ⟨_, rfl, (Laid.put (k := .config) h rfl c).congr ?_ rfl⟩
  funext k
  cases k <;> simp [Ledger.view]

theorem setBlockHeight (h : Represents s L) (height : Height) :
    ∃ t, State.setBlockHeight height s = (.ok (), t) ∧
      Represents t { L with height := some height } := by
  refine ⟨_, rfl, (Laid.put (k := .blockHeight) h rfl height).congr ?_ rfl⟩
  funext k
  cases k <;> simp [Ledger.view]

/-- Setting the block time also enters it into the history, under the current height. -/
theorem setBlockTime (h : Represents s L) {height : Height} (hheight : L.height = some height)
    (time : Time) :
    ∃ t, State.setBlockTime time s = (.ok (), t) ∧
      Represents t { L with
        time := some time
        blockTimes := Function.update L.blockTimes height (some time) } := by
  have htime : Represents (Store.put .internal "current/block_time".toList time s)
      { L with time := some time } := by
    refine (Laid.put (k := .blockTime) h rfl time).congr ?_ rfl
    funext k
    cases k <;> simp [Ledger.view]
  refine ⟨Store.put .internal ("blocktime/".toList ++ State.padHeight height) time _, ?_,
    (Laid.put (k := .blocktime height) htime rfl time).congr ?_ rfl⟩
  · rw [State.setBlockTime, Exec.modify_bind, State.recordBlockTime,
      Exec.read_bind_of_ok (by rw [htime.blockHeight, hheight]; rfl), Exec.modify_apply]
  · funext k
    cases k with
    | blocktime height' =>
      by_cases hh : height' = height
      · subst hh
        simp [Ledger.view]
      · simp [Ledger.view, hh]
    | _ => simp [Ledger.view]

/-- The app hash of the previous block is recorded under its height. -/
theorem recordAppHash (h : Represents s L) {height : Height} (hheight : L.height = some height)
    (hpos : 0 < height.value) (appHash : AppHash) :
    ∃ t, State.recordAppHash appHash s = (.ok (), t) ∧
      Represents t { L with
        appHashes := Function.update L.appHashes height.pred (some appHash) } := by
  have hprev : Height.ofNat? (height.value - 1) = some height.pred :=
    dif_pos ((Nat.sub_le _ _).trans height.le)
  refine ⟨Store.put (V := Bytes) .internal ("apphash/".toList ++ State.padHeight height.pred)
    appHash s, ?_, (Laid.put (V := Bytes) (k := .apphash height.pred) h rfl appHash).congr ?_ rfl⟩
  · rw [State.recordAppHash, Exec.read_bind_of_ok (by rw [h.blockHeight, hheight]; rfl),
      if_neg (by omega), Exec.read_bind_of_ok (by rw [hprev]; rfl), Exec.modify_apply]
  · funext k
    cases k with
    | apphash height' =>
      by_cases hh : height' = height.pred
      · subst hh
        simp [Ledger.view]
      · simp [Ledger.view, hh]
    | _ => simp [Ledger.view]

theorem updateCanonical (h : Represents s L) (d : PrefixOrderDomain) (o : HashObserved) :
    ∃ t, State.updateCanonical d.toDomain o s = (.ok (), t) ∧
      Represents t { L with canonical := Function.update L.canonical d o.hash? } := by
  cases o with
  | hash hash =>
    refine ⟨_, rfl, (Laid.put (V := Bytes) (k := .canonical d) h rfl hash.bytes).congr ?_ rfl⟩
    funext k
    cases k with
    | canonical d' =>
      by_cases hd : d' = d
      · subst hd
        simp [Ledger.view, HashObserved.hash?]
      · simp [Ledger.view, hd]
    | _ => simp [Ledger.view]
  | notFound =>
    refine ⟨_, rfl, (Laid.delete (k := .canonical d) h rfl).congr ?_ rfl⟩
    funext k
    cases k with
    | canonical d' =>
      by_cases hd : d' = d
      · subst hd
        rw [without_apply_of_mem (Set.mem_singleton _)]
        simp [Ledger.view, HashObserved.hash?]
      · rw [without_apply_of_notMem (by simpa using hd)]
        simp [Ledger.view, hd]
    | _ => exact (without_apply_of_notMem (by simp)).symm

end Represents

end Felidae
