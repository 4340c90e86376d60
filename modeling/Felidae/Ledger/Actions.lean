import Felidae.Ledger.Cast

/-!
# Actions on the ledger

What the checks of `observe` and `reconfigure` ask of a ledger, and what an action does: it casts
its vote if it is permitted, and is rejected without a trace if it is not. A check on a store that
represents a sound ledger never fails for another reason.
-/

open Classical

namespace Felidae

/-! ## What the checks ask -/

/-- What `check_voting_config` asks. -/
structure VotingConfig.Checked (v : VotingConfig) (total : ℕ) : Prop where
  total_eq : v.total.toNat = total
  quorum_ne : v.quorum ≠ 0
  quorum_le : v.quorum ≤ v.total

/-- What `check_config` asks of a config, whatever is in force. -/
structure Config.Checked (c : Config) : Prop where
  admins : c.admins.voting.Checked c.admins.authorized.length
  oracles : c.oracles.voting.Checked c.oracles.authorized.length
  max_ne : c.oracles.maxEnrolledSubdomains ≠ 0
  admin_identities : ∀ i ∈ c.admins.authorized.map Admin.identity, ¬State.isAllZeros i
  oracle_identities : ∀ i ∈ c.oracles.authorized.map Oracle.identity, ¬State.isAllZeros i

/-- What `check_config` asks of a config, given the one in force. -/
structure Config.Supersedes (c current : Config) : Prop where
  version_lt : current.version < c.version
  checked : c.Checked
  max_le : current.oracles.maxEnrolledSubdomains ≤ c.oracles.maxEnrolledSubdomains

namespace Ledger

/-- What `observe` asks of a blockstamp. -/
structure Stamped (L : Ledger) (now : Time) (stamp : Blockstamp) : Prop where
  reached : ∃ h, L.height = some h ∧ stamp.blockHeight.value ≤ h.value
  recent : ∃ t age, L.blockTimes stamp.blockHeight = some t ∧ now.durationSince t = some age ∧
    age < L.config.oracles.observationTimeout
  hash : L.appHashes (State.previousBlockHeight stamp.blockHeight) = some stamp.appHash

/-- What `observe` asks of a domain: it is below the zone, and is enrolled or about to be, or may
be enrolled. -/
structure Observable (L : Ledger) (d : PrefixOrderDomain) (zone : FQDN) (o : HashObserved) :
    Prop where
  below : FQDN.ProperAncestor zone d.name
  known : (L.canonical d).isSome ∨
    (∃ t hash z, (L.queue .oracle).pending d = some (t, (⟨.hash hash, z⟩ : OracleVoteValue))) ∨
    (o ≠ .notFound ∧ L.WithinLimit d (FQDN.registered d.name zone))

/-- What a block at a given time asks of an action. -/
def Permits (L : Ledger) (now : Time) : Action → Prop
  | .observe o =>
    (∃ x ∈ L.config.oracles.authorized, x.identity = o.oracle.identity) ∧
      L.Stamped now o.observation.blockstamp ∧
      L.Observable (.ofDomain o.observation.domain) o.observation.zone.name
        o.observation.hashObserved
  | .reconfigure r =>
    (L.config.admins.authorized = [] ∨ r.admin ∈ L.config.admins.authorized) ∧
      r.notBefore ≤ now ∧ now ≤ r.notAfter ∧ r.config.Supersedes L.config ∧
      ∀ e : Second × Config, (L.queue .admin).pending Empty.mk = some e →
        e.2.version < r.config.version

/-- The vote an action casts. -/
def Casts (L : Ledger) (now : Time) : Action → Ledger → Prop
  | .observe o => L.Cast .oracle (.ofDomain o.observation.domain) o.oracle.identity now.second
      ⟨o.observation.hashObserved, o.observation.zone⟩
  | .reconfigure r => L.Cast .admin Empty.mk r.admin.identity now.second r.config

/-- Whatever vote is cast next, at most one value has a quorum under its key. -/
def Decisive (L : Ledger) : Prop :=
  ∀ (q : QueueId) (k : q.Key) (party : Bytes) (t : Second) (v w w' : q.Value),
    ((L.record q k party t v).queue q).HasQuorum (q.voting L.config).quorum k w →
    ((L.record q k party t v).queue q).HasQuorum (q.voting L.config).quorum k w' → w = w'

end Ledger

/-- The config an action proposes is read back as it was written. -/
def Action.Readable : Action → Prop
  | .observe _ => True
  | .reconfigure r => Clean r.config

/-! ## The checks -/

section Checks

variable {P Q : Prop}

theorem State.decides_checkVotingConfig (total : ℕ) (v : VotingConfig) :
    Decides Fault.Rejects (State.checkVotingConfig total v) (v.Checked total) := by
  rw [State.checkVotingConfig]
  refine ((decides_bailIf _ _).bind fun _ ↦ (decides_bailIf _ _).bind fun _ ↦
    decides_bailIf _ _).congr ?_
  rw [not_not, UInt64.not_lt]
  constructor
  · rintro ⟨ht, hq, hle⟩
    exact ⟨ht, hq, hle⟩
  · rintro ⟨ht, hq, hle⟩
    exact ⟨ht, hq, hle⟩

theorem State.decides_checkIdentities (role : String) (identities : List Bytes) :
    Decides Fault.Rejects (State.checkIdentities role identities)
      (∀ i ∈ identities, ¬State.isAllZeros i) := by
  rw [State.checkIdentities]
  rcases hfind : identities.findIdx? State.isAllZeros with _ | n
  · refine .ok fun i hi ↦ ?_
    rw [List.findIdx?_eq_none_iff.mp hfind i hi]
    exact Bool.false_ne_true
  · refine .error trivial fun hall ↦ ?_
    obtain ⟨hn, hzero, -⟩ := List.findIdx?_eq_some_iff_getElem.mp hfind
    exact hall _ (List.getElem_mem hn) hzero

/-- A missing entry of a history is a reason to reject. -/
theorem decides_okOr_bind {α : Type} {o : Option α} {m : String} {next : α → Except Fault Unit}
    {P : α → Prop} (h : ∀ a, Decides Fault.Rejects (next a) (P a)) :
    Decides Fault.Rejects (okOr o (.reject m) >>= next) (∃ a, o = some a ∧ P a) := by
  rcases o with _ | a
  · exact .error trivial (by rintro ⟨_, ha, _⟩; cases ha)
  · refine (h a).congr ⟨fun hP ↦ ⟨a, rfl, hP⟩, ?_⟩
    rintro ⟨_, ha, hP⟩
    exact Option.some.inj ha ▸ hP

variable [Host] {s : Store} {L : Ledger}

theorem Represents.checkConfig (h : Represents s L) (c : Config) :
    Decides Fault.Rejects (State.checkConfig c s) (c.Supersedes L.config) := by
  rw [State.checkConfig]
  refine .read_bind h.config ?_
  refine ((decides_bailIf _ _).bind fun _ ↦ (State.decides_checkVotingConfig _ _).bind fun _ ↦
    (State.decides_checkVotingConfig _ _).bind fun _ ↦ (decides_bailIf _ _).bind fun _ ↦
    (decides_bailIf _ _).bind fun _ ↦ (State.decides_checkIdentities _ _).bind fun _ ↦
    State.decides_checkIdentities _ _).congr ?_
  rw [UInt32.not_le, UInt64.not_lt]
  constructor
  · rintro ⟨hversion, hadmins, horacles, hmax, hle, hadmin, horacle⟩
    exact ⟨hversion, ⟨hadmins, horacles, hmax, hadmin, horacle⟩, hle⟩
  · rintro ⟨hversion, ⟨hadmins, horacles, hmax, hadmin, horacle⟩, hle⟩
    exact ⟨hversion, hadmins, horacles, hmax, hle, hadmin, horacle⟩

theorem Represents.checkBlockstamp (h : Represents s L) {height : Height} {now : Time}
    (hheight : L.height = some height) (htime : L.time = some now) (o : Observe) :
    Decides Fault.Rejects (State.checkBlockstamp o s)
      ((∃ x ∈ L.config.oracles.authorized, x.identity = o.oracle.identity) ∧
        L.Stamped now o.observation.blockstamp) := by
  rw [State.checkBlockstamp]
  simp only [h.config, h.blockHeight, hheight, h.blockTime, htime, h.timeOfBlock,
    h.previousAppHash, okOr_some, except_ok_bind]
  refine ((decides_bailIf _ _).bind fun _ ↦ (decides_bailIf _ _).bind fun _ ↦
    decides_okOr_bind fun t ↦ decides_okOr_bind fun age ↦ (decides_bailIf _ _).bind fun _ ↦
    decides_okOr_bind fun hash ↦ decides_bailIf _ _).congr ?_
  rw [not_not, List.any_eq_true, not_lt]
  constructor
  · rintro ⟨⟨x, hx, hid⟩, hreached, t, ht, age, hage, hlt, hash, hhash, heq⟩
    exact ⟨⟨x, hx, of_decide_eq_true hid⟩, ⟨_, hheight, hreached⟩,
      ⟨t, age, ht, hage, Nat.lt_of_not_le hlt⟩, not_not.mp heq ▸ hhash⟩
  · rintro ⟨⟨x, hx, hid⟩, ⟨_, hheight', hreached⟩, ⟨t, age, ht, hage, hlt⟩, hhash⟩
    obtain rfl := Option.some.inj (hheight.symm.trans hheight')
    exact ⟨⟨x, hx, decide_eq_true hid⟩, hreached, t, ht, age, hage, Nat.not_le_of_lt hlt,
      _, hhash, not_not.mpr rfl⟩

variable [LawfulHost]

/-- The last part of `check_subdomain`: a domain that is not enrolled and not about to be may only
be enrolled within the limit. -/
theorem Represents.checkNewSubdomain (h : Represents s L) (hL : L.Sound) {d : PrefixOrderDomain}
    {zone : FQDN} (hbelow : FQDN.ProperAncestor zone d.name) (o : HashObserved) (m : String)
    (context : String → String) :
    Decides Fault.Rejects
      (bailIf (o = .notFound) m >>= fun _ ↦
        match State.checkSubdomainLimitBeforePendingExact d ⟨FQDN.registered d.name zone⟩ s with
        | .ok _ => .ok ()
        | .error (.panic message) => .error (.panic message)
        | .error (.reject message) => .error (.reject (context message))
        | .error (.corrupt message) => .error (.corrupt (context message)))
      (o ≠ .notFound ∧ L.WithinLimit d (FQDN.registered d.name zone)) := by
  refine (decides_bailIf _ _).bind fun _ ↦ ?_
  rcases h.checkSubdomainLimit hL d (r := ⟨FQDN.registered d.name zone⟩)
      (FQDN.registered_labels_ne_nil hbelow) with ⟨hwithin, hcheck⟩ | ⟨hwithin, e, he, hcheck⟩
  · rw [hcheck]
    exact .ok hwithin
  · rw [hcheck]
    cases e with
    | reject m => exact .error trivial hwithin
    | corrupt m | panic m => exact absurd he id

theorem Represents.checkSubdomain (h : Represents s L) (hL : L.Sound) (o : Observe) :
    Decides Fault.Rejects (State.checkSubdomain o s)
      (L.Observable (.ofDomain o.observation.domain) o.observation.zone.name
        o.observation.hashObserved) := by
  have hsplit : ∀ {zone : FQDN} {d : PrefixOrderDomain} {P : Prop},
      ¬d.name = zone ∧ ¬¬d.name.isSubdomainOf zone ∧ P ↔ FQDN.ProperAncestor zone d.name ∧ P := by
    intro zone d P
    rw [not_not, ← and_assoc, FQDN.ProperAncestor, ne_comm]
  rw [State.checkSubdomain]
  refine ((decides_bailIf _ _).bind fun hne ↦ (decides_bailIf _ _).bind fun hsub ↦ ?_).congr
    (hsplit.trans ⟨fun h ↦ ⟨h.1, h.2⟩, fun h ↦ ⟨h.1, h.2⟩⟩)
  have hbelow : FQDN.ProperAncestor o.observation.zone.name
      (PrefixOrderDomain.ofDomain o.observation.domain).name := ⟨Ne.symm hne, not_not.mp hsub⟩
  generalize PrefixOrderDomain.ofDomain o.observation.domain = d at hbelow ⊢
  have hpending := h.pendingForKey hL .oracle L.config d
  simp only [State.registeredDomain_eq hbelow, h.canonicalHash, h.oracleVoting, hpending,
    except_ok_bind]
  rcases hcanonical : L.canonical d with _ | hash
  · have hnew := h.checkNewSubdomain hL hbelow o.observation.hashObserved
    rcases hp : (L.queue .oracle).pending d with _ | ⟨t, ⟨hash | _, z⟩⟩
    · refine (hnew _ _).congr ⟨fun hk ↦ .inr (.inr hk), ?_⟩
      rintro (hk | ⟨_, _, _, hk⟩ | hk)
      · cases hk
      · cases hk
      · exact hk
    · exact .ok (.inr (.inl ⟨t, hash, z, rfl⟩))
    · refine (hnew _ _).congr ⟨fun hk ↦ .inr (.inr hk), ?_⟩
      rintro (hk | ⟨_, _, _, hk⟩ | hk)
      · cases hk
      · simp at hk
      · exact hk
  · exact .ok (.inl rfl)

theorem Represents.checkReconfigure (h : Represents s L) (hL : L.Sound) {now : Time}
    (htime : L.time = some now) (r : Reconfigure) :
    Decides Fault.Rejects (State.checkReconfigure r s) (L.Permits now (.reconfigure r)) := by
  have hpending := h.pendingForKey hL .admin L.config Empty.mk
  rw [State.checkReconfigure]
  simp only [h.config, h.blockTime, htime, okOr_some, h.adminVoting, hpending, except_ok_bind]
  refine ((decides_bailIf _ _).bind fun _ ↦ (decides_bailIf _ _).bind fun _ ↦
    (decides_bailIf _ _).bind fun _ ↦ (h.checkConfig r.config).bind fun _ ↦
    (?_ : Decides _ _ (∀ e : Second × Config, (L.queue .admin).pending Empty.mk = some e →
      e.2.version < r.config.version))).congr ?_
  · rcases (L.queue .admin).pending Empty.mk with _ | e
    · exact .ok fun _ he ↦ by cases he
    · refine (decides_bailIf _ _).congr ?_
      rw [UInt32.not_le]
      exact ⟨fun hlt e' he' ↦ Option.some.inj he' ▸ hlt, fun hall ↦ hall e rfl⟩
  · have htimes : ∀ a b : Time, ¬a < b ↔ b ≤ a := fun a b ↦ not_lt (a := a.total) (b := b.total)
    rw [htimes, htimes, not_and_or, not_not, not_not]
    rfl

/-! ## Actions -/

/-- An action on an open block is applied if it is permitted, and rejected if it is not. -/
theorem Represents.applyAction (h : Represents s L) (hL : L.Sound) {height : Height} {now : Time}
    (hheight : L.height = some height) (htime : L.time = some now) (order : IterOrder)
    {action : Action} (haction : action.Readable) :
    (L.Permits now action ∧ ∃ t L', State.applyAction order action s = (.ok (), t) ∧
      Represents t L' ∧ L.Casts now action L') ∨
    (¬L.Permits now action ∧ ∃ e, e.Rejects ∧
      State.applyAction order action s = (.error e, s)) := by
  have hnow : State.blockTime s = .ok now := by rw [h.blockTime, htime, okOr_some]
  cases action with
  | observe o =>
    change _ ∨ (_ ∧ ∃ e, e.Rejects ∧ State.observe order o s = (.error e, s))
    rcases h.checkBlockstamp hheight htime o with ⟨hstamp, hok⟩ | ⟨hstamp, e, he, herr⟩
    · rcases h.checkSubdomain hL o with ⟨hsub, hok'⟩ | ⟨hsub, e, he, herr⟩
      · obtain ⟨t, L', hcast, ht, hcase⟩ := h.cast hL .oracle order
          (.ofDomain o.observation.domain) o.oracle.identity now
          (v := ⟨o.observation.hashObserved, o.observation.zone⟩) (OracleVoteValue.clean _)
          hsub.below
        refine .inl ⟨⟨hstamp.1, hstamp.2, hsub⟩, t, L', ?_, ht, hcase⟩
        change State.observe order o s = _
        rw [State.observe, Exec.read_bind_of_ok hok, Exec.read_bind_of_ok hnow,
          Exec.read_bind_of_ok hok', Exec.read_bind_of_ok h.oracleVoting]
        exact hcast
      · refine .inr ⟨fun hp ↦ hsub hp.2.2, e, he, ?_⟩
        rw [State.observe, Exec.read_bind_of_ok hok, Exec.read_bind_of_ok hnow,
          Exec.read_bind_of_error herr]
    · refine .inr ⟨fun hp ↦ hstamp ⟨hp.1, hp.2.1⟩, e, he, ?_⟩
      rw [State.observe, Exec.read_bind_of_error herr]
  | reconfigure r =>
    change _ ∨ (_ ∧ ∃ e, e.Rejects ∧ State.reconfigure order r s = (.error e, s))
    rcases h.checkReconfigure hL htime r with ⟨hpermits, hok⟩ | ⟨hpermits, e, he, herr⟩
    · obtain ⟨t, L', hcast, ht, hcase⟩ := h.cast hL .admin order Empty.mk r.admin.identity now
        haction trivial
      refine .inl ⟨hpermits, t, L', ?_, ht, hcase⟩
      change State.reconfigure order r s = _
      rw [State.reconfigure, Exec.read_bind_of_ok hok, Exec.read_bind_of_ok hnow,
        Exec.read_bind_of_ok h.adminVoting]
      exact hcast
    · refine .inr ⟨hpermits, e, he, ?_⟩
      rw [State.reconfigure, Exec.read_bind_of_error herr]

/-- On a decisive ledger an action does not depend on the order in which the tally is iterated. -/
theorem Represents.applyAction_congr (h : Represents s L) (hL : L.Sound) {height : Height}
    {now : Time} (hheight : L.height = some height) (htime : L.time = some now)
    (hdecisive : L.Decisive) (order order' : IterOrder) {action : Action}
    (haction : action.Readable) :
    State.applyAction order action s = State.applyAction order' action s := by
  have hnow : State.blockTime s = .ok now := by rw [h.blockTime, htime, okOr_some]
  cases action with
  | observe o =>
    change State.observe order o s = State.observe order' o s
    rw [State.observe, State.observe]
    rcases h.checkBlockstamp hheight htime o with ⟨-, hok⟩ | ⟨-, e, -, herr⟩
    · rcases h.checkSubdomain hL o with ⟨hsub, hok'⟩ | ⟨-, e, -, herr⟩
      · simp only [Exec.read_bind_of_ok hok, Exec.read_bind_of_ok hnow,
          Exec.read_bind_of_ok hok', Exec.read_bind_of_ok h.oracleVoting]
        exact h.cast_congr hL .oracle order order' (.ofDomain o.observation.domain)
          o.oracle.identity now (v := ⟨o.observation.hashObserved, o.observation.zone⟩)
          (OracleVoteValue.clean _) hsub.below (hdecisive .oracle _ _ _ _)
      · simp only [Exec.read_bind_of_ok hok, Exec.read_bind_of_ok hnow,
          Exec.read_bind_of_error herr]
    · rw [Exec.read_bind_of_error herr, Exec.read_bind_of_error herr]
  | reconfigure r =>
    change State.reconfigure order r s = State.reconfigure order' r s
    rw [State.reconfigure, State.reconfigure]
    rcases h.checkReconfigure hL htime r with ⟨-, hok⟩ | ⟨-, e, -, herr⟩
    · simp only [Exec.read_bind_of_ok hok, Exec.read_bind_of_ok hnow,
        Exec.read_bind_of_ok h.adminVoting]
      exact h.cast_congr hL .admin order order' Empty.mk r.admin.identity now haction trivial
        (hdecisive .admin _ _ _ _)
    · rw [Exec.read_bind_of_error herr, Exec.read_bind_of_error herr]

end Checks

end Felidae
