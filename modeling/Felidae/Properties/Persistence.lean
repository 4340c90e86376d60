import Felidae.Chain.Provenance
import Felidae.Proto.Wire
import Felidae.Reference

/-!
# What a config is after it has been stored

The messages hold counts as signed 64-bit integers and durations as whole seconds, and an empty
endpoint stands for the default one. A config within these bounds is read back as it was written;
any other is read back as the closest one within them, without an error. Configs that arrive in
transactions are within the bounds, since they were read from a message themselves.
-/

open Classical

namespace Felidae

/-! ## Configs within the bounds -/

/-- A count that an `int64` field can hold. -/
def Fits (n : UInt64) : Prop := n.toNat ≤ 9223372036854775807

/-- A duration that an `int64` field of seconds can hold. -/
def Duration.Whole (d : Duration) : Prop :=
  1000000000 ∣ d ∧ d.asSecs ≤ 9223372036854775807

structure VotingConfig.Representable (c : VotingConfig) : Prop where
  total : Fits c.total
  quorum : Fits c.quorum
  timeout : Duration.Whole c.timeout
  delay : Duration.Whole c.delay

structure Config.Representable (c : Config) : Prop where
  admins : c.admins.voting.Representable
  oracles : c.oracles.voting.Representable
  max : Fits c.oracles.maxEnrolledSubdomains
  observationTimeout : Duration.Whole c.oracles.observationTimeout
  endpoints : ∀ o ∈ c.oracles.authorized, o.endpoint ≠ []

theorem saturate_eq_iff {n : UInt64} : saturate n = n ↔ Fits n := by
  rw [saturate, Fits, ← UInt64.toNat_inj]
  have hlt : min n.toNat 9223372036854775807 < UInt64.size :=
    (min_le_right _ _).trans_lt (by decide)
  rw [UInt64.toNat_ofNat_of_lt' hlt]
  exact min_eq_left_iff

theorem wholeSecs_eq_iff {d : Duration} : wholeSecs d = d ↔ Duration.Whole d := by
  rw [wholeSecs, Duration.ofSecs, Duration.Whole]
  have hdiv : d.asSecs * 1000000000 = d ↔ 1000000000 ∣ d := by
    rw [Duration.asSecs, Nat.dvd_iff_div_mul_eq]
  rcases Nat.le_total d.asSecs 9223372036854775807 with hle | hle
  · rw [min_eq_left hle, hdiv, and_iff_left hle]
  · rw [min_eq_right hle]
    constructor
    · intro h
      have hsecs : d.asSecs = 9223372036854775807 := by
        rw [Duration.asSecs, ← h, Nat.mul_div_cancel _ (by decide)]
      exact ⟨hdiv.mp (by rw [hsecs, h]), hsecs.le⟩
    · rintro ⟨hdvd, hle'⟩
      rw [le_antisymm hle hle']
      exact hdiv.mpr hdvd

theorem VotingConfig.readBack_eq_iff {c : VotingConfig} : c.readBack = c ↔ c.Representable := by
  obtain ⟨total, quorum, timeout, delay⟩ := c
  simp only [readBack, VotingConfig.mk.injEq, saturate_eq_iff, wholeSecs_eq_iff]
  constructor
  · rintro ⟨htotal, hquorum, htimeout, hdelay⟩
    exact ⟨htotal, hquorum, htimeout, hdelay⟩
  · rintro ⟨htotal, hquorum, htimeout, hdelay⟩
    exact ⟨htotal, hquorum, htimeout, hdelay⟩

theorem Oracle.readBack_eq_iff {o : Oracle} : o.readBack = o ↔ o.endpoint ≠ [] := by
  obtain ⟨identity, endpoint⟩ := o
  by_cases he : endpoint = []
  · subst he
    exact iff_of_false (fun h ↦ defaultEndpoint_ne_nil (Oracle.mk.inj h).2) (not_not.mpr rfl)
  · refine iff_of_true ?_ he
    rw [readBack, if_neg he]

theorem Oracle.map_readBack_eq_iff {os : List Oracle} :
    os.map Oracle.readBack = os ↔ ∀ o ∈ os, o.endpoint ≠ [] := by
  induction os with
  | nil => exact iff_of_true rfl fun o ho ↦ absurd ho List.not_mem_nil
  | cons o os ih =>
    rw [List.map_cons, List.cons.injEq, ih, Oracle.readBack_eq_iff, List.forall_mem_cons]

/-- The bounds are those of the conversions. -/
theorem Config.readBack_eq_iff {c : Config} : c.readBack = c ↔ c.Representable := by
  obtain ⟨version, ⟨adminVoting, admins⟩, ⟨enabled, oracleVoting, max, timeout, oracles⟩, onion⟩ :=
    c
  simp only [Config.readBack, AdminConfig.readBack, OracleConfig.readBack, Config.mk.injEq,
    AdminConfig.mk.injEq, OracleConfig.mk.injEq, VotingConfig.readBack_eq_iff, saturate_eq_iff,
    wholeSecs_eq_iff, Oracle.map_readBack_eq_iff, true_and, and_true]
  constructor
  · rintro ⟨hadmins, horacles, hmax, htimeout, hendpoints⟩
    exact ⟨hadmins, horacles, hmax, htimeout, hendpoints⟩
  · rintro ⟨hadmins, horacles, hmax, htimeout, hendpoints⟩
    exact ⟨hadmins, horacles, hmax, htimeout, hendpoints⟩

/-! ## Encoding and decoding -/

namespace Config

/-- `encode_to_vec` -/
def encodeToVec (c : Config) : Bytes := Proto.Config.layout.encode c.toProto

/-- `decode`, after the decoder of the message type. -/
def decode (decodeProto : Bytes → Option Proto.Config) (buf : Bytes) : Except Fault Config := do
  let m ← okOr (decodeProto buf) (.reject "failed to decode Protobuf message")
  (ofProto m).mapError ParseError.reject

variable {decodeProto : Bytes → Option Proto.Config}

/-- What is encoded always decodes, to what is read back. -/
theorem decode_encodeToVec
    (hproto : ∀ m, decodeProto (Proto.Config.layout.encode m) = some m) (c : Config) :
    decode decodeProto c.encodeToVec = .ok c.readBack := by
  rw [decode, encodeToVec, hproto, okOr_some, except_ok_bind, ofProto_toProto]
  rfl

end Config

section Runs

variable [Host]

omit [Host] in
/-- What `config` returns after `set_config`. -/
theorem State.config_setConfig (c : Config) (s : Store) :
    State.config (State.setConfig c s).2 = .ok c.readBack := by
  have hlookup : (State.setConfig c s).2.verifiable[Substore.internal.prefixed
      "parameters/config".toList]? = some (DomainType.toStored c) :=
    PrefixMap.getElem?_insert_self _ _ _
  have hget : Store.get Config .internal "parameters/config".toList (State.setConfig c s).2
      = .ok (some c.readBack) := by
    rw [Store.get, hlookup]
    change (DomainType.ofStored (DomainType.toStored c)).map some = _
    rw [Config.ofStored_toStored]
    rfl
  rw [State.config, hget]
  rfl

/-- A config that an admin signed is within the bounds. -/
theorem AuthenticatedTx.representable {buf : Bytes} {tx : AuthenticatedTx}
    (h : fromProto buf = .ok tx) {r : Reconfigure} (hr : .reconfigure r ∈ tx.tx.actions) :
    r.config.Representable :=
  Config.readBack_eq_iff.mp (Config.readBack_of_clean (AuthenticatedTx.readable h _ hr))

omit [Host] in
/-- The vote of an admin that is counted is for the config in an accepted action of that admin. -/
theorem CastAt.reconfigure {m : Moment Ledger Event} {p : Bytes} {t : Second} {c : Config}
    (hm : CastAt m .admin Empty.mk p t c) : ∃ order r,
      m.event = .act order (.reconfigure r) (.ok ()) ∧ r.admin.identity = p ∧ r.config = c := by
  obtain ⟨order, action, now, hevent, -, -, hvotes, -⟩ := hm.accepted
  cases hvotes with
  | reconfigure r => exact ⟨order, r, hevent, rfl, rfl⟩

/-- A config that is put in force is the one its admins voted for, each with an action of their
own that was accepted earlier and holds this config. -/
structure SignedConfigs (h : List (Moment Ledger Event)) : Prop where
  installed : ∀ newer m older, h = newer ++ m :: older → m.after.config ≠ m.before.config →
    ∃ newer' x older' party t v, older = newer' ++ x :: older' ∧
      CastAt x .admin Empty.mk party t v ∧
      ((x.before.queue .admin).record Empty.mk party t v).HasQuorum
        x.before.config.admins.voting.quorum Empty.mk m.after.config
  /-- Votes for different configs are never counted for the same one. -/
  counted : ∀ newer x older, h = newer ++ x :: older → ∀ party t v,
    CastAt x .admin Empty.mk party t v → ∀ p c,
      p ∈ ((x.before.queue .admin).record Empty.mk party t v).supporters Empty.mk c →
        ∃ y ∈ x :: older, ∃ order r, y.event = .act order (.reconfigure r) (.ok ()) ∧
          r.admin.identity = p ∧ r.config = c

theorem LedgerHistory.signedConfigs [LawfulHost] {h : List (Moment Ledger Event)} {L : Ledger}
    (hist : LedgerHistory h L) : SignedConfigs h where
  installed := by
    rintro newer m older rfl hne
    have hsound : m.before.Sound := LedgerHistory.sound hist.split.1
    obtain ⟨-, t, -, -, hpending, -⟩ := (hist.split.2.config hsound).resolve_left hne
    obtain ⟨newer', x, older', rfl, henqueued, -⟩ :=
      LedgerHistory.pending_origin hist.split.1 hpending
    obtain ⟨party, v, hcast, hquorum⟩ := henqueued.won
    exact ⟨newer', x, older', party, t, v, rfl, hcast, hquorum⟩
  counted := by
    rintro newer x older rfl party t v hcast p c ⟨t', hp⟩
    obtain ⟨newer', y, older', hsplit, hy, -⟩ := LedgerHistory.counted_origin hist hcast hp
    exact ⟨y, hsplit ▸ List.mem_append_right _ List.mem_cons_self, hy.reconfigure⟩

/-- Configs persist. One within the bounds, and no other, is decoded from its encoding and read
back from the store as it was; no config fails to decode. The configs that admins sign are within
the bounds, the config in force is one of them as it was signed, and votes are only counted
together if they are for the same config. -/
theorem Config.persists [LawfulHost] {decodeProto : Bytes → Option Proto.Config}
    (hproto : ∀ m, decodeProto (Proto.Config.layout.encode m) = some m) :
    (∀ c : Config, ∃ c', decode decodeProto c.encodeToVec = .ok c' ∧
      (c' = c ↔ c.Representable)) ∧
    (∀ (c : Config) s, State.config (State.setConfig c s).2 = .ok c ↔ c.Representable) ∧
    (∀ buf tx, AuthenticatedTx.fromProto buf = .ok tx → ∀ r, .reconfigure r ∈ tx.tx.actions →
      r.config.Representable) ∧
    ∀ genesis requests ms s, Run genesis requests ms s → ∃ h L, Shown ms s h L ∧
      SignedConfigs h := by
  refine ⟨fun c ↦ ⟨_, decode_encodeToVec hproto c, readBack_eq_iff⟩, fun c s ↦ ?_,
    fun buf tx h r hr ↦ AuthenticatedTx.representable h hr, fun genesis requests ms s hrun ↦ ?_⟩
  · rw [State.config_setConfig, Except.ok.injEq, readBack_eq_iff]
  · obtain ⟨h, L, hshown⟩ := hrun.exists_shown
    exact ⟨h, L, hshown, LedgerHistory.signedConfigs hshown.history⟩

end Runs

namespace Reference

/-- The decoder of the message type: it undoes the encoding. -/
noncomputable def decodeConfig (buf : Bytes) : Option Proto.Config :=
  if h : ∃ m, Proto.Config.layout.encode m = buf then some h.choose else none

theorem decodeConfig_encode (m : Proto.Config) :
    decodeConfig (Proto.Config.layout.encode m) = some m := by
  have h : ∃ m', Proto.Config.layout.encode m' = Proto.Config.layout.encode m := ⟨m, rfl⟩
  rw [decodeConfig, dif_pos h]
  exact congrArg some (Proto.Config.layout.injective h.choose_spec)

/-- Configs that differ from the default one in a count that is too large, a duration that is too
long, a duration with a fraction of a second, and an oracle without an endpoint. -/
def outOfBounds : List Config :=
  let c := State.defaultConfig
  [{ c with admins.voting.total := 9223372036854775808 },
    { c with admins.voting.quorum := 9223372036854775808 },
    { c with oracles.maxEnrolledSubdomains := 9223372036854775808 },
    { c with admins.voting.timeout := .ofSecs 9223372036854775808 },
    { c with admins.voting.delay := 1500000000 },
    { c with oracles.observationTimeout := 1500000000 },
    { c with oracles.authorized := [⟨alice, []⟩] }]

/-- None of them is decoded as it was encoded, or read back as it was stored. -/
theorem decode_outOfBounds : outOfBounds.Forall fun c ↦
    Config.decode decodeConfig c.encodeToVec ≠ .ok c ∧
      State.config (State.setConfig c Store.empty).2 ≠ .ok c := by
  have hall : ∀ c ∈ outOfBounds, c.readBack ≠ c := by decide
  refine List.forall_iff_forall_mem.mpr fun c hc ↦ ?_
  rw [Config.decode_encodeToVec decodeConfig_encode, State.config_setConfig]
  exact ⟨fun h ↦ hall c hc (Except.ok.inj h), fun h ↦ hall c hc (Except.ok.inj h)⟩

/-- The config that the transaction proposes. -/
def proposes (tx : AuthenticatedTx) : Option Config :=
  tx.tx.actions.findSome? fun action ↦
    match action with
    | .reconfigure r => some r.config
    | .observe _ => none

theorem exists_reconfigure_of_proposes {tx : AuthenticatedTx} {c : Config}
    (h : proposes tx = some c) : ∃ r : Reconfigure, .reconfigure r ∈ tx.tx.actions ∧
      r.config = c := by
  obtain ⟨action, haction, h⟩ := List.exists_of_findSome?_eq_some h
  cases action with
  | observe o => cases h
  | reconfigure r => exact ⟨r, haction, Option.some.inj h⟩

/-- The config that Alice signs persists, also in the run in which it is put in force. -/
theorem persists_found : ∃ tx c, AuthenticatedTx.fromProto found.bytes = .ok tx ∧
    proposes tx = some c ∧ c.Representable ∧
    Config.decode decodeConfig c.encodeToVec = .ok c ∧
    (∀ s, State.config (State.setConfig c s).2 = .ok c) ∧
    ∃ ms s, Run genesis enrolling ms s ∧ ∃ h L, Shown ms s h L ∧ SignedConfigs h := by
  obtain ⟨hdecode, hstored, hsigned, hruns⟩ := Config.persists decodeConfig_encode
  have htest : ((AuthenticatedTx.fromProto found.bytes).toOption.bind proposes).isSome := by
    decide +kernel
  obtain ⟨c, hc⟩ := Option.isSome_iff_exists.mp htest
  obtain ⟨tx, htx, hproposes⟩ := Option.bind_eq_some_iff.mp hc
  have htx := except_toOption_eq_some.mp htx
  obtain ⟨r, hr, rfl⟩ := exists_reconfigure_of_proposes hproposes
  have hrepresentable := hsigned _ tx htx r hr
  obtain ⟨c', hc', hsame⟩ := hdecode r.config
  obtain rfl := hsame.mpr hrepresentable
  obtain ⟨ms, s, -, hrun⟩ := exists_run isSome_exec_enrolling
  exact ⟨tx, _, htx, hproposes, hrepresentable, hc', fun s ↦ (hstored _ s).mpr hrepresentable,
    ms, s, hrun, hruns _ _ _ _ hrun⟩

end Reference

end Felidae
