import Felidae.Convert

/-!
# Reading and writing transactions

`TryFrom` and `From` of every message inside a transaction. An action without a signature, a
configuration or an observation is an error; the identity an action acts under is the public key
of its signature, and the signature itself is dropped. Going out, each action gets a blank
signature under its identity, and what was read comes back as it was.
-/

namespace Felidae

namespace Admin

/-- `Admin::try_from(Unsigned::try_from(signature))` -/
def ofSignature (m : Proto.Signature) : Admin := ⟨m.publicKey⟩

/-- `impl From<Admin> for proto::Signature` -/
def toSignature (a : Admin) : Proto.Signature := .unsigned a.identity

end Admin

namespace OracleIdentity

/-- `OracleIdentity::try_from(Unsigned::try_from(signature))` -/
def ofSignature (m : Proto.Signature) : OracleIdentity := ⟨m.publicKey⟩

/-- `impl From<OracleIdentity> for proto::Signature` -/
def toSignature (o : OracleIdentity) : Proto.Signature := .unsigned o.identity

end OracleIdentity

/-- `i64` to `Height`, through `u64`. -/
def Height.ofI64 (i : Int64) : Except ParseError Height :=
  match natOfI64 i >>= Height.ofNat? with
  | none => .error ⟨"felidae_types::transaction::Blockstamp", "missing"⟩
  | some h => .ok h

def Blockstamp.ofProto (m : Proto.Blockstamp) : Except ParseError Blockstamp := do
  let blockHeight ← Height.ofI64 m.blockNumber
  return ⟨blockHeight, m.blockHash⟩

def Blockstamp.toProto (b : Blockstamp) : Proto.Blockstamp :=
  ⟨b.appHash, i64OfNat b.blockHeight.value⟩

theorem Blockstamp.ofProto_toProto (b : Blockstamp) : ofProto b.toProto = .ok b := by
  obtain ⟨⟨n, hn⟩, appHash⟩ := b
  rw [ofProto, toProto, Height.ofI64, natOfI64_i64OfNat, min_eq_left hn]
  simp [Height.ofNat?, hn, pure, Except.pure]

def Reconfigure.ofProto (m : Proto.Reconfigure) : Except ParseError Reconfigure := do
  let admin ← required "felidae_types::transaction::Admin" (fun s ↦ .ok (Admin.ofSignature s))
    m.signature
  let config ← required "felidae_types::transaction::Config" Config.ofProto m.config
  let notBefore ← required "tendermint::time::Time" Time.ofProto m.notBefore
  let notAfter ← required "tendermint::time::Time" Time.ofProto m.notAfter
  return ⟨config, notBefore, notAfter, admin⟩

def Reconfigure.toProto (r : Reconfigure) : Proto.Reconfigure :=
  ⟨some r.admin.toSignature, some r.config.toProto, some r.notBefore.toProto,
    some r.notAfter.toProto⟩

theorem Reconfigure.ofProto_toProto (r : Reconfigure) :
    ofProto r.toProto = .ok { r with config := r.config.readBack } := by
  simp only [ofProto, toProto, required, Config.ofProto_toProto, Time.ofProto_toProto]
  rfl

/-- A configuration that arrives in a transaction is read back as it is stored. -/
theorem Reconfigure.readBack_of_ofProto {m : Proto.Reconfigure} {r : Reconfigure}
    (h : ofProto m = .ok r) : r.config.readBack = r.config := by
  simp only [ofProto, except_bind_eq_ok, required_eq_ok] at h
  obtain ⟨admin, -, config, ⟨c, -, hc⟩, notBefore, -, notAfter, -, hr⟩ := h
  cases hr
  exact Config.readBack_of_ofProto hc

section

variable [Host]

def Observation.ofProto (m : Proto.Observation) : Except ParseError Observation := do
  let domain ← Domain.ofText m.domain
  let zone ← Zone.ofText m.zone
  let hashObserved ← required "felidae_types::transaction::HashObserved" HashObserved.ofProto
    m.hashObserved
  let blockstamp ← required "felidae_types::transaction::Blockstamp" Blockstamp.ofProto
    m.blockstamp
  return ⟨domain, zone, blockstamp, hashObserved⟩

def Observation.toProto (o : Observation) : Proto.Observation where
  domain := o.domain.name.display
  zone := o.zone.name.display
  hashObserved := some o.hashObserved.toProto
  blockstamp := some o.blockstamp.toProto

theorem Observation.ofProto_toProto [LawfulHost] (o : Observation) :
    ofProto o.toProto = .ok o := by
  simp only [ofProto, toProto, Domain.ofText, Zone.ofText, LawfulHost.fqdnFromAsciiStr_display,
    required, HashObserved.ofProto_toProto, Blockstamp.ofProto_toProto]
  rfl

def Observe.ofProto (m : Proto.Observe) : Except ParseError Observe := do
  let oracle ← required "felidae_types::transaction::OracleIdentity"
    (fun s ↦ .ok (OracleIdentity.ofSignature s)) m.signature
  let observation ← required "felidae_types::transaction::Observation" Observation.ofProto
    m.observation
  return ⟨observation, oracle⟩

def Observe.toProto (o : Observe) : Proto.Observe :=
  ⟨some o.oracle.toSignature, some o.observation.toProto⟩

theorem Observe.ofProto_toProto [LawfulHost] (o : Observe) : ofProto o.toProto = .ok o := by
  simp only [ofProto, toProto, required, Observation.ofProto_toProto]
  rfl

def Action.ofProto (m : Proto.Action) : Except ParseError Action :=
  match m.action with
  | some (.reconfigure r) => (Reconfigure.ofProto r).map .reconfigure
  | some (.observe o) => (Observe.ofProto o).map .observe
  | none => .error ⟨"felidae_types::transaction::Action", "missing"⟩

def Action.toProto : Action → Proto.Action
  | .reconfigure r => ⟨some (.reconfigure r.toProto)⟩
  | .observe o => ⟨some (.observe o.toProto)⟩

/-- An action that was read comes back as it was. -/
theorem Action.ofProto_toProto [LawfulHost] {m : Proto.Action} {a : Action}
    (h : ofProto m = .ok a) : ofProto a.toProto = .ok a := by
  rw [ofProto] at h
  split at h
  next r hr =>
    obtain ⟨r', hr', rfl⟩ := except_map_eq_ok.mp h
    have hback := Reconfigure.ofProto_toProto r'
    rw [Reconfigure.readBack_of_ofProto hr'] at hback
    exact except_map_eq_ok.mpr ⟨r', hback, rfl⟩
  next o ho =>
    obtain ⟨o', -, rfl⟩ := except_map_eq_ok.mp h
    exact except_map_eq_ok.mpr ⟨o', o'.ofProto_toProto, rfl⟩
  next => cases h

/-- `Transaction::try_from`; the chain id is taken as it is, even when it is empty. -/
def Transaction.ofProto (m : Proto.Transaction) : Except ParseError Transaction := do
  let actions ← collect Action.ofProto m.actions
  return ⟨⟨m.chainId⟩, actions⟩

/-- `impl From<Transaction> for proto::Transaction`: no action is signed yet. -/
def Transaction.toProto (t : Transaction) : Proto.Transaction :=
  ⟨t.chainId.id, t.actions.map Action.toProto⟩

/-- A transaction that was read comes back as it was. -/
theorem Transaction.ofProto_toProto [LawfulHost] {m : Proto.Transaction} {t : Transaction}
    (h : ofProto m = .ok t) : ofProto t.toProto = .ok t := by
  obtain ⟨actions, hactions, ht⟩ := except_bind_eq_ok.mp h
  obtain rfl := Except.ok.inj ht
  have hback : collect Action.ofProto (actions.map Action.toProto) = .ok (actions.map id) := by
    refine collect_map_eq_ok fun a ha ↦ ?_
    obtain ⟨m, -, hm⟩ := exists_of_mem_collect hactions a ha
    exact Action.ofProto_toProto hm
  rw [List.map_id] at hback
  rw [ofProto, toProto, hback]
  rfl

/-! ## The identity of an action -/

/-- The public key an action acts under. -/
def Action.identity : Action → Bytes
  | .reconfigure r => r.admin.identity
  | .observe o => o.oracle.identity

/-- The signature an action carries. -/
def Proto.Action.signature? (m : Proto.Action) : Option Proto.Signature :=
  match m.action with
  | some (.reconfigure r) => r.signature
  | some (.observe o) => o.signature
  | none => none

omit [Host] in
/-- An action goes out with a blank signature under its identity. -/
@[simp] theorem Action.signature?_toProto (a : Action) :
    a.toProto.signature? = some (.unsigned a.identity) := by
  cases a <;> rfl

/-- An action that converts had a signature, and acts under its public key. -/
theorem Action.signature_of_ofProto {m : Proto.Action} {a : Action} (h : ofProto m = .ok a) :
    ∃ s, m.signature? = some s ∧ a.identity = s.publicKey := by
  rw [ofProto] at h
  split at h
  next r hr =>
    obtain ⟨r', hr', rfl⟩ := except_map_eq_ok.mp h
    simp only [Reconfigure.ofProto, except_bind_eq_ok, required_eq_ok] at hr'
    obtain ⟨admin, ⟨s, hs, hadmin⟩, config, -, notBefore, -, notAfter, -, hr'⟩ := hr'
    cases hadmin
    cases hr'
    exact ⟨s, by rw [Proto.Action.signature?, hr]; exact hs, rfl⟩
  next o ho =>
    obtain ⟨o', ho', rfl⟩ := except_map_eq_ok.mp h
    simp only [Observe.ofProto, except_bind_eq_ok, required_eq_ok] at ho'
    obtain ⟨oracle, ⟨s, hs, horacle⟩, observation, -, ho'⟩ := ho'
    cases horacle
    cases ho'
    exact ⟨s, by rw [Proto.Action.signature?, ho]; exact hs, rfl⟩
  next => cases h

end

end Felidae
