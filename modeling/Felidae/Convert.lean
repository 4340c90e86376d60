import Felidae.Foundation.Exec
import Felidae.Host

/-!
# Conversions between domain types and messages

Each domain type has a total conversion into its message (`toProto`, the source's `From`) and a
partial one back (`ofProto`, the source's `TryFrom`). Going out, unsigned integers saturate at the
largest `i64` and durations lose their fractional second; coming back, negative integers and
missing sub-messages are rejected and an empty oracle endpoint becomes the default one. A value
that survives the round trip is `Clean`; everything that came out of a message is.

Domain types contain no signatures: a signature becomes the identity of its public key.
-/

namespace Felidae

open Proto

/-! ## Integers -/

/-- `u64::try_from(i64)` -/
def natOfI64 (i : Int64) : Option ℕ := if 0 ≤ i.toInt then some i.toInt.toNat else none

/-- `i64::try_from(u64).unwrap_or(i64::MAX)` -/
def i64OfNat (n : ℕ) : Int64 := if n ≤ 9223372036854775807 then Int64.ofNat n else Int64.maxValue

theorem natOfI64_i64OfNat (n : ℕ) : natOfI64 (i64OfNat n) = some (min n 9223372036854775807) := by
  rw [i64OfNat, natOfI64]
  split_ifs with h hpos hpos
  · rw [Int64.toInt_ofNat_of_lt (by omega), Int.toNat_natCast, min_eq_left h]
  · rw [Int64.toInt_ofNat_of_lt (by omega)] at hpos
    omega
  · rw [min_eq_right (by omega)]
    rfl
  · exact absurd (by decide) hpos

theorem le_of_natOfI64 {i : Int64} {n : ℕ} (h : natOfI64 i = some n) : n ≤ 9223372036854775807 := by
  rw [natOfI64] at h
  split_ifs at h with hpos
  have hlt := i.toInt_lt
  rw [Option.some_inj] at h
  omega

/-- A `u64` as it comes back from an `int64` field. -/
def saturate (n : UInt64) : UInt64 := .ofNat (min n.toNat 9223372036854775807)

/-- A duration as it comes back from an `int64` field of seconds. -/
def wholeSecs (d : Duration) : Duration := .ofSecs (min d.asSecs 9223372036854775807)

/-- A field that has to be there: `field.map(TryInto::try_into).ok_or_else(missing)??`. -/
def required {α β : Type} (typeName : String) (ofProto : α → Except ParseError β) :
    Option α → Except ParseError β
  | none => .error ⟨typeName, "missing"⟩
  | some m => ofProto m

theorem required_eq_ok {α β : Type} {typeName : String} {ofProto : α → Except ParseError β}
    {m : Option α} {b : β} :
    required typeName ofProto m = .ok b ↔ ∃ a, m = some a ∧ ofProto a = .ok b := by
  cases m <;> simp [required]

/-- An integer field that has to be non-negative, with the error of its own type. -/
def nonneg (typeName value : String) (i : Int64) : Except ParseError ℕ :=
  match natOfI64 i with
  | none => .error ⟨typeName, value⟩
  | some n => .ok n

@[simp] theorem nonneg_i64OfNat (typeName value : String) (n : ℕ) :
    nonneg typeName value (i64OfNat n) = .ok (min n 9223372036854775807) := by
  rw [nonneg, natOfI64_i64OfNat]

theorem le_of_nonneg {typeName value : String} {i : Int64} {n : ℕ}
    (h : nonneg typeName value i = .ok n) : n ≤ 9223372036854775807 := by
  rw [nonneg] at h
  split at h
  · cases h
  · rename_i m hm
    rw [← Except.ok.inj h]
    exact le_of_natOfI64 hm

theorem saturate_ofNat {n : ℕ} (h : n ≤ 9223372036854775807) :
    saturate (.ofNat n) = .ofNat n := by
  rw [saturate, UInt64.toNat_ofNat_of_lt' (h.trans_lt (by decide)), min_eq_left h]

theorem wholeSecs_ofSecs {n : ℕ} (h : n ≤ 9223372036854775807) :
    wholeSecs (.ofSecs n) = .ofSecs n := by
  have hsecs : Duration.asSecs (.ofSecs n) = n := Nat.mul_div_cancel n (by decide)
  rw [wholeSecs, hsecs, min_eq_left h]

/-! ## Voting parameters -/

namespace VotingConfig

def ofProto (m : Proto.VotingConfig) : Except ParseError VotingConfig := do
  let total ← nonneg "felidae_types::transaction::Total" (toString m.total) m.total
  let quorum ← nonneg "felidae_types::transaction::Quorum" (toString m.quorum) m.quorum
  let timeout ← nonneg "felidae_types::transaction::Timeout" (toString m.timeout) m.timeout
  let delay ← nonneg "felidae_types::transaction::Delay" (toString m.delay) m.delay
  return ⟨.ofNat total, .ofNat quorum, .ofSecs timeout, .ofSecs delay⟩

def toProto (c : VotingConfig) : Proto.VotingConfig where
  total := i64OfNat c.total.toNat
  quorum := i64OfNat c.quorum.toNat
  timeout := i64OfNat c.timeout.asSecs
  delay := i64OfNat c.delay.asSecs

/-- What is read back after writing. -/
def readBack (c : VotingConfig) : VotingConfig where
  total := saturate c.total
  quorum := saturate c.quorum
  timeout := wholeSecs c.timeout
  delay := wholeSecs c.delay

theorem ofProto_toProto (c : VotingConfig) : ofProto c.toProto = .ok c.readBack := by
  simp only [ofProto, toProto, nonneg_i64OfNat]
  rfl

theorem readBack_of_ofProto {m : Proto.VotingConfig} {c : VotingConfig}
    (h : ofProto m = .ok c) : c.readBack = c := by
  simp only [ofProto, except_bind_eq_ok] at h
  obtain ⟨total, htotal, quorum, hquorum, timeout, htimeout, delay, hdelay, hc⟩ := h
  rw [← Except.ok.inj hc, readBack, saturate_ofNat (le_of_nonneg htotal), saturate_ofNat
    (le_of_nonneg hquorum),
    wholeSecs_ofSecs (le_of_nonneg htimeout), wholeSecs_ofSecs (le_of_nonneg hdelay)]

end VotingConfig

/-! ## Authorized parties -/

namespace Admin

def ofProto (m : Proto.Admin) : Except ParseError Admin := .ok ⟨m.publicKey⟩

def toProto (a : Admin) : Proto.Admin := ⟨a.identity⟩

end Admin

namespace Oracle

def defaultEndpoint : Str := "127.0.0.1".toList

theorem defaultEndpoint_ne_nil : defaultEndpoint ≠ [] := by decide

def ofProto (m : Proto.Oracle) : Except ParseError Oracle :=
  match m.publicKey with
  | none => .error ⟨"felidae_types::transaction::OracleIdentity", "missing"⟩
  | some k => .ok ⟨k.publicKey, if m.endpoint = [] then defaultEndpoint else m.endpoint⟩

def toProto (o : Oracle) : Proto.Oracle := ⟨some ⟨o.identity⟩, o.endpoint⟩

/-- What is read back after writing. -/
def readBack (o : Oracle) : Oracle :=
  ⟨o.identity, if o.endpoint = [] then defaultEndpoint else o.endpoint⟩

theorem ofProto_toProto (o : Oracle) : ofProto o.toProto = .ok o.readBack := rfl

theorem readBack_of_ofProto {m : Proto.Oracle} {o : Oracle} (h : ofProto m = .ok o) :
    o.readBack = o := by
  rw [ofProto] at h
  split at h
  · cases h
  · rw [← Except.ok.inj h, readBack]
    by_cases he : m.endpoint = []
    · rw [if_pos he, if_neg defaultEndpoint_ne_nil]
    · rw [if_neg he, if_neg he]

end Oracle

/-! ## Configuration -/

namespace AdminConfig

def ofProto (m : Proto.AdminConfig) : Except ParseError AdminConfig := do
  let admins ← collect Admin.ofProto m.admins
  let voting ← required "felidae_types::transaction::VotingConfig" VotingConfig.ofProto
    m.votingConfig
  return ⟨voting, admins⟩

def toProto (c : AdminConfig) : Proto.AdminConfig :=
  ⟨c.authorized.map Admin.toProto, some c.voting.toProto⟩

/-- What is read back after writing. -/
def readBack (c : AdminConfig) : AdminConfig := ⟨c.voting.readBack, c.authorized⟩

theorem ofProto_toProto (c : AdminConfig) : ofProto c.toProto = .ok c.readBack := by
  have hadmins : collect Admin.ofProto (c.authorized.map Admin.toProto) = .ok c.authorized := by
    rw [collect_map_eq_ok (e := Admin.toProto) (f := Admin.ofProto) (g := id) fun _ _ ↦ rfl,
      List.map_id]
  simp only [ofProto, toProto, hadmins, required, VotingConfig.ofProto_toProto]
  rfl

theorem readBack_of_ofProto {m : Proto.AdminConfig} {c : AdminConfig} (h : ofProto m = .ok c) :
    c.readBack = c := by
  simp only [ofProto, except_bind_eq_ok] at h
  obtain ⟨admins, -, voting, hvoting, hc⟩ := h
  rcases hm : m.votingConfig with _ | v
  · rw [hm] at hvoting
    cases hvoting
  · rw [hm] at hvoting
    rw [← Except.ok.inj hc, readBack, VotingConfig.readBack_of_ofProto hvoting]

end AdminConfig

namespace OracleConfig

def ofProto (m : Proto.OracleConfig) : Except ParseError OracleConfig := do
  let maxEnrolledSubdomains ← nonneg "u64" "missing" m.maxEnrolledSubdomains
  let oracles ← collect Oracle.ofProto m.oracles
  let voting ← required "felidae_types::transaction::VotingConfig" VotingConfig.ofProto
    m.votingConfig
  let observationTimeout ← nonneg "core::time::Duration" "missing" m.observationTimeout
  return {
    enabled := m.enabled
    voting := voting
    maxEnrolledSubdomains := .ofNat maxEnrolledSubdomains
    observationTimeout := .ofSecs observationTimeout
    authorized := oracles }

def toProto (c : OracleConfig) : Proto.OracleConfig where
  oracles := c.authorized.map Oracle.toProto
  votingConfig := some c.voting.toProto
  enabled := c.enabled
  maxEnrolledSubdomains := i64OfNat c.maxEnrolledSubdomains.toNat
  observationTimeout := i64OfNat c.observationTimeout.asSecs

/-- What is read back after writing. -/
def readBack (c : OracleConfig) : OracleConfig where
  enabled := c.enabled
  voting := c.voting.readBack
  maxEnrolledSubdomains := saturate c.maxEnrolledSubdomains
  observationTimeout := wholeSecs c.observationTimeout
  authorized := c.authorized.map Oracle.readBack

theorem ofProto_toProto (c : OracleConfig) : ofProto c.toProto = .ok c.readBack := by
  have horacles : collect Oracle.ofProto (c.authorized.map Oracle.toProto)
      = .ok (c.authorized.map Oracle.readBack) :=
    collect_map_eq_ok fun o _ ↦ o.ofProto_toProto
  simp only [ofProto, toProto, nonneg_i64OfNat, horacles, required, VotingConfig.ofProto_toProto]
  rfl

theorem readBack_of_ofProto {m : Proto.OracleConfig} {c : OracleConfig} (h : ofProto m = .ok c) :
    c.readBack = c := by
  simp only [ofProto, except_bind_eq_ok] at h
  obtain ⟨maxEnrolled, hmax, oracles, horacles, voting, hvoting, timeout, htimeout, hc⟩ := h
  have hmap : ∀ {ms : List Proto.Oracle} {os : List Oracle},
      List.Forall₂ (fun m o ↦ Oracle.ofProto m = .ok o) ms os → os.map Oracle.readBack = os := by
    intro ms os hos
    induction hos with
    | nil => rfl
    | cons ho _ ih => rw [List.map_cons, Oracle.readBack_of_ofProto ho, ih]
  rcases hm : m.votingConfig with _ | v
  · rw [hm] at hvoting
    cases hvoting
  · rw [hm] at hvoting
    rw [← Except.ok.inj hc, readBack, VotingConfig.readBack_of_ofProto hvoting,
      saturate_ofNat (le_of_nonneg hmax),
      wholeSecs_ofSecs (le_of_nonneg htimeout), hmap (forall₂_of_collect horacles)]

end OracleConfig

namespace OnionConfig

def ofProto (m : Proto.OnionConfig) : Except ParseError OnionConfig := .ok ⟨m.enabled⟩

def toProto (c : OnionConfig) : Proto.OnionConfig := ⟨c.enabled⟩

end OnionConfig

namespace Config

/-- `u32::try_from(i64)` -/
def versionOfI64 (i : Int64) : Except ParseError UInt32 :=
  if 0 ≤ i.toInt ∧ i.toInt < 4294967296 then .ok (.ofNat i.toInt.toNat)
  else .error ⟨"u32", "missing"⟩

def ofProto (m : Proto.Config) : Except ParseError Config := do
  let version ← versionOfI64 m.version
  let adminConfig ← required "felidae_types::transaction::AdminConfig" AdminConfig.ofProto
    m.adminConfig
  let oracleConfig ← required "felidae_types::transaction::OracleConfig" OracleConfig.ofProto
    m.oracleConfig
  let onionConfig ← required "felidae_types::transaction::OnionConfig" OnionConfig.ofProto
    m.onionConfig
  return ⟨version, adminConfig, oracleConfig, onionConfig⟩

def toProto (c : Config) : Proto.Config where
  adminConfig := some c.admins.toProto
  oracleConfig := some c.oracles.toProto
  onionConfig := some c.onion.toProto
  version := Int64.ofNat c.version.toNat

/-- What is read back after writing. -/
def readBack (c : Config) : Config where
  version := c.version
  admins := c.admins.readBack
  oracles := c.oracles.readBack
  onion := c.onion

theorem versionOfI64_ofNat (v : UInt32) : versionOfI64 (Int64.ofNat v.toNat) = .ok v := by
  have hlt := v.toNat_lt
  have hint : (Int64.ofNat v.toNat).toInt = v.toNat := Int64.toInt_ofNat_of_lt (by omega)
  rw [versionOfI64, hint, if_pos (by omega), Int.toNat_natCast, UInt32.ofNat_toNat]

/-- A stored configuration always decodes. -/
theorem ofProto_toProto (c : Config) : ofProto c.toProto = .ok c.readBack := by
  simp only [ofProto, toProto, versionOfI64_ofNat, required, AdminConfig.ofProto_toProto,
    OracleConfig.ofProto_toProto, OnionConfig.ofProto]
  rfl

/-- A configuration that came out of a message is read back unchanged. -/
theorem readBack_of_ofProto {m : Proto.Config} {c : Config} (h : ofProto m = .ok c) :
    c.readBack = c := by
  simp only [ofProto, except_bind_eq_ok] at h
  obtain ⟨version, -, admins, hadmins, oracles, horacles, onion, -, hc⟩ := h
  rcases ha : m.adminConfig with _ | a
  · rw [ha] at hadmins
    cases hadmins
  rcases ho : m.oracleConfig with _ | o
  · rw [ho] at horacles
    cases horacles
  rw [ha] at hadmins
  rw [ho] at horacles
  rw [← Except.ok.inj hc, readBack, AdminConfig.readBack_of_ofProto hadmins,
    OracleConfig.readBack_of_ofProto horacles]

end Config

/-! ## Times -/

namespace Time

def ofProto (m : Timestamp) : Except ParseError Time :=
  match if 0 ≤ m.nanos.toInt then fromUnixTimestamp m.seconds.toInt m.nanos.toInt.toNat else none
    with
  | none => .error ⟨"tendermint::time::Time", "missing"⟩
  | some t => .ok t

def toProto (t : Time) : Timestamp := ⟨.ofInt t.unixTimestamp, .ofNat t.nanos⟩

theorem ofProto_toProto (t : Time) : ofProto t.toProto = .ok t := by
  obtain ⟨hlo, hhi⟩ := t.valid
  have hnanos := t.nanos_lt
  have hsecs : (Int64.ofInt t.unixTimestamp).toInt = t.unixTimestamp :=
    Int64.toInt_ofInt_of_le (by omega) (by omega)
  have hint : (Int32.ofNat t.nanos).toInt = t.nanos := Int32.toInt_ofNat_of_lt (by omega)
  rw [ofProto, toProto, hint, hsecs, if_pos (by omega), Int.toNat_natCast, fromUnixTimestamp,
    dif_pos ⟨t.valid, t.nanos_lt⟩]

end Time

/-! ## Observed hashes -/

namespace HashObserved

def ofProto (m : Proto.HashObserved) : Except ParseError HashObserved :=
  if h : m.hash.length = 32 then .ok (.hash ⟨m.hash, h⟩)
  else if m.hash = [] then .ok .notFound
  else .error ⟨"felidae_types::transaction::HashObserved", String.ofList (hexEncode m.hash)⟩

def toProto : HashObserved → Proto.HashObserved
  | hash h => ⟨h.bytes⟩
  | notFound => ⟨[]⟩

theorem ofProto_toProto (h : HashObserved) : ofProto h.toProto = .ok h := by
  cases h with
  | hash h => rw [toProto, ofProto, dif_pos h.length_eq]
  | notFound => rfl

end HashObserved

/-! ## Names -/

/-- A joined list of labels starts with no dot. -/
theorem head_intercalate_labels (ls : List Label) :
    (List.intercalate ['.'] (ls.map Label.text)).head? ≠ some '.' := by
  have hl : ∀ (l : Label) (t : Str), (l.text ++ t).head? ≠ some '.' := fun l t h ↦ by
    rcases hc : l.text with _ | ⟨c, cs⟩
    · exact l.ne_nil hc
    · rw [hc, List.cons_append, List.head?_cons, Option.some_inj] at h
      exact l.dot_notMem (by rw [hc, h]; exact List.mem_cons_self)
  match ls with
  | [] => simp
  | [l] => simpa using hl l []
  | l :: l' :: ls =>
    rw [List.map_cons, List.map_cons, List.intercalate_cons_cons, List.append_assoc]
    exact hl l _

theorem PrefixOrderDomain.slash_notMem_display (d : PrefixOrderDomain) : '/' ∉ d.display := by
  rw [display, List.mem_cons]
  rintro (h | h)
  · exact absurd h (by decide)
  · refine notMem_intercalate (by decide) (fun t ht ↦ ?_) h
    obtain ⟨l, -, rfl⟩ := List.mem_map.mp (List.mem_reverse.mp ht)
    exact l.slash_notMem

/-- `impl TryFrom<String> for ChainId` -/
def ChainId.ofText (s : Str) : Except ParseError ChainId :=
  if s = [] then .error ⟨"felidae_types::transaction::ChainId", String.ofList s⟩ else .ok ⟨s⟩

/-- `impl TryFrom<String> for Empty` -/
def Empty.ofText (s : Str) : Except ParseError Empty :=
  if s = [] then .ok .mk else .error ⟨"felidae_types::transaction::Empty", String.ofList s⟩

/-- `impl From<Empty> for String` -/
def Empty.display (_ : Empty) : Str := []

section Names

variable [Host]

def Domain.ofText (s : Str) : Except ParseError Domain :=
  match Host.fqdnFromAsciiStr s with
  | none => .error ⟨"felidae_types::transaction::Domain", String.ofList s⟩
  | some name => .ok ⟨name⟩

def Zone.ofText (s : Str) : Except ParseError Zone :=
  match Host.fqdnFromAsciiStr s with
  | none => .error ⟨"felidae_types::transaction::Zone", String.ofList s⟩
  | some name => .ok ⟨name⟩

namespace PrefixOrderDomain

/-- `impl FromStr for PrefixOrderDomain` -/
def fromStr (s : Str) : Option PrefixOrderDomain :=
  let labels := (trimStart '.' s).splitOn '.'
  (Host.fqdnFromStr (List.intercalate ['.'] labels.reverse ++ ['.'])).toOption.map fun name ↦ ⟨name⟩

/-- `impl TryFrom<String> for PrefixOrderDomain` -/
def ofText (s : Str) : Except ParseError PrefixOrderDomain :=
  match fromStr s with
  | none => .error ⟨"felidae_types::transaction::PrefixOrderDomain", String.ofList s⟩
  | some d => .ok d

end PrefixOrderDomain

/-! ### The text form of a prefix-ordered name -/

theorem PrefixOrderDomain.fromStr_display [LawfulHost] (d : PrefixOrderDomain) :
    fromStr d.display = some d := by
  have hrev : (d.name.labels.map Label.text).reverse = d.name.labels.reverse.map Label.text :=
    List.map_reverse.symm
  have hjoin : List.intercalate ['.'] ((trimStart '.' d.display).splitOn '.').reverse ++ ['.']
      = d.name.display := by
    rw [display, hrev, trimStart_cons_of_head (head_intercalate_labels _)]
    rcases hd : d.name.labels with _ | ⟨l, ls⟩
    · rw [FQDN.display, hd]
      rfl
    · have hdots : ∀ t ∈ (l :: ls).reverse.map Label.text, '.' ∉ t := by
        rintro t ht
        obtain ⟨m, -, rfl⟩ := List.mem_map.mp ht
        exact m.dot_notMem
      rw [List.splitOn_intercalate '.' hdots (by simp), ← List.map_reverse, List.reverse_reverse,
        intercalate_append (by simp), FQDN.display, hd, List.flatMap_map]
  simp only [fromStr, hjoin, LawfulHost.fqdnFromStr_display, Except.toOption,
    Option.map_some]

/-- The text form determines the name. -/
theorem PrefixOrderDomain.display_injective [LawfulHost] :
    Function.Injective PrefixOrderDomain.display := fun a b h ↦ by
  have := congrArg fromStr h
  simpa [fromStr_display] using this

/-! ### Oracle votes -/

namespace OracleVoteValue

def ofProto (m : Proto.OracleVoteValue) : Except ParseError OracleVoteValue := do
  let hashObserved ← match m.hashObserved with
    | none => .error ⟨"felidae_types::transaction::OracleVoteValue", "missing hash_observed"⟩
    | some h => HashObserved.ofProto h
  match Host.fqdnFromStr m.zone with
  | .error e => .error ⟨"felidae_types::transaction::OracleVoteValue", s!"invalid zone: {e}"⟩
  | .ok zone => return ⟨hashObserved, ⟨zone⟩⟩

def toProto (v : OracleVoteValue) : Proto.OracleVoteValue :=
  ⟨some v.hashObserved.toProto, v.zone.name.display⟩

theorem ofProto_toProto [LawfulHost] (v : OracleVoteValue) : ofProto v.toProto = .ok v := by
  rw [ofProto, toProto]
  simp only [HashObserved.ofProto_toProto, LawfulHost.fqdnFromStr_display]
  rfl

end OracleVoteValue

end Names

/-! ## Stored values -/

/-- A type whose values the store can hold: `DomainType`, with its protobuf message wrapped. -/
class DomainType (V : Type) where
  toStored : V → Stored
  ofStored : Stored → Except Fault V

/-- `V::decode` of the bytes of another message. -/
def mismatch {V : Type} : Except Fault V := .error (.corrupt "failed to decode Protobuf message")

/-- A value that is read back as it was written. -/
def Clean {V : Type} [DomainType V] (v : V) : Prop :=
  DomainType.ofStored (DomainType.toStored v) = .ok v

instance : DomainType Config where
  toStored c := .config c.toProto
  ofStored
    | .config m => (Config.ofProto m).mapError ParseError.corrupt
    | _ => mismatch

instance [Host] : DomainType OracleVoteValue where
  toStored v := .voteValue v.toProto
  ofStored
    | .voteValue m => (OracleVoteValue.ofProto m).mapError ParseError.corrupt
    | _ => mismatch

instance : DomainType Time where
  toStored t := .timestamp t.toProto
  ofStored
    | .timestamp m => (Time.ofProto m).mapError ParseError.corrupt
    | _ => mismatch

instance : DomainType Height where
  toStored h := .uint64 (.ofNat h.value)
  ofStored
    | .uint64 n => (Height.ofNat? n.toNat).elim (.error (.corrupt "integer overflow")) .ok
    | _ => mismatch

instance : DomainType Power where
  toStored p := .uint64 (.ofNat p.value)
  ofStored
    | .uint64 n => (Power.ofNat? n.toNat).elim (.error (.corrupt "integer overflow")) .ok
    | _ => mismatch

/-- `AppHash`, `Bytes` and `Vec<u8>`. -/
instance : DomainType Bytes where
  toStored b := .bytes b
  ofStored
    | .bytes b => .ok b
    | _ => mismatch

instance : DomainType ChainId where
  toStored c := .string c.id
  ofStored
    | .string s => (ChainId.ofText s).mapError ParseError.corrupt
    | _ => mismatch

/-- `()` decodes from any message: prost skips the fields it does not know. -/
instance : DomainType Unit where
  toStored _ := .bytes []
  ofStored _ := .ok ()

/-- A stored configuration is read back with its counts saturated and its durations cut to whole
seconds. -/
theorem Config.ofStored_toStored (c : Config) :
    DomainType.ofStored (DomainType.toStored c) = (.ok c.readBack : Except Fault Config) := by
  change (Config.ofProto c.toProto).mapError ParseError.corrupt = _
  rw [Config.ofProto_toProto]
  rfl

theorem Config.clean_of_readBack {c : Config} (h : c.readBack = c) : Clean c := by
  rw [Clean, ofStored_toStored, h]

theorem Config.readBack_of_clean {c : Config} (h : Clean c) : c.readBack = c := by
  rw [Clean, ofStored_toStored] at h
  exact Except.ok.inj h

theorem OracleVoteValue.clean [Host] [LawfulHost] (v : OracleVoteValue) : Clean v := by
  change (OracleVoteValue.ofProto v.toProto).mapError ParseError.corrupt = _
  rw [OracleVoteValue.ofProto_toProto]
  rfl

theorem Time.clean (t : Time) : Clean t := by
  change (Time.ofProto t.toProto).mapError ParseError.corrupt = _
  rw [Time.ofProto_toProto]
  rfl

theorem toNat_ofNat_of_le {n : ℕ} (h : n ≤ 9223372036854775807) : (UInt64.ofNat n).toNat = n :=
  UInt64.toNat_ofNat_of_lt' (h.trans_lt (by decide))

theorem Height.clean (h : Height) : Clean h := by
  change (Height.ofNat? (UInt64.ofNat h.value).toNat).elim _ Except.ok = _
  rw [toNat_ofNat_of_le h.le, Height.ofNat?, dif_pos h.le]
  rfl

theorem Power.clean (p : Power) : Clean p := by
  change (Power.ofNat? (UInt64.ofNat p.value).toNat).elim _ Except.ok = _
  rw [toNat_ofNat_of_le p.le, Power.ofNat?, dif_pos p.le]
  rfl

theorem Bytes.clean (b : Bytes) : Clean b := rfl

theorem ChainId.clean {c : ChainId} (h : c.id ≠ []) : Clean c := by
  change (ChainId.ofText c.id).mapError ParseError.corrupt = _
  rw [ChainId.ofText, if_neg h]
  rfl

end Felidae
