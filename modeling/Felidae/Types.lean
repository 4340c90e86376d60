import Mathlib.Algebra.Order.BigOperators.Group.List
import Mathlib.Data.Int.Notation
import Mathlib.Data.List.Infix
import Felidae.Foundation.Bytes

/-!
# Domain types

The values the chain stores and exchanges: block times, domain names, the configuration, the
actions a transaction carries, and the failures of the state machine. Fixed-width integers keep
their width; byte arrays of fixed length, block heights and voting powers carry their bound, so
that a value outside the Rust type cannot be written down.
-/

namespace Felidae

/-! ## Failures -/

/-- How a step of the state machine can fail. `reject` and `corrupt` are both a `Report` in the
source: the first is raised by a check on a request, the second by something read back from the
store that is missing or does not decode. `panic` unwinds and is caught by nobody. -/
inductive Fault where
  | reject (message : String)
  | corrupt (message : String)
  | panic (message : String)
  deriving DecidableEq, Repr

/-- `ParseError(type_name, value)`, where the name of a type is its path. -/
structure ParseError where
  typeName : String
  value : String
  deriving DecidableEq, Repr

namespace ParseError

def message (e : ParseError) : String :=
  "Cannot parse invalid " ++ e.typeName ++ ": " ++ e.value

/-- The error of a value that arrived in a transaction. -/
def reject (e : ParseError) : Fault := .reject e.message

/-- The error of a value that was read back from the store. -/
def corrupt (e : ParseError) : Fault := .corrupt e.message

end ParseError

/-! ## Time -/

/-- A `std::time::Duration`, in nanoseconds. -/
abbrev Duration := ℕ

namespace Duration

def ofSecs (secs : ℕ) : Duration := secs * 1000000000

/-- `Duration::as_secs` -/
def asSecs (d : Duration) : ℕ := d / 1000000000

end Duration

/-- The seconds since 1970 that a `tendermint::Time` can hold: the years 1 to 9999. -/
def ValidSecs (secs : ℤ) : Prop := -62135596800 ≤ secs ∧ secs ≤ 253402300799

instance (secs : ℤ) : Decidable (ValidSecs secs) := inferInstanceAs (Decidable (_ ∧ _))

/-- `tendermint::Time` -/
structure Time where
  unixTimestamp : ℤ
  nanos : ℕ
  valid : ValidSecs unixTimestamp
  nanos_lt : nanos < 1000000000
  deriving DecidableEq

/-- A time with no fractional second, as the keys of the vote queues hold it. -/
structure Second where
  secs : ℤ
  valid : ValidSecs secs
  deriving DecidableEq

namespace Time

/-- `Time::from_unix_timestamp` -/
def fromUnixTimestamp (secs : ℤ) (nanos : ℕ) : Option Time :=
  if h : ValidSecs secs ∧ nanos < 1000000000 then some ⟨secs, nanos, h.1, h.2⟩ else none

/-- Nanoseconds since 1970. -/
def total (t : Time) : ℤ := t.unixTimestamp * 1000000000 + t.nanos

instance : LT Time := ⟨fun a b ↦ a.total < b.total⟩

instance : LE Time := ⟨fun a b ↦ a.total ≤ b.total⟩

instance (a b : Time) : Decidable (a < b) := inferInstanceAs (Decidable (a.total < b.total))

instance (a b : Time) : Decidable (a ≤ b) := inferInstanceAs (Decidable (a.total ≤ b.total))

/-- `Time::duration_since`: the error is the negative difference. -/
def durationSince (a b : Time) : Option Duration :=
  if b.total ≤ a.total then some (a.total - b.total).toNat else none

theorem isSome_fromUnixTimestamp (t : Time) : (fromUnixTimestamp t.unixTimestamp 0).isSome := by
  rw [fromUnixTimestamp, dif_pos ⟨t.valid, by decide⟩]
  rfl

/-- `Time::from_unix_timestamp(time.unix_timestamp(), 0).expect("valid timestamp")`. The proof is
why the `expect` cannot fail. -/
def truncate (t : Time) : Time := (fromUnixTimestamp t.unixTimestamp 0).get
  t.isSome_fromUnixTimestamp

/-- The whole second a time lies in. -/
def second (t : Time) : Second := ⟨t.unixTimestamp, t.valid⟩

end Time

namespace Second

def toTime (s : Second) : Time := ⟨s.secs, 0, s.valid, by decide⟩

@[simp] theorem second_toTime (s : Second) : s.toTime.second = s := rfl

theorem toTime_injective : Function.Injective toTime := fun a b h ↦ by
  rw [← second_toTime a, h, second_toTime]

@[simp] theorem fromUnixTimestamp (s : Second) : Time.fromUnixTimestamp s.secs 0 = some s.toTime :=
  dif_pos ⟨s.valid, by decide⟩

theorem i64FromBeBytes_toBeBytes_secs (t : Second) :
    i64FromBeBytes (i64ToBeBytes t.secs) = t.secs := by
  obtain ⟨hlo, hhi⟩ := t.valid
  exact i64FromBeBytes_toBeBytes (by omega) (by omega)

theorem secs_injective {t t' : Second} (h : i64ToBeBytes t.secs = i64ToBeBytes t'.secs) :
    t = t' := by
  have := congrArg i64FromBeBytes h
  rw [i64FromBeBytes_toBeBytes_secs, i64FromBeBytes_toBeBytes_secs] at this
  cases t
  cases t'
  simpa using this

end Second

@[simp] theorem Time.truncate_eq (t : Time) : t.truncate = t.second.toTime := by
  have h := t.second.fromUnixTimestamp
  exact Option.get_of_eq_some _ h

/-- The age of a vote or pending change made in second `s`, as the expiry and promotion filters
compute it: `now.duration_since(time).unwrap_or_default()`. -/
def Time.ageOf (now : Time) (s : Time) : Duration := (now.durationSince s).getD 0

/-! ## Bounded values -/

/-- `tendermint::block::Height` -/
@[ext] structure Height where
  value : ℕ
  le : value ≤ 9223372036854775807
  deriving DecidableEq

/-- `Height::from(0)` -/
def Height.zero : Height := ⟨0, by decide⟩

/-- `Height::try_from` -/
def Height.ofNat? (n : ℕ) : Option Height := if h : n ≤ 9223372036854775807 then some ⟨n, h⟩ else
  none

/-- `tendermint::vote::Power` -/
structure Power where
  value : ℕ
  le : value ≤ 9223372036854775807
  deriving DecidableEq

def Power.ofNat? (n : ℕ) : Option Power := if h : n ≤ 9223372036854775807 then some ⟨n, h⟩ else none

/-- `[u8; 32]` -/
structure Hash32 where
  bytes : Bytes
  length_eq : bytes.length = 32
  deriving DecidableEq

/-- `tendermint::AppHash`, a byte vector. -/
abbrev AppHash := Bytes

/-! ## Domain names -/

/-- A letter, a digit or a hyphen. -/
def isLabelChar (c : Char) : Bool := c.isAlphanum || c = '-'

/-- A label of a domain name under `fqdn`'s strict-rfc feature: up to 63 letters, digits and
hyphens, with no hyphen at either end. -/
structure Label where
  text : Str
  ne_nil : text ≠ []
  length_le : text.length ≤ 63
  chars : ∀ c ∈ text, isLabelChar c
  head_ne : text.head? ≠ some '-'
  last_ne : text.getLast? ≠ some '-'
  deriving DecidableEq

namespace Label

theorem notMem_text (l : Label) {c : Char} (hc : isLabelChar c = false) : c ∉ l.text := by
  intro hmem
  rw [l.chars c hmem] at hc
  cases hc

theorem dot_notMem (l : Label) : '.' ∉ l.text := l.notMem_text (by decide)

theorem slash_notMem (l : Label) : '/' ∉ l.text := l.notMem_text (by decide)

theorem ext_text {l l' : Label} (h : l.text = l'.text) : l = l' := by
  cases l
  cases l'
  cases h
  rfl

end Label

/-- The bytes that labels take in a name: each is preceded by its length. -/
def wireLength (labels : List Label) : ℕ := (labels.map fun l ↦ l.text.length + 1).sum

theorem wireLength_drop_le (labels : List Label) (n : ℕ) :
    wireLength (labels.drop n) ≤ wireLength labels :=
  ((List.drop_sublist n labels).map _).sum_le_sum fun _ _ ↦ Nat.zero_le _

/-- `fqdn::FQDN`: the labels from the leftmost to the top-level one; the root has none. A name takes
at most 255 bytes, the last of which is the root's. -/
structure FQDN where
  labels : List Label
  length_le : wireLength labels ≤ 254
  deriving DecidableEq

namespace FQDN

theorem ext_labels {a b : FQDN} (h : a.labels = b.labels) : a = b := by
  cases a
  cases b
  cases h
  rfl

def root : FQDN := ⟨[], by decide⟩

/-- The labels of a name, if they are not too long for one. -/
def ofLabels (labels : List Label) : Option FQDN :=
  if h : wireLength labels ≤ 254 then some ⟨labels, h⟩ else none

/-- The name without its first `n` labels. -/
def drop (d : FQDN) (n : ℕ) : FQDN :=
  ⟨d.labels.drop n, (wireLength_drop_le d.labels n).trans d.length_le⟩

/-- `Fqdn::depth`: the number of labels. -/
def depth (d : FQDN) : ℕ := d.labels.length

/-- `Fqdn::is_subdomain_of`, which also holds of the name itself. -/
def isSubdomainOf (d parent : FQDN) : Prop := parent.labels <:+ d.labels

instance (d parent : FQDN) : Decidable (d.isSubdomainOf parent) :=
  inferInstanceAs (Decidable (parent.labels <:+ d.labels))

/-- `Fqdn::hierarchy`: the name and its ancestors from the name upwards, down to one label. -/
def hierarchy (d : FQDN) : List FQDN := (List.range d.depth).map d.drop

/-- `impl Display for FQDN`: every label followed by a dot, and a lone dot for the root. -/
def display (d : FQDN) : Str :=
  match d.labels with
  | [] => ['.']
  | _ => d.labels.flatMap fun l ↦ l.text ++ ['.']

end FQDN

structure Domain where
  name : FQDN
  deriving DecidableEq

structure Zone where
  name : FQDN
  deriving DecidableEq

/-- A domain name whose text form lists the labels from the top-level one. -/
structure PrefixOrderDomain where
  name : FQDN
  deriving DecidableEq

namespace PrefixOrderDomain

def ofDomain (d : Domain) : PrefixOrderDomain := ⟨d.name⟩

def toDomain (d : PrefixOrderDomain) : Domain := ⟨d.name⟩

/-- `impl Display for PrefixOrderDomain` -/
def display (d : PrefixOrderDomain) : Str :=
  '.' :: List.intercalate ['.'] (d.name.labels.map Label.text).reverse

end PrefixOrderDomain

/-- A unit type that serializes as an empty string: the one key of the admin queue. -/
inductive Empty where
  | mk
  deriving DecidableEq

instance : Subsingleton Empty := ⟨fun ⟨⟩ ⟨⟩ ↦ rfl⟩

/-! ## Configuration -/

structure VotingConfig where
  total : UInt64
  quorum : UInt64
  timeout : Duration
  delay : Duration
  deriving DecidableEq

structure Admin where
  identity : Bytes
  deriving DecidableEq

structure AdminConfig where
  voting : VotingConfig
  authorized : List Admin
  deriving DecidableEq

structure Oracle where
  identity : Bytes
  endpoint : Str
  deriving DecidableEq

structure OracleConfig where
  enabled : Bool
  voting : VotingConfig
  maxEnrolledSubdomains : UInt64
  observationTimeout : Duration
  authorized : List Oracle
  deriving DecidableEq

structure OnionConfig where
  enabled : Bool
  deriving DecidableEq

structure Config where
  version : UInt32
  admins : AdminConfig
  oracles : OracleConfig
  onion : OnionConfig
  deriving DecidableEq

/-! ## Transactions -/

structure ChainId where
  id : Str
  deriving DecidableEq

inductive HashObserved where
  | hash (hash : Hash32)
  | notFound
  deriving DecidableEq

structure OracleVoteValue where
  hashObserved : HashObserved
  zone : Zone
  deriving DecidableEq

structure Blockstamp where
  blockHeight : Height
  appHash : AppHash
  deriving DecidableEq

structure OracleIdentity where
  identity : Bytes
  deriving DecidableEq

structure Observation where
  domain : Domain
  zone : Zone
  blockstamp : Blockstamp
  hashObserved : HashObserved
  deriving DecidableEq

structure Observe where
  observation : Observation
  oracle : OracleIdentity
  deriving DecidableEq

structure Reconfigure where
  config : Config
  notBefore : Time
  notAfter : Time
  admin : Admin
  deriving DecidableEq

inductive Action where
  | reconfigure (r : Reconfigure)
  | observe (o : Observe)
  deriving DecidableEq

structure Transaction where
  chainId : ChainId
  actions : List Action
  deriving DecidableEq

/-! ## Consensus requests -/

/-- `tendermint::PublicKey` -/
inductive PublicKey where
  | ed25519 (bytes : Bytes)
  | secp256k1 (bytes : Bytes)
  deriving DecidableEq

namespace PublicKey

def toBytes : PublicKey → Bytes
  | ed25519 b => b
  | secp256k1 b => b

end PublicKey

/-- `tendermint::validator::Update` -/
structure Update where
  pubKey : PublicKey
  power : Power
  deriving DecidableEq

/-- `request::InitChain`; the consensus parameters are only passed through. -/
structure InitChain where
  time : Time
  chainId : Str
  consensusParams : Bytes
  validators : List Update
  appStateBytes : Bytes
  initialHeight : Height
  deriving DecidableEq

/-- How a validator's signature stands in the last commit. -/
inductive BlockSignatureInfo where
  | absent
  | commit
  | nil
  | legacySigned
  deriving DecidableEq

structure VoteInfo where
  address : Bytes
  sigInfo : BlockSignatureInfo
  deriving DecidableEq

/-- The part of `request::FinalizeBlock` the handler reads; the other fields it discards. -/
structure FinalizeBlock where
  txs : List Bytes
  votes : List VoteInfo
  misbehavior : List Bytes
  height : Height
  time : Time
  deriving DecidableEq

end Felidae
