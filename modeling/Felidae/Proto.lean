import Felidae.Types

/-!
# Protobuf messages

The messages of `transaction.proto` as prost generates them: `optional` message fields are
options, `repeated` fields lists, a `oneof` an enumeration, and every `bytes` field `Bytes`.

What the store holds under a key is the encoding of one of these messages. A stored value is kept
here as the message itself, since prost decodes what it encoded; the decoders that the source adds
on top of prost, and that can reject, are in `Felidae.Convert`.
-/

namespace Felidae.Proto

structure VotingConfig where
  total : Int64
  quorum : Int64
  timeout : Int64
  delay : Int64
  deriving DecidableEq

structure Admin where
  publicKey : Bytes
  deriving DecidableEq

structure AdminConfig where
  admins : List Admin
  votingConfig : Option VotingConfig
  deriving DecidableEq

structure OracleIdentity where
  publicKey : Bytes
  deriving DecidableEq

structure Oracle where
  publicKey : Option OracleIdentity
  endpoint : Str
  deriving DecidableEq

structure OracleConfig where
  oracles : List Oracle
  votingConfig : Option VotingConfig
  enabled : Bool
  maxEnrolledSubdomains : Int64
  observationTimeout : Int64
  deriving DecidableEq

structure OnionConfig where
  enabled : Bool
  deriving DecidableEq

structure Config where
  adminConfig : Option AdminConfig
  oracleConfig : Option OracleConfig
  onionConfig : Option OnionConfig
  version : Int64
  deriving DecidableEq

structure Signature where
  publicKey : Bytes
  signature : Bytes
  deriving DecidableEq

/-- `Signature::unsigned`: a blank signature for the given public key. -/
def Signature.unsigned (publicKey : Bytes) : Signature := ⟨publicKey, []⟩

structure Timestamp where
  seconds : Int64
  nanos : Int32
  deriving DecidableEq

structure Blockstamp where
  blockHash : Bytes
  blockNumber : Int64
  deriving DecidableEq

structure HashObserved where
  hash : Bytes
  deriving DecidableEq

structure Observation where
  domain : Str
  zone : Str
  hashObserved : Option HashObserved
  blockstamp : Option Blockstamp
  deriving DecidableEq

structure Reconfigure where
  signature : Option Signature
  config : Option Config
  notBefore : Option Timestamp
  notAfter : Option Timestamp
  deriving DecidableEq

structure Observe where
  signature : Option Signature
  observation : Option Observation
  deriving DecidableEq

/-- `action::Action`, the `oneof` of an action. -/
inductive ActionKind where
  | reconfigure (r : Reconfigure)
  | observe (o : Observe)
  deriving DecidableEq

structure Action where
  action : Option ActionKind
  deriving DecidableEq

structure Transaction where
  chainId : Str
  actions : List Action
  deriving DecidableEq

structure OracleVoteValue where
  hashObserved : Option HashObserved
  zone : Str
  deriving DecidableEq

/-- A stored value: the message whose encoding the store holds. Heights and powers are wrapped
integers, byte vectors and texts wrapped as such. -/
inductive Stored where
  | config (m : Config)
  | voteValue (m : OracleVoteValue)
  | timestamp (m : Timestamp)
  | uint64 (n : UInt64)
  | bytes (b : Bytes)
  | string (s : Str)
  deriving DecidableEq

end Felidae.Proto
