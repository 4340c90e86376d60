import Felidae.Foundation.Wire
import Felidae.Proto

/-!
# The wire format of transactions

`transaction.proto` as layouts: the fields of each message with their numbers and types. The tag of
field `n` is `8 * n`, and two more if its value is preceded by its length. prost writes the fields
in the order of their numbers and leaves out those that have their default value.
-/

namespace Felidae

/-! ## Scalars -/

namespace Code

/-- `int64`, in two's complement. -/
def int64 : Code Int64 :=
  varint.contramap (fun i ↦ i.toBitVec.toNat) fun _ _ h ↦
    Int64.toBitVec_inj.mp (BitVec.eq_of_toNat_eq h)

/-- `int32`, widened to an `int64`. -/
def int32 : Code Int32 :=
  int64.contramap Int32.toInt64 (Function.LeftInverse.injective Int32.toInt32_toInt64)

def bool : Code Bool := varint.contramap Bool.toNat fun a b h ↦ by cases a <;> cases b <;> simp_all

def string : Code Str := bytes.contramap toUtf8 fun _ _ h ↦ toUtf8_injective h

end Code

namespace Field

def int64 (n : UInt8) : Field Int64 := implicit (8 * n) 0 .int64

def int32 (n : UInt8) : Field Int32 := implicit (8 * n) 0 .int32

def bool (n : UInt8) : Field Bool := implicit (8 * n) false .bool

def string (n : UInt8) : Field Str := implicit (8 * n + 2) [] .string

def bytes (n : UInt8) : Field Bytes := implicit (8 * n + 2) [] .bytes

def message {α : Type} (n : UInt8) (L : Layout α) : Field (Option α) :=
  optional (8 * n + 2) (.message L)

def messages {α : Type} (n : UInt8) (L : Layout α) : Field (List α) :=
  repeated (8 * n + 2) (.message L)

end Field

/-! ## Messages

Each layout lists the fields of a message, and then the values they hold. -/

namespace Proto

def Signature.layout : Layout Signature :=
  (Fields.cons (.bytes 1) <| .one (.bytes 2)).layout (by decide)
    (fun m ↦ (m.publicKey, m.signature)) fun a b h ↦ by cases a; cases b; simp_all

def Timestamp.layout : Layout Timestamp :=
  (Fields.cons (.int64 1) <| .one (.int32 2)).layout (by decide)
    (fun m ↦ (m.seconds, m.nanos)) fun a b h ↦ by cases a; cases b; simp_all

def VotingConfig.layout : Layout VotingConfig :=
  (Fields.cons (.int64 1) <| .cons (.int64 2) <| .cons (.int64 3) <| .one (.int64 4)).layout
    (by decide)
    (fun m ↦ (m.total, m.quorum, m.timeout, m.delay)) fun a b h ↦ by cases a; cases b; simp_all

def Admin.layout : Layout Admin :=
  (Fields.one (.bytes 1)).layout (by decide)
    Admin.publicKey fun a b h ↦ by cases a; cases b; simp_all

def AdminConfig.layout : Layout AdminConfig :=
  (Fields.cons (.messages 1 Admin.layout) <| .one (.message 2 VotingConfig.layout)).layout
    (by decide)
    (fun m ↦ (m.admins, m.votingConfig)) fun a b h ↦ by cases a; cases b; simp_all

def OracleIdentity.layout : Layout OracleIdentity :=
  (Fields.one (.bytes 1)).layout (by decide)
    OracleIdentity.publicKey fun a b h ↦ by cases a; cases b; simp_all

def Oracle.layout : Layout Oracle :=
  (Fields.cons (.message 1 OracleIdentity.layout) <| .one (.string 2)).layout (by decide)
    (fun m ↦ (m.publicKey, m.endpoint)) fun a b h ↦ by cases a; cases b; simp_all

def OracleConfig.layout : Layout OracleConfig :=
  (Fields.cons (.messages 1 Oracle.layout) <| .cons (.message 2 VotingConfig.layout) <|
    .cons (.bool 3) <| .cons (.int64 4) <| .one (.int64 5)).layout (by decide)
    (fun m ↦ (m.oracles, m.votingConfig, m.enabled, m.maxEnrolledSubdomains, m.observationTimeout))
    fun a b h ↦ by cases a; cases b; simp_all

def OnionConfig.layout : Layout OnionConfig :=
  (Fields.one (.bool 1)).layout (by decide)
    OnionConfig.enabled fun a b h ↦ by cases a; cases b; simp_all

def Config.layout : Layout Config :=
  (Fields.cons (.message 1 AdminConfig.layout) <| .cons (.message 2 OracleConfig.layout) <|
    .cons (.message 3 OnionConfig.layout) <| .one (.int64 4)).layout (by decide)
    (fun m ↦ (m.adminConfig, m.oracleConfig, m.onionConfig, m.version))
    fun a b h ↦ by cases a; cases b; simp_all

def Blockstamp.layout : Layout Blockstamp :=
  (Fields.cons (.bytes 1) <| .one (.int64 2)).layout (by decide)
    (fun m ↦ (m.blockHash, m.blockNumber)) fun a b h ↦ by cases a; cases b; simp_all

def HashObserved.layout : Layout HashObserved :=
  (Fields.one (.bytes 1)).layout (by decide)
    HashObserved.hash fun a b h ↦ by cases a; cases b; simp_all

def Observation.layout : Layout Observation :=
  (Fields.cons (.string 1) <| .cons (.string 2) <| .cons (.message 3 HashObserved.layout) <|
    .one (.message 4 Blockstamp.layout)).layout (by decide)
    (fun m ↦ (m.domain, m.zone, m.hashObserved, m.blockstamp))
    fun a b h ↦ by cases a; cases b; simp_all

def Reconfigure.layout : Layout Reconfigure :=
  (Fields.cons (.message 1 Signature.layout) <| .cons (.message 2 Config.layout) <|
    .cons (.message 3 Timestamp.layout) <| .one (.message 4 Timestamp.layout)).layout (by decide)
    (fun m ↦ (m.signature, m.config, m.notBefore, m.notAfter))
    fun a b h ↦ by cases a; cases b; simp_all

def Observe.layout : Layout Observe :=
  (Fields.cons (.message 1 Signature.layout) <| .one (.message 2 Observation.layout)).layout
    (by decide)
    (fun m ↦ (m.signature, m.observation)) fun a b h ↦ by cases a; cases b; simp_all

/-- The `oneof` of an action is written as a field for each alternative, at most one of them
present. -/
def Action.layout : Layout Action :=
  (Fields.cons (.message 1 Reconfigure.layout) <| .one (.message 2 Observe.layout)).layout
    (by decide)
    (fun
      | ⟨none⟩ => (none, none)
      | ⟨some (.reconfigure r)⟩ => (some r, none)
      | ⟨some (.observe o)⟩ => (none, some o))
    fun a b h ↦ by rcases a with ⟨_ | _ | _⟩ <;> rcases b with ⟨_ | _ | _⟩ <;> simp_all

def Transaction.layout : Layout Transaction :=
  (Fields.cons (.string 1) <| .one (.messages 2 Action.layout)).layout (by decide)
    (fun m ↦ (m.chainId, m.actions)) fun a b h ↦ by cases a; cases b; simp_all

end Proto

end Felidae
