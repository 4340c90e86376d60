import Felidae.Proto.Wire

/-!
# Stored bytes

What the store holds for a value: the encoding of its message. Integers, byte vectors and texts are
wrapped in a message of one field. Two values of one kind have different bytes.
-/

namespace Felidae

def Code.uint64 : Code UInt64 := varint.contramap UInt64.toNat fun _ _ h ↦ UInt64.toNat_inj.mp h

def Field.uint64 (n : UInt8) : Field UInt64 := implicit (8 * n) 0 .uint64

namespace Proto

def OracleVoteValue.layout : Layout OracleVoteValue :=
  (Fields.cons (.message 1 HashObserved.layout) <| .one (.string 2)).layout (by decide)
    (fun m ↦ (m.hashObserved, m.zone)) fun a b h ↦ by cases a; cases b; simp_all

namespace Stored

/-- What values are stored as. -/
inductive Kind where
  | config
  | voteValue
  | timestamp
  | uint64
  | bytes
  | string
  deriving DecidableEq

def kind : Stored → Kind
  | config _ => .config
  | voteValue _ => .voteValue
  | timestamp _ => .timestamp
  | uint64 _ => .uint64
  | bytes _ => .bytes
  | string _ => .string

/-- `encode_to_vec` -/
def encode : Stored → Bytes
  | config m => Config.layout.encode m
  | voteValue m => OracleVoteValue.layout.encode m
  | timestamp m => Timestamp.layout.encode m
  | uint64 n => (Fields.one (.uint64 1)).encode n
  | bytes b => (Fields.one (.bytes 1)).encode b
  | string s => (Fields.one (.string 1)).encode s

theorem eq_of_encode_eq {a b : Stored} (hkind : a.kind = b.kind) (h : a.encode = b.encode) :
    a = b := by
  cases a with
  | config m =>
    cases b with
    | config n => rw [Config.layout.injective h]
    | _ => cases hkind
  | voteValue m =>
    cases b with
    | voteValue n => rw [OracleVoteValue.layout.injective h]
    | _ => cases hkind
  | timestamp m =>
    cases b with
    | timestamp n => rw [Timestamp.layout.injective h]
    | _ => cases hkind
  | uint64 m =>
    cases b with
    | uint64 n => rw [(Fields.one (.uint64 1)).injective (by decide) h]
    | _ => cases hkind
  | bytes m =>
    cases b with
    | bytes n => rw [(Fields.one (.bytes 1)).injective (by decide) h]
    | _ => cases hkind
  | string m =>
    cases b with
    | string n => rw [(Fields.one (.string 1)).injective (by decide) h]
    | _ => cases hkind

end Stored

end Proto

end Felidae
