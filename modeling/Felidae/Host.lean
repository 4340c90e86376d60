import Felidae.Foundation.PrefixMap
import Felidae.Proto

/-!
# The functions of other crates

What the state machine calls and does not define: prost's codec of transactions, SHA-256 and
P-256, the parser of domain names, RFC 3339, the ed25519 key parser, the JSON reader of the
genesis state, and the root hash of the key-value store. `Host` collects them as parameters; the
laws the chain relies on are stated separately, in `LawfulHost`, and asked for where they are
used.

The last parameter of the chain's environment is the order in which a `HashMap` happens to be
iterated. It differs between two maps with the same entries, even on one node, so it is not a
field of `Host`: it is passed to every vote that is cast.
-/

namespace Felidae

/-- The verifiable part of the store: prefixed text keys to encoded messages. -/
abbrev Verifiable := PrefixMap Char Proto.Stored

/-- The non-verifiable index: prefixed byte keys to encoded messages. -/
abbrev Nonverifiable := PrefixMap UInt8 Proto.Stored

class Host where
  /-- `proto::Transaction::decode` -/
  decodeTransaction : Bytes → Option Proto.Transaction
  /-- `proto::Transaction::encode_to_vec` -/
  encodeTransaction : Proto.Transaction → Bytes
  /-- `RequestInitChain::encode_to_vec` -/
  encodeInitChain : InitChain → Bytes
  sha256 : Bytes → Bytes
  /-- Whether a public key and a 64-byte signature parse and P-256 ECDSA accepts the signature
  over the message: `ecdsaVerify publicKey message signature`. -/
  ecdsaVerify : Bytes → Bytes → Bytes → Bool
  /-- `FQDN::from_ascii_str` -/
  fqdnFromAsciiStr : Str → Option FQDN
  /-- `FQDN::from_str`, whose errors are known by their text. -/
  fqdnFromStr : Str → Except String FQDN
  /-- `impl Display for Time` -/
  rfc3339 : Time → Str
  /-- `Time::parse_from_rfc3339` -/
  parseRfc3339 : Str → Option Time
  /-- `PublicKey::from_raw_ed25519` -/
  fromRawEd25519 : Bytes → Option PublicKey
  /-- `serde_json::from_slice(app_state_bytes)` and its `config` entry, still as JSON. -/
  parseAppState : Bytes → Except String (Option Bytes)
  /-- `serde_json::from_value::<Config>` -/
  parseConfig : Bytes → Except String Config
  /-- `snapshot.root_hash()` of a committed store. -/
  rootHash : Verifiable → AppHash

/-- What the chain relies on: names and whole-second times survive being written and read back,
and a written time has no slash. -/
class LawfulHost [Host] : Prop where
  fqdnFromAsciiStr_display : ∀ d : FQDN, Host.fqdnFromAsciiStr d.display = some d
  fqdnFromStr_display : ∀ d : FQDN, Host.fqdnFromStr d.display = .ok d
  parseRfc3339_rfc3339 : ∀ s : Second, Host.parseRfc3339 (Host.rfc3339 s.toTime) = some s.toTime
  slash_notMem_rfc3339 : ∀ s : Second, '/' ∉ Host.rfc3339 s.toTime

end Felidae
