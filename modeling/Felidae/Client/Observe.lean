import Felidae.Client.Witness
import Felidae.Oracle.Zone
import Felidae.State.Abci

/-!
# Observing a domain

What `oracle observe` and the oracle's API server do: the enrollment is fetched from the domain,
the latest block from the node, and the transaction that witnesses one at the other is sent to the
node. What the key file, the web and the node answer is in the surroundings.
-/

namespace Felidae

/-! ## Surroundings -/

/-- A response of a web server. -/
structure HttpResponse where
  status : ℕ
  text : Except String Str

/-- The header of the latest block, as far as it is read. -/
structure LatestBlock where
  height : Height
  appHash : AppHash
  chainId : Str

/-- `response::broadcast::tx_sync::Response`, as far as it is read. -/
structure BroadcastResponse where
  code : ℕ
  log : String

/-- What an oracle meets: the key file at its path, the web, and a node. -/
structure Surroundings where
  keypath : String
  keyFile : Option Str
  get : Str → Except String HttpResponse
  latestBlock : Except String LatestBlock
  broadcastTxSync : Bytes → Except String BroadcastResponse
  /-- `StatusCode::canonical_reason` -/
  canonicalReason : ℕ → Option String

/-- `Report`, as far as it comes from `witness` or not. -/
inductive Report where
  | text (message : String)
  | witness (e : WitnessError)

/-! ## The observation -/

/-- `trim_matches` of a character -/
def trimMatches (c : Char) (s : Str) : Str := trimEnd c (trimStart c s)

/-- The well-known endpoint of a domain. -/
def enrollmentUrl (domain : FQDN) : Str :=
  "https://".toList ++ trimMatches '.' domain.display ++
    "/.well-known/webcat/enrollment.json".toList

/-- Fetch the enrollment of a domain. Two status codes are treated as "unenrolled"; no other error
results in an observation. -/
def fetchEnrollment (env : Surroundings) (domain : FQDN) : Except Report (Option Str) := do
  let url := enrollmentUrl domain
  let response ← (env.get url).mapError .text
  if 400 ≤ response.status ∧ response.status < 600 then
    if response.status = 404 ∨ response.status = 410 then return none
    else
      let reason := (env.canonicalReason response.status).getD ""
      .error (.text
        (s!"unexpected status code while fetching enrollment from {String.ofList url}: "
          ++ s!"HTTP {response.status} {reason}"))
  else return some (← response.text.mapError .text)

/-- The app hash in the header of the latest block is from the previous block. -/
def lastBlockHeight (latest : LatestBlock) : Except Report ℕ :=
  if 0 < latest.height.value then .ok (latest.height.value - 1)
  else .error (.text "cannot get previous block: chain is at height 0")

section

variable [Host] [P256] [EnrollmentHost]

omit [Host] [EnrollmentHost] in
/-- Load the oracle keypair. -/
def loadKeypair (env : Surroundings) : Except Report KeyPair := do
  let keyhex ← okOrElse env.keyFile (.text s!"could not read oracle keypair at: {env.keypath}")
  let keybytes ← okOrElse (hexDecode (trim keyhex))
    (.text s!"could not decode oracle keypair hex at: {env.keypath}")
  okOrElse (KeyPair.decode keybytes) (.text s!"could not parse oracle keypair at: {env.keypath}")

/-- `observe_domain` up to the broadcast: the transaction that is sent, in hex. -/
def witnessDomain (env : Surroundings) (chain : Option Str) (domain zone : FQDN) :
    Except Report Str := do
  let keypair ← loadKeypair env
  let enrollmentString ← fetchEnrollment env domain
  let block ← env.latestBlock.mapError .text
  let lastBlockAppHash := hexEncode block.appHash
  let lastBlockHeight ← lastBlockHeight block
  let chainId := chain.getD block.chainId
  let pkcs8 ← okOrElse keypair.encode (.text "PKCS#8 ASN.1 error")
  (witness (hexEncode pkcs8) chainId lastBlockAppHash (UInt64.ofNat lastBlockHeight)
    domain.display zone.display (enrollmentString.getD [])).mapError .witness

/-- Perform an observation of a domain and submit it to the chain. -/
def observeDomain (env : Surroundings) (chain : Option Str) (domain zone : FQDN) :
    Except Report Unit := do
  let tx ← witnessDomain env chain domain zone
  let txBytes ← okOrElse (hexDecode tx) (.text "failed to decode transaction hex")
  let broadcastResult ← (env.broadcastTxSync txBytes).mapError .text
  if broadcastResult.code ≠ 0 then
    .error (.text s!"transaction rejected: {broadcastResult.log}")
  else return ()

variable [PublicSuffixList]

/-- `oracle observe`: a zone that is not provided is inferred. -/
def runObserve (env : Surroundings) (chain : Option Str) (domain : FQDN) (zone : Option FQDN) :
    Except Report Unit := do
  let zone ← match zone with
    | some zone => .ok zone
    | none => (inferZone domain).mapError fun e ↦ .text e.text
  observeDomain env chain domain zone

/-- How a report reads, given how the errors of `witness` do. -/
def Report.display (witnessText : WitnessError → String) : Report → String
  | .text message => message
  | .witness e => witnessText e

/-- What `handle_observe` does once the token has been validated. -/
def observeRequested (env : Surroundings) (witnessText : WitnessError → String)
    (chain : Option Str) (domain : Str) : Except Refused ObserveResponse :=
  match Host.fqdnFromStr domain with
  | .error e => .error (400, ⟨false, s!"invalid domain: {e}", none⟩)
  | .ok domain =>
    match inferZone domain with
    | .error e => .error (400,
        ⟨false, s!"failed to infer zone from domain: {e.text}", none⟩)
    | .ok zone =>
      match observeDomain env chain domain zone with
      | .error e => .error (500, ⟨false, s!"observation failed: {e.display witnessText}", none⟩)
      | .ok () => .ok ⟨true, "observation submitted successfully", none⟩

end

end Felidae
