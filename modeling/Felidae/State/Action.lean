import Felidae.State.Voting

/-!
# Actions

`observe` and `reconfigure`: the checks an action has to pass, and the vote it casts when it does.
The checks only read.
-/

namespace Felidae.State

variable [Host]

def hexText (bytes : Bytes) : String := String.ofList (hexEncode bytes)

/-- `impl Display for AppHash` -/
def appHashText (appHash : AppHash) : String :=
  String.ofList ((hexEncode appHash).map Char.toUpper)

/-- `impl Display for Time` -/
def timeText (time : Time) : String := String.ofList (Host.rfc3339 time)

/-! ## Observations -/

/-- The block whose app hash a blockstamp at `height` commits to. The subtraction saturates and
the result is cut to 32 bits. -/
def previousBlockHeight (height : Height) : Height :=
  ⟨(height.value - 1) % 4294967296, by omega⟩

/-- The checks of `observe` on the oracle and on the blockstamp. -/
def checkBlockstamp (observe : Observe) (s : Store) : Except Fault Unit := do
  let currentConfig ← config s
  bailIf (¬currentConfig.oracles.authorized.any fun o ↦ o.identity = observe.oracle.identity)
    s!"not a current oracle: {hexText observe.oracle.identity}"
  let stamp := observe.observation.blockstamp
  let currentBlockHeight ← blockHeight s
  bailIf (currentBlockHeight.value < stamp.blockHeight.value)
    s!"blockstamp {stamp.blockHeight.value} is in the future"
  let currentTime ← blockTime s
  let blockTime ← timeOfBlock stamp.blockHeight s
  let observationAge ← okOr (currentTime.durationSince blockTime)
    (.reject s!"current time {timeText currentTime} is before block time {timeText blockTime}")
  bailIf (currentConfig.oracles.observationTimeout ≤ observationAge)
    "blockstamp is too old based on observation timeout"
  let recordedAppHash ← previousAppHash (previousBlockHeight stamp.blockHeight) s
  bailIf (recordedAppHash ≠ stamp.appHash)
    (s!"blockstamp app hash {appHashText stamp.appHash} does not match recorded app hash "
      ++ s!"{appHashText recordedAppHash} for block {stamp.blockHeight.value}")

/-- The checks of `observe` on the domain: it must be a strict subdomain of the zone, must exist
to be unenrolled, and must not exceed the limit to be enrolled. -/
def checkSubdomain (observe : Observe) (s : Store) : Except Fault Unit := do
  let subdomain := PrefixOrderDomain.ofDomain observe.observation.domain
  let zone := observe.observation.zone
  let text := String.ofList subdomain.display
  bailIf (subdomain.name = zone.name)
    (s!"observed domain {text} must be a strict subdomain of zone "
      ++ String.ofList zone.name.display)
  bailIf (¬subdomain.name.isSubdomainOf zone.name)
    s!"observed domain {text} is not a subdomain of zone {String.ofList zone.name.display}"
  let registeredDomain ← State.registeredDomain subdomain.name zone.name
  match ← canonicalHash subdomain.toDomain s with
  | some _ => return ()
  | none =>
    let pendingChange ← (← oracleVoting s).pendingForKey subdomain s
    match pendingChange.map OracleVoteValue.hashObserved with
    | some (.hash _) => return ()
    | _ =>
      bailIf (observe.observation.hashObserved = .notFound)
        (s!"cannot vote to delete subdomain {text} which is either unknown or "
          ++ "already queued for deletion")
      match checkSubdomainLimitBeforePendingExact subdomain registeredDomain s with
      | .ok _ => return ()
      | .error (.panic message) => .error (.panic message)
      | .error (.reject message) => .error (.reject
          (s!"cannot register new subdomain {text} under "
            ++ s!"{String.ofList registeredDomain.display}: {message}"))
      | .error (.corrupt message) => .error (.corrupt
          (s!"cannot register new subdomain {text} under "
            ++ s!"{String.ofList registeredDomain.display}: {message}"))

/-- The vote an observation casts at a given time. -/
def observeVote (observe : Observe) (time : Time) : Vote PrefixOrderDomain OracleVoteValue where
  party := hexEncode observe.oracle.identity
  time := time
  key := PrefixOrderDomain.ofDomain observe.observation.domain
  value := ⟨observe.observation.hashObserved, observe.observation.zone⟩

/-- Handle an observation action. -/
def observe (order : IterOrder) (observe : Observe) : Command Unit := do
  Exec.read (checkBlockstamp observe)
  let currentTime ← Exec.read blockTime
  Exec.read (checkSubdomain observe)
  let queue ← Exec.read oracleVoting
  queue.cast order (observeVote observe currentTime)

/-! ## Reconfigurations -/

/-- The checks of `reconfigure`. An empty list of admins lets anybody reconfigure. -/
def checkReconfigure (reconfig : Reconfigure) (s : Store) : Except Fault Unit := do
  let currentConfig ← config s
  bailIf (currentConfig.admins.authorized ≠ [] ∧
      reconfig.admin ∉ currentConfig.admins.authorized)
    s!"not a current admin: {hexText reconfig.admin.identity}"
  let currentTime ← blockTime s
  bailIf (currentTime < reconfig.notBefore)
    (s!"current time {timeText currentTime} is before the not_before bound "
      ++ timeText reconfig.notBefore)
  bailIf (reconfig.notAfter < currentTime)
    (s!"current time {timeText currentTime} is after the not_after bound "
      ++ timeText reconfig.notAfter)
  checkConfig reconfig.config s
  match ← (← adminVoting s).pendingForKey Empty.mk s with
  | none => return ()
  | some pendingConfig =>
    bailIf (reconfig.config.version ≤ pendingConfig.version)
      (s!"newly proposed config version {reconfig.config.version} must be greater "
        ++ s!"than pending version {pendingConfig.version}")

/-- The vote a reconfiguration casts at a given time. -/
def reconfigureVote (reconfig : Reconfigure) (time : Time) : Vote Empty Config where
  party := hexEncode reconfig.admin.identity
  time := time
  key := Empty.mk
  value := reconfig.config

/-- Handle a reconfiguration action. -/
def reconfigure (order : IterOrder) (reconfig : Reconfigure) : Command Unit := do
  Exec.read (checkReconfigure reconfig)
  let currentTime ← Exec.read blockTime
  let queue ← Exec.read adminVoting
  queue.cast order (reconfigureVote reconfig currentTime)

/-- Apply one action of a transaction. -/
def applyAction (order : IterOrder) : Action → Command Unit
  | .reconfigure reconfig => reconfigure order reconfig
  | .observe observe => State.observe order observe

end Felidae.State
