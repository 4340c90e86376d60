import Felidae.Debug.CompareState
import Felidae.Properties.Agreement
import Felidae.Properties.AppHashes
import Felidae.Properties.Atomicity
import Felidae.Properties.Authentication
import Felidae.Properties.Authority
import Felidae.Properties.Backing
import Felidae.Properties.Blockstamps
import Felidae.Properties.Built
import Felidae.Properties.CanonicalScans
import Felidae.Properties.Comparison
import Felidae.Properties.Deadlines
import Felidae.Properties.DomainNames
import Felidae.Properties.Dropped
import Felidae.Properties.Endorsements
import Felidae.Properties.Frontend
import Felidae.Properties.Governance
import Felidae.Properties.InitChain
import Felidae.Properties.KeyCodec
import Felidae.Properties.Keys
import Felidae.Properties.Leaves
import Felidae.Properties.LightClient
import Felidae.Properties.Liveness
import Felidae.Properties.OracleSwitch
import Felidae.Properties.Pending
import Felidae.Properties.Persistence
import Felidae.Properties.ProofOfWork
import Felidae.Properties.Proposals
import Felidae.Properties.Published
import Felidae.Properties.Queries
import Felidae.Properties.Refinement
import Felidae.Properties.RegisteredDomain
import Felidae.Properties.Replay
import Felidae.Properties.Revocation
import Felidae.Properties.Signing
import Felidae.Properties.Subdomains
import Felidae.Properties.Submission
import Felidae.Properties.Supersession
import Felidae.Properties.Timers
import Felidae.Properties.Validators
import Felidae.Properties.Versions
import Felidae.Properties.VoteIndex
import Felidae.Properties.Witness
import Felidae.Properties.Zones
