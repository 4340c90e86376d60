import Felidae.Chain.QueueRun
import Felidae.Properties.ProofOfWork
import Felidae.Properties.Revocation
import Felidae.Properties.Witness
import Felidae.Properties.Zones

/-!
# Submissions

What becomes of the transactions that the clients hand out. A transaction of one action is applied
if it is for the chain and the action is permitted, and fails if not. For an observation made at
the latest block this means that the oracle is authorized, the block still recent and the domain
observable. The server submits an observation for a token of that very domain, under the zone that
is inferred for it, and in no other case.
-/

open Classical

namespace Felidae

section Delivery

variable [Host] [LawfulHost] {s : Store} {L : Ledger} {buf : Bytes}

/-- A transaction of one action is applied exactly if it is for the chain and the action is
permitted, and then the action's vote is cast. -/
theorem Represents.deliverTx_one (h : Represents s L) (hL : L.Sound) {height : Height} {now : Time}
    (hheight : L.height = some height) (htime : L.time = some now) {id : ChainId} {a : Action}
    (hreadable : a.Readable) (hauth : AuthenticatedTx.fromProto buf = .ok ⟨⟨id, [a]⟩⟩)
    (orders : ℕ → IterOrder) :
    ((∃ t, State.deliverTx orders buf s = (.ok (), t)) ↔
      State.chainId s = .ok id ∧ L.Permits now a) ∧
    ∀ t, State.deliverTx orders buf s = (.ok (), t) → ∃ L', Represents t L' ∧ L.Casts now a L' := by
  have hcheck : State.checkTransaction ⟨⟨id, [a]⟩⟩ s = .ok () ↔ State.chainId s = .ok id := by
    rw [State.checkTransaction, except_bind_eq_ok]
    simp only [except_bind_eq_ok, (decides_bailIf _ _).iff]
    simp [eq_comm]
  have hok : ∀ t, State.deliverTx orders buf s = (.ok (), t) ↔
      State.chainId s = .ok id ∧ State.applyAction (orders 0) a s = (.ok (), t) := by
    intro t
    have hdeliver : State.deliverTx orders buf s
        = State.deliverAuthenticatedTx orders ⟨⟨id, [a]⟩⟩ s :=
      Exec.read_bind_of_ok (by rw [hauth]; rfl)
    rw [hdeliver, ← hcheck]
    constructor
    · intro hrun
      obtain ⟨_, _, hread, hrun⟩ := Exec.bind_eq_ok.mp hrun
      obtain ⟨hchecked, rfl⟩ := Prod.mk.inj hread
      obtain ⟨_, _, happly, hrun⟩ := Exec.bind_eq_ok.mp hrun
      obtain ⟨-, rfl⟩ := Prod.mk.inj hrun
      exact ⟨hchecked, happly⟩
    · rintro ⟨hchecked, happly⟩
      rw [State.deliverAuthenticatedTx, Exec.read_bind_of_ok hchecked]
      exact Exec.bind_of_ok happly
  simp only [hok]
  rcases h.applyAction hL hheight htime (orders 0) hreadable with
    ⟨hpermits, t, L', happly, ht, hcasts⟩ | ⟨hpermits, e, -, herr⟩
  · refine ⟨⟨?_, ?_⟩, ?_⟩
    · rintro ⟨_, hid, _⟩
      exact ⟨hid, hpermits⟩
    · rintro ⟨hid, -⟩
      exact ⟨t, hid, happly⟩
    · rintro t' ⟨_, happly'⟩
      refine ⟨L', ?_, hcasts⟩
      rwa [(Prod.mk.inj (happly'.symm.trans happly)).2]
  · have hfails : ∀ t, State.applyAction (orders 0) a s ≠ (.ok (), t) := fun t happly ↦ by
      cases (Prod.mk.inj (happly.symm.trans herr)).1
    refine ⟨⟨?_, fun hboth ↦ absurd hboth.2 hpermits⟩, fun t hboth ↦ absurd hboth.2 (hfails t)⟩
    rintro ⟨t, -, happly⟩
    exact absurd happly (hfails t)

end Delivery

/-! ## At a block -/

section AtBlock

variable [Host] [LawfulHost] {genesis : InitChain} {older : List Block} {request : FinalizeBlock}
  {s : Store} {c : Config}

omit [LawfulHost] in
/-- A block is in time after blocks that are not later. -/
theorem Applied.inTime (h : Applied genesis older s)
    (hle : ∀ block ∈ older, block.request.time ≤ request.time) : State.InTime request s := by
  intro time htime
  cases h with
  | start hinit =>
    rw [State.blockTime_congr ((spared_initChain (by decide) (by decide) (by decide)
      genesis).eq hinit)] at htime
    cases htime
  | @block older _ _ block happlied hheight hfinalize =>
    have hsees := (Applied.block happlied hheight hfinalize).recordsTimes.2 block older rfl
    obtain rfl := Except.ok.inj (hsees.time.symm.trans htime)
    exact hle block List.mem_cons_self

/-- Requests whose times do not decrease, the last one first. -/
def Timely (requests : List FinalizeBlock) : Prop := requests.Pairwise fun r r' ↦ r'.time ≤ r.time

omit [LawfulHost] in
/-- Blocks whose times do not decrease are blocks of a run. -/
theorem Applied.exists_run (h : Applied genesis older s)
    (htimes : Timely (older.map Block.request)) :
    ∃ ms, Run genesis (older.map Block.request) ms s := by
  induction h with
  | start hinit => exact ⟨[], .start hinit⟩
  | block happlied hheight hfinalize ih =>
    obtain ⟨hfirst, htimes⟩ := List.pairwise_cons.mp htimes
    obtain ⟨ms, hrun⟩ := ih htimes
    exact ⟨_, .block _ hrun (happlied.inTime fun b hb ↦ hfirst _ (List.mem_map_of_mem hb))
      hfinalize⟩

/-- At a block of a chain whose times do not decrease, the store represents a ledger. -/
theorem AtBlock.exists_represents (h : AtBlock genesis request older s)
    (htimes : Timely (request :: older.map Block.request)) :
    ∃ L, Represents s L ∧ L.Sound ∧ L.height = some request.height ∧
      L.time = some request.time := by
  -- the block at hand is a block of a run too, so the run passes through the store
  have hvisited : ∃ L, Represents s L ∧ L.Sound := by
    cases h with
    | @during older block s t m happlied hheight hfinalize hm hevent =>
      obtain ⟨hfirst, hrest⟩ := List.pairwise_cons.mp htimes
      obtain ⟨ms, hrun⟩ := happlied.exists_run hrest
      have hrun' := hrun.block block.orders
        (happlied.inTime fun b hb ↦ hfirst _ (List.mem_map_of_mem hb)) hfinalize
      exact hrun'.exists_represents (.inr ⟨m, List.mem_append_left _ hm, .inl rfl⟩)
    | @after older block s happlied =>
      obtain ⟨ms, hrun⟩ := happlied.exists_run htimes
      exact hrun.exists_represents (.inl rfl)
  obtain ⟨L, hs, hL⟩ := hvisited
  refine ⟨L, hs, hL, ?_, hs.blockTime_eq_ok.mp h.sees.time⟩
  have hheight := h.sees.height
  rw [hs.blockHeight] at hheight
  rcases hL : L.height with _ | height <;> rw [hL] at hheight
  · cases hheight
  · rw [Except.ok.inj hheight]

omit [LawfulHost] in
/-- A blockstamp made of the header after a block passes at a block exactly if the former is recent
enough. -/
theorem AtBlock.stamped_iff (h : AtBlock genesis request older s) {L : Ledger} (hs : Represents s L)
    (hheight : L.height = some request.height) (htime : L.time = some request.time)
    {block : Block} (hblock : block ∈ older)
    (hlooks : LooksUp request older L.config.oracles.observationTimeout block.request.height)
    {header : Header} (hfollows : header.Follows block) {o : Observe}
    (hstamp : header.blockstamp = some o.observation.blockstamp)
    (hauthorized : ∃ x ∈ L.config.oracles.authorized, x.identity = o.oracle.identity) :
    L.Stamped request.time o.observation.blockstamp ↔
      Recent request older L.config.oracles.observationTimeout block.request.height := by
  have hcheck := hs.checkBlockstamp hheight htime o
  rw [and_iff_right hauthorized] at hcheck
  obtain ⟨hheights, hlast⟩ := h.heights
  have holder : ∀ block ∈ older,
      1 ≤ block.request.height.value ∧ block.request.height.value ≤ older.length :=
    fun block hblock ↦ (hheights _).mp ⟨block, hblock, rfl⟩
  have hread := h.sees.checkBlockstamp hs.config hauthorized (fun block hblock ↦ by
    have := holder block hblock
    omega) o.observation.blockstamp
  rw [Header.blockstamp, hfollows.height, if_pos (Nat.succ_pos _), Option.some_inj] at hstamp
  have hblockHeight : o.observation.blockstamp.blockHeight = block.request.height := by
    refine Height.ext ?_
    rw [← hstamp]
    change header.height.value - 1 = _
    rw [hfollows.height, Nat.add_sub_cancel]
  have happHash : o.observation.blockstamp.appHash = block.response.appHash := by
    rw [← hstamp]
    exact hfollows.appHash
  rw [hblockHeight, happHash] at hread
  rw [← hcheck.iff]
  refine Iff.trans hread (and_iff_left_of_imp fun hrecent ↦ ?_)
  -- the app hash that is looked up is that of the block, since its height is looked up as it is
  have hbound := holder block hblock
  exact (h.sees.previousAppHash_eq_ok hheights ⟨hbound.1, by omega⟩ hrecent hlooks _).mpr
    ⟨block, hblock, rfl, rfl⟩

variable [P256]

/-- An observation made at the header after an older block, delivered at a block of the chain, is
applied exactly if it is for the chain, the oracle is authorized, the older block is still recent
and the domain may be observed; and then the oracle's vote is cast. -/
theorem AtBlock.accepts_witnessing (h : AtBlock genesis request older s)
    (htimes : Timely (request :: older.map Block.request)) (hconfig : State.config s = .ok c)
    {block : Block} (hblock : block ∈ older)
    (hlooks : LooksUp request older c.oracles.observationTimeout block.request.height)
    {header : Header} (hfollows : header.Follows block) {k : KeyPair} {o : Observation}
    (hstamp : header.blockstamp = some o.blockstamp) {id : Str} {buf : Bytes}
    (hauth : AuthenticatedTx.fromProto buf = .ok ⟨witnessing id k o⟩) :
    ∃ L, Represents s L ∧ ∀ orders,
      ((∃ t, State.deliverTx orders buf s = (.ok (), t)) ↔
        State.chainId s = .ok ⟨id⟩ ∧ c.Authorizes .oracle k.publicKey ∧
          Recent request older c.oracles.observationTimeout block.request.height ∧
          L.Observable (.ofDomain o.domain) o.zone.name o.hashObserved) ∧
      ∀ t, State.deliverTx orders buf s = (.ok (), t) → ∃ L', Represents t L' ∧
        L.Cast .oracle (.ofDomain o.domain) k.publicKey request.time.second
          ⟨o.hashObserved, o.zone⟩ L' := by
  obtain ⟨L, hs, hL, hheight, htime⟩ := h.exists_represents htimes
  obtain rfl := Except.ok.inj (hs.config.symm.trans hconfig)
  refine ⟨L, hs, fun orders ↦ ?_⟩
  have hpermits : L.Permits request.time (.observe ⟨o, ⟨k.publicKey⟩⟩) ↔
      L.config.Authorizes .oracle k.publicKey ∧
        Recent request older L.config.oracles.observationTimeout block.request.height ∧
        L.Observable (.ofDomain o.domain) o.zone.name o.hashObserved := by
    have hauthorizes : (∃ x ∈ L.config.oracles.authorized, x.identity = k.publicKey) ↔
        L.config.Authorizes .oracle k.publicKey := List.mem_map.symm
    rw [← hauthorizes]
    exact and_congr_right fun hauthorized ↦ and_congr_left' (h.stamped_iff hs hheight htime hblock
      hlooks hfollows (o := ⟨o, ⟨k.publicKey⟩⟩) hstamp hauthorized)
  obtain ⟨hiff, hcast⟩ := hs.deliverTx_one hL hheight htime
    (a := .observe ⟨o, ⟨k.publicKey⟩⟩) trivial hauth orders
  exact ⟨hiff.trans (and_congr_right fun _ ↦ hpermits), hcast⟩

variable [EnrollmentHost] [LawfulP256] {env : Surroundings} {chain : Option Str} {d z : FQDN}

/-- The transaction that `observe_domain` makes at the latest header of a chain is applied at a
later block exactly if it is for the chain, the oracle is authorized, the block before the header
is still recent and the domain may be observed; and then the oracle's vote is cast, for the hash
that was observed. That is so as long as the chain looks the app hash of that block up under its own
height, as it does up to 2³². -/
theorem AtBlock.accepts_witnessDomain (h : AtBlock genesis request older s)
    (htimes : Timely (request :: older.map Block.request)) (hconfig : State.config s = .ok c)
    {block : Block} (hblock : block ∈ older)
    (hlooks : LooksUp request older c.oracles.observationTimeout block.request.height)
    {latest : LatestBlock} (hlatest : env.latestBlock = .ok latest)
    (hfollows : latest.header.Follows block)
    (hreliable : ∀ k o, Witnessed env d z k latest o →
      k.Reliable (witnessing (chain.getD latest.chainId) k o))
    {tx : Str} (htx : witnessDomain env chain d z = .ok tx) :
    ∃ k o buf L, Witnessed env d z k latest o ∧ hexDecode tx = some buf ∧ Represents s L ∧
      ∀ orders,
        ((∃ t, State.deliverTx orders buf s = (.ok (), t)) ↔
          State.chainId s = .ok ⟨chain.getD latest.chainId⟩ ∧ c.Authorizes .oracle k.publicKey ∧
            Recent request older c.oracles.observationTimeout block.request.height ∧
            L.Observable ⟨d⟩ z o.hashObserved) ∧
        ∀ t, State.deliverTx orders buf s = (.ok (), t) → ∃ L', Represents t L' ∧
          L.Cast .oracle ⟨d⟩ k.publicKey request.time.second ⟨o.hashObserved, ⟨z⟩⟩ L' := by
  obtain ⟨k, latest', o, hw, buf, hsign, -, rfl⟩ := witnessDomain_eq_ok.mp htx
  obtain rfl := Except.ok.inj (hw.header.symm.trans hlatest)
  obtain ⟨buf', hsign', hauth⟩ := (hreliable k o hw).signs fun a ha ↦ by
    rw [List.mem_singleton.mp ha]
    rfl
  obtain rfl := Except.ok.inj (hsign.symm.trans hsign')
  obtain ⟨L, hs, hall⟩ := h.accepts_witnessing htimes hconfig hblock hlooks hfollows hw.blockstamp
    hauth
  rw [hw.domain, hw.zone] at hall
  exact ⟨k, o, buf, L, hw, hexDecode_hexEncode buf, hs, hall⟩

end AtBlock

/-! ## The server -/

section Server

variable [Host] [LawfulHost] [P256] [LawfulP256] [EnrollmentHost] {env : Surroundings}
  {chain : Option Str}

/-- The node has accepted the transaction of one observation. -/
structure Submits (env : Surroundings) (chain : Option Str) (d z : FQDN) : Prop where
  accepted : ∃ k latest o buf response, Witnessed env d z k latest o ∧
    AuthenticatedTx.fromProto buf = .ok ⟨witnessing (chain.getD latest.chainId) k o⟩ ∧
    (witnessing (chain.getD latest.chainId) k o).signToProto k.signWith = .ok buf ∧
    env.broadcastTxSync buf = .ok response ∧ response.code = 0

/-- The transactions an oracle signs are decoded as they were encoded, with genuine signatures. -/
def Surroundings.Reliable (env : Surroundings) (chain : Option Str) (d z : FQDN) : Prop :=
  ∀ k latest o, Witnessed env d z k latest o →
    k.Reliable (witnessing (chain.getD latest.chainId) k o)

theorem observeDomain_eq_ok {d z : FQDN} (hreliable : env.Reliable chain d z) :
    observeDomain env chain d z = .ok () ↔ Submits env chain d z := by
  have hcode : ∀ response : BroadcastResponse, (if response.code ≠ 0 then
      (.error (.text s!"transaction rejected: {response.log}") : Except Report Unit)
      else return ()) = .ok () ↔ response.code = 0 := by
    intro response
    split_ifs with hcode
    · exact iff_of_false (fun h ↦ by cases h) hcode
    · exact iff_of_true rfl (not_not.mp hcode)
  simp only [observeDomain, except_bind_eq_ok, witnessDomain_eq_ok, okOrElse_eq_ok, mapError_eq_ok,
    hcode]
  constructor
  · rintro ⟨tx, ⟨k, latest, o, hw, buf, hsign, -, rfl⟩, buf', hbuf, response, hsend, hzero⟩
    -- what is broadcast is decoded from the digits again
    obtain rfl := Option.some.inj ((hexDecode_hexEncode buf).symm.trans hbuf)
    obtain ⟨buf', hsign', hauth⟩ := (hreliable k latest o hw).signs fun a ha ↦ by
      rw [List.mem_singleton.mp ha]
      rfl
    obtain rfl := Except.ok.inj (hsign.symm.trans hsign')
    exact ⟨k, latest, o, buf, response, hw, hauth, hsign, hsend, hzero⟩
  · rintro ⟨k, latest, o, buf, response, hw, hauth, hsign, hsend, hzero⟩
    exact ⟨_, ⟨k, latest, o, hw, buf, hsign, ⟨_, hauth⟩, rfl⟩, buf, hexDecode_hexEncode buf,
      response, hsend, hzero⟩

variable [PublicSuffixList]

/-- The server answers a request with success exactly if the token is fresh, for the domain of the
request, and has enough work in it, and if the node accepts the transaction that witnesses what is
observed of the domain then, in the zone that is inferred for it. -/
theorem handleObserve_submits {state : AppState} {now : ℕ} {req : ObserveRequest}
    {witnessText : WitnessError → String} {response : ObserveResponse}
    (hreliable : ∀ d z, Host.fqdnFromStr req.domain = .ok d → inferZone d = .ok z →
      env.Reliable chain d z) :
    handleObserve state now (observeRequested env witnessText chain) req = .ok (.ok response) ↔
      (generatePowChallenge (normalizeDomain req.domain) req.powToken.timestamp state.powSecret
          = req.powToken.challenge ∧
        absDiff now req.powToken.timestamp ≤ 5 * 60 ∧
        state.powDifficulty
          ≤ countLeadingZeros (powHash req.powToken.challenge req.powToken.nonce) ∧
        countLeadingZeros (powHash req.powToken.challenge req.powToken.nonce) < 256) ∧
      (∃ d z, Host.fqdnFromStr req.domain = .ok d ∧ inferZone d = .ok z ∧ Submits env chain d z) ∧
      response = ⟨true, "observation submitted successfully", none⟩ := by
  -- after the token, all that is left is to observe the domain in the zone inferred for it
  have hrequested : observeRequested env witnessText chain req.domain = .ok response ↔
      (∃ d z, Host.fqdnFromStr req.domain = .ok d ∧ inferZone d = .ok z ∧ Submits env chain d z) ∧
        response = ⟨true, "observation submitted successfully", none⟩ := by
    rw [observeRequested]
    rcases hdomain : Host.fqdnFromStr req.domain with _ | d
    · exact iff_of_false (fun h ↦ by cases h) fun ⟨⟨_, _, h, _⟩, _⟩ ↦ by cases h
    rcases hzone : inferZone d with e | z
    · refine iff_of_false (fun h ↦ ?_) ?_
      · simp only [hzone] at h
        cases h
      · rintro ⟨⟨d', z, hd, hz, -⟩, -⟩
        rw [← Except.ok.inj hd, hzone] at hz
        cases hz
    have hsubmits := observeDomain_eq_ok (hreliable d z hdomain hzone)
    have hone : (∃ d' z', (.ok d : Except String FQDN) = .ok d' ∧ inferZone d' = .ok z' ∧
        Submits env chain d' z') ↔
        Submits env chain d z := by
      constructor
      · rintro ⟨d', z', hd, hz, h⟩
        obtain rfl := Except.ok.inj hd
        rwa [Except.ok.inj (hzone.symm.trans hz)]
      · exact fun h ↦ ⟨d, z, rfl, hzone, h⟩
    rw [hone, ← hsubmits]
    simp only [hzone]
    rcases hobserve : observeDomain env chain d z with e | ⟨⟩
    · exact iff_of_false (fun h ↦ by cases h) fun h ↦ by cases h.1
    · rw [Except.ok.injEq, eq_comm]
      exact (and_iff_right rfl).symm
  rw [← hrequested, ← validatePowToken_eq_true, handleObserve]
  rcases hvalid : validatePowToken now req.powToken (normalizeDomain req.domain) state.powSecret
    state.powDifficulty with e | _ | _
  · exact iff_of_false (fun h ↦ by cases h) fun h ↦ by cases h.1
  · exact iff_of_false (fun h ↦ by cases h) fun h ↦ by cases h.1
  · rw [and_iff_right rfl]
    exact ⟨fun h ↦ Except.ok.inj h, fun h ↦ congrArg Except.ok h⟩

end Server

namespace Client

open Reference (genesis listed blockAt nameOf)

theorem reliable_witnessed {k : KeyPair} {latest : LatestBlock} {o : Observation}
    (h : Witnessed surroundings (nameOf "www.example.com.") (nameOf "example.com.") k latest o) :
    k.Reliable (witnessing ((none : Option Str).getD latest.chainId) k o) := by
  obtain ⟨hchain, rfl⟩ := witnessed_observation h
  rw [Option.getD_none, hchain]
  exact reliable_observing

/-- The chain is founded in the first block, and the second one is empty. -/
theorem exists_atBlock : ∃ block s c, AtBlock genesis (blockAt 2 20 []) [block] s ∧
    State.config s = .ok c ∧ block.request = blockAt 1 10 [found] ∧
    block.response.appHash = Reference.bytesOf 32 6 := by
  have htest : (Applied.exec genesis listed [blockAt 2 20 [], blockAt 1 10 [found]]).any
      (fun r ↦ (State.config r.2).toOption.isSome &&
        decide (r.1[1]?.map (fun block ↦ block.response.appHash)
          = some (Reference.bytesOf 32 6))) = true := by decide +kernel
  obtain ⟨⟨blocks, s⟩, hexec, htest⟩ := (Option.any_eq_true ..).mp htest
  obtain ⟨hconfig, happHash⟩ := Bool.and_eq_true_iff.mp htest
  obtain ⟨happlied, hrequests⟩ := Applied.of_exec hexec
  rcases hc : State.config s with e | c <;> rw [hc] at hconfig
  · cases hconfig
  · obtain ⟨latest, older, rfl, hlatest, holder⟩ := List.map_eq_cons_iff.mp hrequests
    obtain ⟨block, rest, rfl, hblock, hrest⟩ := List.map_eq_cons_iff.mp holder
    obtain rfl := List.map_eq_nil_iff.mp hrest
    exact ⟨block, s, c, hlatest ▸ .after happlied, hc, hblock,
      Option.some.inj (of_decide_eq_true happHash)⟩

theorem accepts_witnessDomain_observed : ∃ block s c, AtBlock genesis (blockAt 2 20 []) [block] s ∧
    State.config s = .ok c ∧ ∃ k o buf L,
      Witnessed surroundings (nameOf "www.example.com.") (nameOf "example.com.") k
        ⟨secondHeight, Reference.bytesOf 32 6, "felidae".toList⟩ o ∧
      hexDecode (hexEncode observed.bytes) = some buf ∧ Represents s L ∧ ∀ orders,
        ((∃ t, State.deliverTx orders buf s = (.ok (), t)) ↔
          State.chainId s = .ok ⟨"felidae".toList⟩ ∧ c.Authorizes .oracle k.publicKey ∧
            Recent (blockAt 2 20 []) [block] c.oracles.observationTimeout block.request.height ∧
            L.Observable ⟨nameOf "www.example.com."⟩ (nameOf "example.com.") o.hashObserved) ∧
        ∀ t, State.deliverTx orders buf s = (.ok (), t) → ∃ L', Represents t L' ∧
          L.Cast .oracle ⟨nameOf "www.example.com."⟩ k.publicKey (blockAt 2 20 []).time.second
            ⟨o.hashObserved, ⟨nameOf "example.com."⟩⟩ L' := by
  obtain ⟨block, s, c, hat, hconfig, hrequest, happHash⟩ := exists_atBlock
  have htimes : Timely (blockAt 2 20 [] :: [block].map Block.request) := by
    rw [List.map_singleton, hrequest]
    exact List.pairwise_pair.mpr (by decide)
  have hlooks : LooksUp (blockAt 2 20 []) [block] c.oracles.observationTimeout
      block.request.height := by
    rw [hrequest]
    exact .inl (by decide)
  have hfollows : Header.Follows ⟨secondHeight, Reference.bytesOf 32 6⟩ block :=
    ⟨by rw [hrequest]; rfl, happHash.symm⟩
  exact ⟨block, s, c, hat, hconfig, AtBlock.accepts_witnessDomain hat htimes hconfig
    List.mem_cons_self hlooks (show surroundings.latestBlock = .ok _ from rfl) hfollows
    (fun k o h ↦ reliable_witnessed h) (show witnessDomain surroundings none
      (nameOf "www.example.com.") (nameOf "example.com.") = .ok _ by decide +kernel)⟩

scoped instance : PublicSuffixList := ⟨Reference.parseDomainName⟩

/-- A request with a token for which the work has been done. -/
def request : ObserveRequest := ⟨"www.example.com.".toList, ⟨challenge, nonce, 1000⟩⟩

theorem handleObserve_submits_request :
    (handleObserve ⟨powSecret, 8⟩ 1060 (observeRequested surroundings (fun _ ↦ "") none) request
        = .ok (.ok ⟨true, "observation submitted successfully", none⟩)) ∧
    (handleObserve ⟨powSecret, 8⟩ 1060 (observeRequested surroundings (fun _ ↦ "") none) request
        = .ok (.ok ⟨true, "observation submitted successfully", none⟩) ↔
      (generatePowChallenge (normalizeDomain request.domain) 1000 powSecret = challenge ∧
        absDiff 1060 1000 ≤ 5 * 60 ∧ 8 ≤ countLeadingZeros (powHash challenge nonce) ∧
        countLeadingZeros (powHash challenge nonce) < 256) ∧
      (∃ d z, Host.fqdnFromStr request.domain = .ok d ∧ inferZone d = .ok z ∧
        Submits surroundings none d z) ∧
      (⟨true, "observation submitted successfully", none⟩ : ObserveResponse)
        = ⟨true, "observation submitted successfully", none⟩) :=
  ⟨by decide +kernel, handleObserve_submits fun d z hd hz k latest o h ↦ by
    have hdomain : d = nameOf "www.example.com." :=
      Except.ok.inj (hd.symm.trans (by decide +kernel))
    subst hdomain
    have hzone : z = nameOf "example.com." := Except.ok.inj (hz.symm.trans (by decide +kernel))
    subst hzone
    exact reliable_witnessed h⟩

end Client

end Felidae
