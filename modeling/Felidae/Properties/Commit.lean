import Felidae.Reference
import Felidae.Service.Session

/-!
# The commit protocol

A block is finalized on the working state, its changes wait in a batch, and the working state
starts anew over a snapshot that does not have them yet. Whatever is requested in the meantime,
what `Commit` makes current is the chain so far: the genesis and then every block, once each and in
order.
-/

namespace Felidae

/-- What every commit of a session has to do, and what nothing else in it may do. -/
structure CommitsChain [Host] (h : List (Moment (Phase × NodeStore) Exchange)) : Prop where
  commit : ∀ newer m older, h = newer ++ m :: older → m.event.request = .commit →
    ∃ genesis block rest t, geneses older = [genesis] ∧ blocks older = block :: rest ∧
      Applied genesis (block :: rest) t ∧ m.after = (.committed (rest.length + 1), .new t) ∧
      m.event.result = .ok (.commit (Service.appHash t)) ∧
      block.response.appHash = Service.appHash t
  aside : ∀ m ∈ h, m.event.request.Aside → m.after = m.before

section Sessions

variable [Host] {h : List (Moment (Phase × NodeStore) Exchange)} {s : Phase × NodeStore}

/-- Every commit of a session makes current what the genesis and the blocks up to then come to, and
announces the root that was announced with the block. Requests in between change nothing. -/
theorem Session.commitsChain (hist : Session h s) : CommitsChain h := by
  constructor
  · rintro newer m older rfl hcommit
    obtain ⟨hbefore, hstep⟩ := hist.split
    have hstands := Session.stands hbefore
    obtain ⟨before, event, after⟩ := m
    cases hstep with
    | initChain | finalizeBlock => cases hcommit
    | @commit b b' orders result height hcall =>
      obtain ⟨genesis, block, rest, t, hgeneses, hblocks, rfl, happlied, hserved⟩ :=
        hstands.commit orders
      obtain ⟨rfl, rfl⟩ := Prod.mk.inj (hserved.symm.trans hcall)
      exact ⟨genesis, block, rest, t, hgeneses, hblocks, happlied, rfl, rfl, happlied.appHash_eq⟩
    | @aside b b' orders request result phase haside =>
      obtain rfl : request = .commit := hcommit
      exact absurd haside id
  · intro m hm haside
    have hstep := hist.step_of_mem hm
    obtain ⟨before, event, after⟩ := m
    cases hstep with
    | initChain | finalizeBlock | commit => exact absurd haside id
    | @aside b b' orders request result phase _ hcall =>
      have hkept : b' = b := (congrArg Prod.snd hcall).symm.trans (Service.call_of_aside haside b)
      rw [hkept]

end Sessions

namespace Reference

/-- The chain is founded and a domain observed, over two blocks, and the transactions are checked
before each request. -/
def serving : List Request :=
  [.commit, .checkTx observeByAlice.bytes, .finalizeBlock (blockAt 2 20 [observeByAlice]), .info,
    .checkTx observeByAlice.bytes, .commit, .checkTx found.bytes,
    .finalizeBlock (blockAt 1 10 [found]), .checkTx found.bytes, .initChain genesis,
    .checkTx found.bytes]

/-- A session with the given requests that passes a test. -/
theorem exists_session_of_any (order : IterOrder) (requests : List Request)
    (P : List (Moment (Phase × NodeStore) Exchange) × (Phase × NodeStore) → Bool)
    (h : (Session.exec order requests).any P = true) :
    ∃ h s, Session h s ∧ P (h, s) = true := by
  obtain ⟨⟨h, s⟩, hexec, hP⟩ := (Option.any_eq_true ..).mp h
  exact ⟨h, s, Session.of_exec hexec, hP⟩

theorem commitsChain_serving : ∃ h s, Session h s ∧ (commits h).length = 2 ∧ CommitsChain h := by
  obtain ⟨h, s, hist, hlength⟩ := exists_session_of_any listed serving
    (fun r ↦ (commits r.1).length = 2) (by decide +kernel)
  exact ⟨h, s, hist, of_decide_eq_true hlength, Session.commitsChain hist⟩

end Reference

end Felidae
