import Felidae.Client.Reconfigure
import Felidae.Properties.Submission

/-!
# Proposals

What becomes of the configs that `reconfigure` proposes. A proposal is open from the grace period
before the wall clock's time to the timeout after it, so that it does not matter by how much less
than that the blocks lag behind or run ahead. At a block in that window it is accepted exactly if
it is for the chain, the signer is an admin, and the config supersedes the one in force and is newer
than the one that is pending.
-/

open Classical

namespace Felidae

section Propose

variable [Host] [P256] {now : Time} {signingKey : Bytes} {id : Str} {timeout : Duration}
  {grace : Option Duration} {config : Config}

/-- The transaction of one proposal. -/
def proposing (chainId : Str) (r : Reconfigure) : Transaction := ⟨⟨chainId⟩, [.reconfigure r]⟩

/-- A key pair proposes a config at the wall clock's time `now`, with a window around it. -/
structure Proposes (k : KeyPair) (now : Time) (grace timeout : Duration) (config : Config)
    (r : Reconfigure) : Prop where
  admin : r.admin = ⟨k.publicKey⟩
  config : r.config = config
  notBefore : r.notBefore.total = now.total - grace
  notAfter : r.notAfter.total = now.total + timeout

omit [Host] in
theorem Proposes.build_eq {k : KeyPair} {g : Duration} {r : Reconfigure}
    (h : Proposes k now g timeout config r) :
    ((Builder.new ⟨id⟩).reconfigure k.publicKey r.notBefore r.notAfter config).build
      = proposing id r := by
  have hr : (⟨config, r.notBefore, r.notAfter, ⟨k.publicKey⟩⟩ : Reconfigure) = r := by
    rw [← h.admin, ← h.config]
  rw [proposing, ← hr]
  rfl

/-- `reconfigure` hands out what was signed for a proposal and authenticates. -/
theorem Admin.reconfigure_eq_ok {tx : Str} :
    Admin.reconfigure now signingKey id timeout grace config = .ok tx ↔
      ∃ k r, KeyPair.decode signingKey = some k ∧
        Proposes k now (grace.getD defaultNotBeforeGracePeriod) timeout config r ∧
        ∃ buf, (proposing id r).signToProto k.signWith = .ok buf ∧
          (∃ t, AuthenticatedTx.fromProto buf = .ok t) ∧ tx = hexEncode buf := by
  simp only [Admin.reconfigure, except_bind_eq_ok, okOrElse_eq_ok, mapError_eq_ok,
    Time.checkedSub_eq_some, Time.checkedAdd_eq_some]
  constructor
  · rintro ⟨k, hk, t₀, ht₀, t₁, ht₁, t₂, ht₂, buf, hsign, t, ht, htx⟩
    refine ⟨k, ⟨config, t₀, t₂, ⟨k.publicKey⟩⟩, hk, ⟨rfl, rfl, ht₀, ?_⟩, buf, hsign, ⟨t, ht⟩,
      (Except.ok.inj htx).symm⟩
    rw [ht₂, ht₁, ht₀, sub_add_cancel]
  · rintro ⟨k, r, hk, h, buf, hsign, ⟨t, ht⟩, rfl⟩
    refine ⟨k, hk, r.notBefore, h.notBefore, now, ?_, r.notAfter, h.notAfter, buf, ?_, t, ht, rfl⟩
    · rw [h.notBefore, sub_add_cancel]
    · rw [h.build_eq]
      exact hsign

variable [LawfulHost]

/-- The config of a proposal as the chain reads it. -/
theorem Proposes.signs {k : KeyPair} {g : Duration} {r : Reconfigure}
    (h : Proposes k now g timeout config r) (hreliable : k.Reliable (proposing id r)) :
    ∃ buf, (proposing id r).signToProto k.signWith = .ok buf ∧
      AuthenticatedTx.fromProto buf = .ok ⟨proposing id { r with config := config.readBack }⟩ := by
  obtain ⟨buf, hsign, hauth⟩ := hreliable.signs fun a ha ↦ by
    rw [List.mem_singleton.mp ha]
    exact congrArg Admin.identity h.admin
  refine ⟨buf, hsign, ?_⟩
  rw [hauth, ← h.config]
  rfl

/-- `reconfigure` succeeds exactly if the key is one and the window consists of times, and then the
chain reads the proposal from the transaction. -/
theorem Admin.reconfigure_exact (hreliable : ∀ k r, KeyPair.decode signingKey = some k →
      Proposes k now (grace.getD defaultNotBeforeGracePeriod) timeout config r →
        k.Reliable (proposing id r)) :
    ((∃ tx, Admin.reconfigure now signingKey id timeout grace config = .ok tx) ↔
      ∃ k r, KeyPair.decode signingKey = some k ∧
        Proposes k now (grace.getD defaultNotBeforeGracePeriod) timeout config r) ∧
    ∀ tx, Admin.reconfigure now signingKey id timeout grace config = .ok tx →
      ∃ k r buf, KeyPair.decode signingKey = some k ∧
        Proposes k now (grace.getD defaultNotBeforeGracePeriod) timeout config r ∧
        hexDecode tx = some buf ∧
        AuthenticatedTx.fromProto buf
          = .ok ⟨proposing id { r with config := config.readBack }⟩ := by
  constructor
  · constructor
    · rintro ⟨tx, htx⟩
      obtain ⟨k, r, hk, h, -⟩ := reconfigure_eq_ok.mp htx
      exact ⟨k, r, hk, h⟩
    · rintro ⟨k, r, hk, h⟩
      obtain ⟨buf, hsign, hauth⟩ := h.signs (hreliable k r hk h)
      exact ⟨_, reconfigure_eq_ok.mpr ⟨k, r, hk, h, buf, hsign, ⟨_, hauth⟩, rfl⟩⟩
  · intro tx htx
    obtain ⟨k, r, hk, h, buf, hsign, -, rfl⟩ := reconfigure_eq_ok.mp htx
    obtain ⟨buf', hsign', hauth⟩ := h.signs (hreliable k r hk h)
    obtain rfl := Except.ok.inj (hsign.symm.trans hsign')
    exact ⟨k, r, buf, hk, h, hexDecode_hexEncode buf, hauth⟩

end Propose

/-! ## At a block -/

section AtBlock

variable [Host] [LawfulHost] [P256] {genesis : InitChain} {older : List Block}
  {request : FinalizeBlock} {s : Store} {c : Config} {now : Time} {signingKey : Bytes} {id : Str}
  {timeout : Duration} {grace : Option Duration} {config : Config}

/-- The transaction that `reconfigure` makes at the wall clock's time is applied at a block exactly
if it is for the chain, its signer is an admin or there are none, the block is not earlier than that
time by more than the grace period and not later by more than the timeout, and the config, as it is
read back, supersedes the one in force and is newer than the one that is pending; and then the
admin's vote is cast for what is read back. -/
theorem AtBlock.accepts_reconfigure (h : AtBlock genesis request older s)
    (htimes : Timely (request :: older.map Block.request)) (hconfig : State.config s = .ok c)
    (hreliable : ∀ k r, KeyPair.decode signingKey = some k →
      Proposes k now (grace.getD defaultNotBeforeGracePeriod) timeout config r →
        k.Reliable (proposing id r)) {tx : Str}
    (htx : Admin.reconfigure now signingKey id timeout grace config = .ok tx) :
    ∃ k buf L, KeyPair.decode signingKey = some k ∧ hexDecode tx = some buf ∧ Represents s L ∧
      ∀ orders,
        ((∃ t, State.deliverTx orders buf s = (.ok (), t)) ↔
          State.chainId s = .ok ⟨id⟩ ∧ c.Authorizes .admin k.publicKey ∧
            now.total ≤ request.time.total + grace.getD defaultNotBeforeGracePeriod ∧
            request.time.total ≤ now.total + timeout ∧ config.readBack.Supersedes c ∧
            ∀ e : Second × Config, (L.queue .admin).pending Empty.mk = some e →
              e.2.version < config.readBack.version) ∧
        ∀ t, State.deliverTx orders buf s = (.ok (), t) → ∃ L', Represents t L' ∧
          L.Cast .admin Empty.mk k.publicKey request.time.second config.readBack L' := by
  obtain ⟨k, r, buf, hk, hproposes, hbuf, hauth⟩ := (Admin.reconfigure_exact hreliable).2 tx htx
  obtain ⟨L, hs, hL, hheight, htime⟩ := h.exists_represents htimes
  obtain rfl := Except.ok.inj (hs.config.symm.trans hconfig)
  refine ⟨k, buf, L, hk, hbuf, hs, fun orders ↦ ?_⟩
  have hclean : Clean config.readBack :=
    Config.clean_of_readBack (Config.readBack_of_ofProto config.ofProto_toProto)
  -- an admin is its identity, so the chain compares the keys
  have hauthorizes : (L.config.admins.authorized = [] ∨ r.admin ∈ L.config.admins.authorized) ↔
      L.config.Authorizes .admin k.publicKey := by
    rw [hproposes.admin, Config.Authorizes, List.mem_map]
    refine or_congr_right ⟨fun hmem ↦ ⟨_, hmem, rfl⟩, ?_⟩
    rintro ⟨_, hmem, hidentity⟩
    rwa [← hidentity]
  have hpermits : L.Permits request.time (.reconfigure { r with config := config.readBack }) ↔
      L.config.Authorizes .admin k.publicKey ∧
        now.total ≤ request.time.total + grace.getD defaultNotBeforeGracePeriod ∧
        request.time.total ≤ now.total + timeout ∧ config.readBack.Supersedes L.config ∧
        ∀ e : Second × Config, (L.queue .admin).pending Empty.mk = some e →
          e.2.version < config.readBack.version := by
    refine and_congr hauthorizes (and_congr ?_ (and_congr_left' ?_))
    · change r.notBefore.total ≤ _ ↔ _
      rw [hproposes.notBefore, sub_le_iff_le_add]
    · change _ ≤ r.notAfter.total ↔ _
      rw [hproposes.notAfter]
  obtain ⟨hiff, hcast⟩ := hs.deliverTx_one hL hheight htime
    (a := .reconfigure { r with config := config.readBack }) hclean hauth orders
  refine ⟨hiff.trans (and_congr_right fun _ ↦ hpermits), fun t hok ↦ ?_⟩
  obtain ⟨L', ht, hcasts⟩ := hcast t hok
  refine ⟨L', ht, ?_⟩
  rwa [Ledger.Casts, hproposes.admin] at hcasts

end AtBlock

namespace Client

open Reference (genesis listed blockAt timeAt)

theorem proposes_proposal {k : KeyPair} {r : Reconfigure}
    (h : Proposes k (timeAt 10) ((none : Option Duration).getD defaultNotBeforeGracePeriod)
      (.ofSecs 600) config r) : r = proposal := by
  have hnotBefore : r.notBefore = timeAt (-290) :=
    Option.some.inj ((Time.checkedSub_eq_some.mpr h.notBefore).symm.trans (by decide +kernel))
  have hnotAfter : r.notAfter = timeAt 610 :=
    Option.some.inj ((Time.checkedAdd_eq_some.mpr h.notAfter).symm.trans (by decide +kernel))
  have hadmin := h.admin
  have hconfig := h.config
  obtain ⟨_, _, _, _⟩ := r
  dsimp only at hadmin hconfig hnotBefore hnotAfter
  rw [hadmin, hconfig, hnotBefore, hnotAfter]
  rfl

theorem reliable_proposal : keyPair.Reliable (proposing "felidae".toList proposal) where
  codec := by decide +kernel
  genuine := show verify _ _ _ = true by decide +kernel

theorem accepts_reconfigure_found : ∃ s c, AtBlock genesis (blockAt 1 10 []) [] s ∧
    State.config s = .ok c ∧ ∃ k buf L, KeyPair.decode pkcs8 = some k ∧
      hexDecode (hexEncode found.bytes) = some buf ∧ Represents s L ∧ ∀ orders,
        ((∃ t, State.deliverTx orders buf s = (.ok (), t)) ↔
          State.chainId s = .ok ⟨"felidae".toList⟩ ∧ c.Authorizes .admin k.publicKey ∧
            (timeAt 10).total ≤ (blockAt 1 10 []).time.total
              + (none : Option Duration).getD defaultNotBeforeGracePeriod ∧
            (blockAt 1 10 []).time.total ≤ (timeAt 10).total + Duration.ofSecs 600 ∧
            config.readBack.Supersedes c ∧
            ∀ e : Second × Config, (L.queue .admin).pending Empty.mk = some e →
              e.2.version < config.readBack.version) ∧
        ∀ t, State.deliverTx orders buf s = (.ok (), t) → ∃ L', Represents t L' ∧
          L.Cast .admin Empty.mk k.publicKey (blockAt 1 10 []).time.second config.readBack L' := by
  have htest : (Applied.exec genesis listed [blockAt 1 10 []]).any
      (fun r ↦ (State.config r.2).toOption.isSome) = true := by decide +kernel
  obtain ⟨⟨blocks, s⟩, hexec, htest⟩ := (Option.any_eq_true ..).mp htest
  obtain ⟨happlied, hrequests⟩ := Applied.of_exec hexec
  obtain ⟨block, rest, rfl, hblock, hrest⟩ := List.map_eq_cons_iff.mp hrequests
  obtain rfl := List.map_eq_nil_iff.mp hrest
  obtain ⟨c, hc⟩ : ∃ c, State.config s = .ok c := by
    rcases hc : State.config s with e | c <;> rw [hc] at htest
    · cases htest
    · exact ⟨c, rfl⟩
  have hat : AtBlock genesis (blockAt 1 10 []) [] s := hblock ▸ .after happlied
  have htx : Admin.reconfigure (timeAt 10) pkcs8 "felidae".toList (.ofSecs 600) none config
      = .ok (hexEncode found.bytes) := by decide +kernel
  exact ⟨s, c, hat, hc, AtBlock.accepts_reconfigure hat (List.pairwise_singleton ..) hc
    (fun k r hk h ↦ proposes_proposal h ▸ reliable_proposal) htx⟩

end Client

end Felidae
