import Felidae.Transaction.Convert

/-!
# Signing and verifying

A transaction is signed over its own encoding with every signature field emptied, and verified by
traversing all of it in search of signatures. The traversal is generic: `Traverse` is derived for
every message from its fields, and reaches through options, lists and the `oneof`. What a closure
sees of a visited value is whether it downcasts to a `Signature`.
-/

namespace Felidae

open Proto

/-! ## The traversal -/

/-- A visited value, as `downcast_ref::<Signature>` sees it. -/
inductive Node where
  | signature (s : Signature)
  | other
  deriving DecidableEq

/-- `Traverse`: the nodes visited in order, and the value after a closure has rewritten every
visited signature. The defaults are those of a value with nothing inside. -/
class Traverse (T : Type) where
  traverse : T → List Node := fun _ ↦ [.other]
  traverseMut : (Signature → Signature) → T → T := fun _ v ↦ v

namespace Traverse

instance : Traverse Bytes where
instance : Traverse Str where
instance : Traverse Bool where
instance : Traverse Int32 where
instance : Traverse Int64 where

variable {T : Type} [Traverse T]

instance : Traverse (Option T) where
  traverse v := v.toList.flatMap traverse ++ [.other]
  traverseMut f v := v.map (traverseMut f)

instance : Traverse (List T) where
  traverse v := v.flatMap traverse ++ [.other]
  traverseMut f v := v.map (traverseMut f)

/-! ### Derived instances

Each visits the fields of the message in order and then the message itself. -/

instance : Traverse Signature where
  traverse v := traverse v.publicKey ++ traverse v.signature ++ [.signature v]
  traverseMut f v := f ⟨traverseMut f v.publicKey, traverseMut f v.signature⟩

instance : Traverse Timestamp where
  traverse v := traverse v.seconds ++ traverse v.nanos ++ [.other]
  traverseMut f v := ⟨traverseMut f v.seconds, traverseMut f v.nanos⟩

instance : Traverse Proto.VotingConfig where
  traverse v := traverse v.total ++ traverse v.quorum ++ traverse v.timeout ++ traverse v.delay
    ++ [.other]
  traverseMut f v := ⟨traverseMut f v.total, traverseMut f v.quorum, traverseMut f v.timeout,
    traverseMut f v.delay⟩

instance : Traverse Proto.Admin where
  traverse v := traverse v.publicKey ++ [.other]
  traverseMut f v := ⟨traverseMut f v.publicKey⟩

instance : Traverse Proto.AdminConfig where
  traverse v := traverse v.admins ++ traverse v.votingConfig ++ [.other]
  traverseMut f v := ⟨traverseMut f v.admins, traverseMut f v.votingConfig⟩

instance : Traverse Proto.OracleIdentity where
  traverse v := traverse v.publicKey ++ [.other]
  traverseMut f v := ⟨traverseMut f v.publicKey⟩

instance : Traverse Proto.Oracle where
  traverse v := traverse v.publicKey ++ traverse v.endpoint ++ [.other]
  traverseMut f v := ⟨traverseMut f v.publicKey, traverseMut f v.endpoint⟩

instance : Traverse Proto.OracleConfig where
  traverse v := traverse v.oracles ++ traverse v.votingConfig ++ traverse v.enabled
    ++ traverse v.maxEnrolledSubdomains ++ traverse v.observationTimeout ++
      [.other]
  traverseMut f v := ⟨traverseMut f v.oracles, traverseMut f v.votingConfig,
    traverseMut f v.enabled, traverseMut f v.maxEnrolledSubdomains,
    traverseMut f v.observationTimeout⟩

instance : Traverse Proto.OnionConfig where
  traverse v := traverse v.enabled ++ [.other]
  traverseMut f v := ⟨traverseMut f v.enabled⟩

instance : Traverse Proto.Config where
  traverse v := traverse v.adminConfig ++ traverse v.oracleConfig ++ traverse v.onionConfig
    ++ traverse v.version ++ [.other]
  traverseMut f v := ⟨traverseMut f v.adminConfig, traverseMut f v.oracleConfig,
    traverseMut f v.onionConfig, traverseMut f v.version⟩

instance : Traverse Proto.Blockstamp where
  traverse v := traverse v.blockHash ++ traverse v.blockNumber ++ [.other]
  traverseMut f v := ⟨traverseMut f v.blockHash, traverseMut f v.blockNumber⟩

instance : Traverse Proto.HashObserved where
  traverse v := traverse v.hash ++ [.other]
  traverseMut f v := ⟨traverseMut f v.hash⟩

instance : Traverse Proto.Observation where
  traverse v := traverse v.domain ++ traverse v.zone ++ traverse v.hashObserved
    ++ traverse v.blockstamp ++ [.other]
  traverseMut f v := ⟨traverseMut f v.domain, traverseMut f v.zone, traverseMut f v.hashObserved,
    traverseMut f v.blockstamp⟩

instance : Traverse Proto.Reconfigure where
  traverse v := traverse v.signature ++ traverse v.config ++ traverse v.notBefore
    ++ traverse v.notAfter ++ [.other]
  traverseMut f v := ⟨traverseMut f v.signature, traverseMut f v.config, traverseMut f v.notBefore,
    traverseMut f v.notAfter⟩

instance : Traverse Proto.Observe where
  traverse v := traverse v.signature ++ traverse v.observation ++ [.other]
  traverseMut f v := ⟨traverseMut f v.signature, traverseMut f v.observation⟩

instance : Traverse ActionKind where
  traverse
    | .reconfigure v0 => traverse v0 ++ [.other]
    | .observe v0 => traverse v0 ++ [.other]
  traverseMut f
    | .reconfigure v0 => .reconfigure (traverseMut f v0)
    | .observe v0 => .observe (traverseMut f v0)

instance : Traverse Proto.Action where
  traverse v := traverse v.action ++ [.other]
  traverseMut f v := ⟨traverseMut f v.action⟩

instance : Traverse Proto.Transaction where
  traverse v := traverse v.chainId ++ traverse v.actions ++ [.other]
  traverseMut f v := ⟨traverseMut f v.chainId, traverseMut f v.actions⟩

end Traverse

open Traverse (traverseMut)

/-! ### Messages without signatures -/

/-- A type whose values hold no signature: a traversal meets none and rewrites nothing. -/
class Signless (T : Type) [Traverse T] : Prop where
  notMem_traverse : ∀ (v : T) (s : Signature), .signature s ∉ Traverse.traverse v
  traverseMut_eq : ∀ (f : Signature → Signature) (v : T), traverseMut f v = v

namespace Signless

instance : Signless Bytes := ⟨fun _ _ ↦ by simp [Traverse.traverse], fun _ _ ↦ rfl⟩
instance : Signless Str := ⟨fun _ _ ↦ by simp [Traverse.traverse], fun _ _ ↦ rfl⟩
instance : Signless Bool := ⟨fun _ _ ↦ by simp [Traverse.traverse], fun _ _ ↦ rfl⟩
instance : Signless Int32 := ⟨fun _ _ ↦ by simp [Traverse.traverse], fun _ _ ↦ rfl⟩
instance : Signless Int64 := ⟨fun _ _ ↦ by simp [Traverse.traverse], fun _ _ ↦ rfl⟩

attribute [simp] notMem_traverse traverseMut_eq

variable {T : Type} [Traverse T] [Signless T]

instance : Signless (Option T) where
  notMem_traverse v s := by cases v <;> simp [Traverse.traverse]
  traverseMut_eq f v := by cases v <;> simp [traverseMut]

instance : Signless (List T) where
  notMem_traverse v s := by simp [Traverse.traverse]
  traverseMut_eq f v := (List.map_congr_left fun a _ ↦ traverseMut_eq f a).trans (List.map_id v)

end Signless

instance : Signless Timestamp :=
  ⟨fun _ _ ↦ by simp [Traverse.traverse], fun _ _ ↦ by simp [traverseMut]⟩

instance : Signless Proto.VotingConfig :=
  ⟨fun _ _ ↦ by simp [Traverse.traverse], fun _ _ ↦ by simp [traverseMut]⟩

instance : Signless Proto.Admin :=
  ⟨fun _ _ ↦ by simp [Traverse.traverse], fun _ _ ↦ by simp [traverseMut]⟩

instance : Signless Proto.AdminConfig :=
  ⟨fun _ _ ↦ by simp [Traverse.traverse], fun _ _ ↦ by simp [traverseMut]⟩

instance : Signless Proto.OracleIdentity :=
  ⟨fun _ _ ↦ by simp [Traverse.traverse], fun _ _ ↦ by simp [traverseMut]⟩

instance : Signless Proto.Oracle :=
  ⟨fun _ _ ↦ by simp [Traverse.traverse], fun _ _ ↦ by simp [traverseMut]⟩

instance : Signless Proto.OracleConfig :=
  ⟨fun _ _ ↦ by simp [Traverse.traverse], fun _ _ ↦ by simp [traverseMut]⟩

instance : Signless Proto.OnionConfig :=
  ⟨fun _ _ ↦ by simp [Traverse.traverse], fun _ _ ↦ by simp [traverseMut]⟩

instance : Signless Proto.Config :=
  ⟨fun _ _ ↦ by simp [Traverse.traverse], fun _ _ ↦ by simp [traverseMut]⟩

instance : Signless Proto.Blockstamp :=
  ⟨fun _ _ ↦ by simp [Traverse.traverse], fun _ _ ↦ by simp [traverseMut]⟩

instance : Signless Proto.HashObserved :=
  ⟨fun _ _ ↦ by simp [Traverse.traverse], fun _ _ ↦ by simp [traverseMut]⟩

instance : Signless Proto.Observation :=
  ⟨fun _ _ ↦ by simp [Traverse.traverse], fun _ _ ↦ by simp [traverseMut]⟩

/-! ## What the traversal reaches -/

/-- The signatures of a transaction: each action has at most one, and nothing else has any. -/
def Proto.Transaction.signatures (tx : Proto.Transaction) : List Signature :=
  tx.actions.filterMap Action.signature?

/-- The closure of `unsign_all`. -/
def Proto.Signature.clear (s : Signature) : Signature := ⟨s.publicKey, []⟩

/-- The action with its signature emptied. -/
def Proto.Action.unsign (m : Proto.Action) : Proto.Action :=
  match m.action with
  | some (.reconfigure r) =>
    ⟨some (.reconfigure { r with signature := r.signature.map Signature.clear })⟩
  | some (.observe o) => ⟨some (.observe { o with signature := o.signature.map Signature.clear })⟩
  | none => m

/-- The action with its signature rewritten. -/
def Proto.Action.mapSignature (f : Signature → Signature) (m : Proto.Action) : Proto.Action :=
  match m.action with
  | some (.reconfigure r) => ⟨some (.reconfigure { r with signature := r.signature.map f })⟩
  | some (.observe o) => ⟨some (.observe { o with signature := o.signature.map f })⟩
  | none => m

/-- The traversal of an action meets its signature and no other. -/
theorem signature_mem_traverse_action {m : Proto.Action} {s : Signature} :
    .signature s ∈ Traverse.traverse m ↔ m.signature? = some s := by
  obtain ⟨_ | r | o⟩ := m
  · simp [Traverse.traverse, Action.signature?]
  · obtain ⟨_ | sig, config, notBefore, notAfter⟩ := r <;>
      simp [Traverse.traverse, Action.signature?, eq_comm]
  · obtain ⟨_ | sig, observation⟩ := o <;> simp [Traverse.traverse, Action.signature?, eq_comm]

theorem signature_mem_traverse {tx : Proto.Transaction} {s : Signature} :
    .signature s ∈ Traverse.traverse tx ↔ s ∈ tx.signatures := by
  have htx : Traverse.traverse tx = Traverse.traverse tx.chainId ++ (tx.actions.flatMap
    Traverse.traverse ++ [.other])
      ++ [.other] := rfl
  simp [htx, Proto.Transaction.signatures, signature_mem_traverse_action]

theorem traverseMut_action (f : Signature → Signature) (m : Proto.Action) :
    traverseMut f m = m.mapSignature f := by
  obtain ⟨_ | r | o⟩ := m
  · rfl
  · obtain ⟨_ | sig, config, notBefore, notAfter⟩ := r <;> simp [traverseMut, Action.mapSignature]
  · obtain ⟨_ | sig, observation⟩ := o <;> simp [traverseMut, Action.mapSignature]

/-- A traversal rewrites the signatures of the actions. -/
theorem traverseMut_transaction (f : Signature → Signature) (tx : Proto.Transaction) :
    traverseMut f tx = ⟨tx.chainId, tx.actions.map (Action.mapSignature f)⟩ := by
  have htx : traverseMut f tx = ⟨tx.chainId, tx.actions.map (traverseMut f)⟩ := rfl
  rw [htx, List.map_congr_left fun m _ ↦ traverseMut_action f m]

theorem signature?_mapSignature (f : Signature → Signature) (m : Proto.Action) :
    (m.mapSignature f).signature? = m.signature?.map f := by
  obtain ⟨_ | r | o⟩ := m <;> rfl

theorem signatures_traverseMut (f : Signature → Signature) (tx : Proto.Transaction) :
    Proto.Transaction.signatures (traverseMut f tx) = tx.signatures.map f := by
  rw [traverseMut_transaction, Proto.Transaction.signatures, Proto.Transaction.signatures,
    List.filterMap_map, List.map_filterMap]
  exact List.filterMap_congr fun m _ ↦ signature?_mapSignature f m

theorem traverseMut_clear_action (m : Proto.Action) :
    traverseMut Signature.clear m = m.unsign := by
  rw [traverseMut_action]
  obtain ⟨_ | r | o⟩ := m <;> rfl

/-- Clearing forgets what was written before. -/
theorem unsign_mapSignature {f : Signature → Signature} (hf : ∀ s, (f s).clear = s.clear)
    (m : Proto.Action) : (m.mapSignature f).unsign = m.unsign := by
  obtain ⟨_ | r | o⟩ := m
  · rfl
  · obtain ⟨_ | sig, config, notBefore, notAfter⟩ := r
    · rfl
    · simp [Action.mapSignature, Action.unsign, hf]
  · obtain ⟨_ | sig, observation⟩ := o
    · rfl
    · simp [Action.mapSignature, Action.unsign, hf]

/-! ## Transactions -/

/-- Remove all signatures from a transaction. -/
def Proto.Transaction.unsignAll (tx : Proto.Transaction) : Proto.Transaction := traverseMut
  Signature.clear tx

@[simp] theorem unsignAll_eq (tx : Proto.Transaction) :
    tx.unsignAll = ⟨tx.chainId, tx.actions.map Action.unsign⟩ := by
  have htx : tx.unsignAll = ⟨tx.chainId, tx.actions.map (traverseMut Signature.clear)⟩ := rfl
  rw [htx, List.map_congr_left fun m _ ↦ traverseMut_clear_action m]

theorem unsignAll_traverseMut {f : Signature → Signature} (hf : ∀ s, (f s).clear = s.clear)
    (tx : Proto.Transaction) : Proto.Transaction.unsignAll (traverseMut f tx) = tx.unsignAll := by
  rw [unsignAll_eq, unsignAll_eq, traverseMut_transaction, List.map_map]
  congr 1
  exact List.map_congr_left fun m _ ↦ unsign_mapSignature hf m

/-! ## Signers -/

/-- `Signer`: the signature under a public key over a digest, from a signer that holds the key. -/
abbrev Signer : Type := Bytes → Bytes → Option Bytes

inductive SignError where
  | missingKeypair
  | alreadySigned
  deriving DecidableEq

/-- What the closure of `sign_all` leaves of a visited signature: one that is blank is filled in,
if the signer has the key. -/
def Proto.Signature.fill (signer : Signer) (digest : Bytes) (s : Signature) : Signature :=
  if s.signature = [] then ⟨s.publicKey, (signer s.publicKey digest).getD []⟩ else s

/-- What the closure makes of the result, which is overwritten at each signature that cannot be
filled in, and never set back. -/
def noteFill (signer : Signer) (digest : Bytes) (result : Except SignError Unit) :
    Node → Except SignError Unit
  | .signature s =>
    if s.signature = [] then
      if (signer s.publicKey digest).isSome then result else .error .missingKeypair
    else .error .alreadySigned
  | .other => result

/-- The closure of `sign_all` remembers that there was a failure, if not which. -/
theorem foldl_noteFill (signer : Signer) (digest : Bytes) (l : List Node) :
    ∀ result, l.foldl (noteFill signer digest) result = .ok () ↔ result = .ok () ∧
      ∀ s, .signature s ∈ l → s.signature = [] ∧ (signer s.publicKey digest).isSome := by
  induction l with
  | nil => simp
  | cons v l ih =>
    intro result
    rw [List.foldl_cons, ih]
    cases v with
    | other => simp [noteFill]
    | signature s =>
      by_cases hblank : s.signature = []
      · by_cases hkey : (signer s.publicKey digest).isSome = true
        · simp [noteFill, hblank, hkey]
        · simp [noteFill, hblank, hkey]
      · simp [noteFill, hblank]

theorem clear_fill (signer : Signer) (digest : Bytes) (s : Signature) :
    (s.fill signer digest).clear = s.clear := by
  rw [Signature.fill]
  split <;> rfl

section

variable [Host]

/-- `verify`: a signature of any other length than 64 fails. -/
def verify (publicKey signature digest : Bytes) : Bool :=
  signature.length = 64 && Host.ecdsaVerify publicKey digest signature

namespace Proto.Transaction

/-- The hash of a transaction with its signatures removed. -/
def hash (tx : Proto.Transaction) : Bytes := Host.sha256 (Host.encodeTransaction tx.unsignAll)

/-- Verify every signature a traversal meets. The error is set at each one that fails, and never
unset. -/
def verifyAll (tx : Proto.Transaction) : Option Proto.Transaction :=
  let digest := tx.hash
  let result := (Traverse.traverse tx).foldl (fun result v ↦ match v with
    | .signature s => if verify s.publicKey s.signature digest then result else false
    | .other => result) true
  if result then some tx else none

/-- Fill in every blank signature with a valid signature over the hash of the transaction. -/
def signAll (signer : Signer) (tx : Proto.Transaction) : Except SignError Proto.Transaction :=
  let digest := tx.hash
  let result := (Traverse.traverse tx).foldl (noteFill signer digest) (.ok ())
  result.map fun () ↦ traverseMut (Signature.fill signer digest) tx

/-- Encode a transaction and fill in all its signatures using the given signer. -/
def signToProto (signer : Signer) (tx : Proto.Transaction) : Except SignError Bytes := do
  let tx ← tx.signAll signer
  return Host.encodeTransaction tx

/-- Decode a transaction and verify all its signatures, stripping them in the process. -/
def authenticateFromProto (buf : Bytes) : Option Proto.Transaction := do
  let tx ← Host.decodeTransaction buf
  let tx ← tx.verifyAll
  return tx.unsignAll

end Proto.Transaction

/-- Encode the transaction to bytes, signing all its actions with the given signer. -/
def Transaction.signToProto (signer : Signer) (t : Transaction) : Except SignError Bytes :=
  t.toProto.signToProto signer

/-- `AuthenticatedTx`: a transaction whose signatures have been verified. -/
structure AuthenticatedTx where
  tx : Transaction
  deriving DecidableEq

/-- `AuthenticatedTx::from_proto` -/
def AuthenticatedTx.fromProto (buf : Bytes) : Except ParseError AuthenticatedTx :=
  match Proto.Transaction.authenticateFromProto buf with
  | none => .error ⟨"signature", ""⟩
  | some m => (Transaction.ofProto m).map AuthenticatedTx.mk

/-! ## Verification -/

variable {tx : Proto.Transaction}

/-- The closure of `verify_all` remembers a failure. -/
theorem verifyAll_fold (digest : Bytes) (l : List Node) : ∀ b : Bool,
    l.foldl (fun result v ↦ match v with
      | .signature s => if verify s.publicKey s.signature digest then result else false
      | .other => result) b = true ↔
    b = true ∧ ∀ s, .signature s ∈ l → verify s.publicKey s.signature digest := by
  induction l with
  | nil => simp
  | cons v l ih =>
    intro b
    rw [List.foldl_cons, ih]
    cases v with
    | other => simp
    | signature s =>
      by_cases hs : verify s.publicKey s.signature digest = true
      · simp [hs]
      · simp [hs]

/-- A transaction passes exactly if each of its signatures verifies over its hash. -/
theorem verifyAll_eq_some {tx' : Proto.Transaction} :
    tx.verifyAll = some tx' ↔
      tx' = tx ∧ ∀ s ∈ tx.signatures, verify s.publicKey s.signature tx.hash := by
  have hfold := verifyAll_fold tx.hash (Traverse.traverse tx) true
  simp only [signature_mem_traverse, true_and] at hfold
  rw [Proto.Transaction.verifyAll]
  split
  next h => exact ⟨fun htx ↦ ⟨(Option.some.inj htx).symm, hfold.mp h⟩, fun htx ↦ by rw [htx.1]⟩
  next h => exact ⟨fun htx ↦ (by cases htx), fun htx ↦ absurd (hfold.mpr htx.2) h⟩

/-- A transaction is signed exactly if each of its signatures is blank and the signer has its
key. -/
theorem signAll_eq_ok {signer : Signer} {tx' : Proto.Transaction} :
    tx.signAll signer = .ok tx' ↔ tx' = traverseMut (Signature.fill signer tx.hash) tx ∧
      ∀ s ∈ tx.signatures, s.signature = [] ∧ (signer s.publicKey tx.hash).isSome := by
  have hfold := foldl_noteFill signer tx.hash (Traverse.traverse tx) (.ok ())
  simp only [signature_mem_traverse, true_and] at hfold
  rw [Proto.Transaction.signAll, except_map_eq_ok]
  constructor
  · rintro ⟨⟨⟩, hresult, rfl⟩
    exact ⟨rfl, hfold.mp hresult⟩
  · rintro ⟨rfl, hall⟩
    exact ⟨(), hfold.mpr hall, rfl⟩

/-- Conversion does not look at the bytes of a signature. -/
theorem Action.ofProto_unsign (m : Proto.Action) : Action.ofProto m.unsign = Action.ofProto m := by
  obtain ⟨_ | r | o⟩ := m
  · rfl
  · obtain ⟨_ | sig, config, notBefore, notAfter⟩ := r <;> rfl
  · obtain ⟨_ | sig, observation⟩ := o <;> rfl

theorem Transaction.ofProto_unsignAll (tx : Proto.Transaction) :
    Transaction.ofProto tx.unsignAll = Transaction.ofProto tx := by
  have hcollect : ∀ l : List Proto.Action,
      collect Action.ofProto (l.map Action.unsign) = collect Action.ofProto l := by
    intro l
    induction l with
    | nil => rfl
    | cons m l ih => rw [List.map_cons, collect, collect, Action.ofProto_unsign, ih]
  rw [unsignAll_eq, Transaction.ofProto, Transaction.ofProto, hcollect]

/-- What is accepted: the bytes decode, every signature verifies, and the transaction converts. -/
theorem AuthenticatedTx.fromProto_eq_ok {buf : Bytes} {t : AuthenticatedTx} :
    fromProto buf = .ok t ↔ ∃ p, Host.decodeTransaction buf = some p ∧
      (∀ s ∈ p.signatures, verify s.publicKey s.signature p.hash) ∧
      Transaction.ofProto p = .ok t.tx := by
  have hauth : ∀ m, Proto.Transaction.authenticateFromProto buf = some m ↔
      ∃ p, Host.decodeTransaction buf = some p ∧
        (∀ s ∈ p.signatures, verify s.publicKey s.signature p.hash) ∧ m = p.unsignAll := by
    intro m
    simp only [Proto.Transaction.authenticateFromProto, Option.bind_eq_bind,
      Option.bind_eq_some_iff, verifyAll_eq_some, Option.pure_def, Option.some_inj]
    constructor
    · rintro ⟨p, hp, q, ⟨rfl, hv⟩, rfl⟩
      exact ⟨q, hp, hv, rfl⟩
    · rintro ⟨p, hp, hv, rfl⟩
      exact ⟨p, hp, p, ⟨rfl, hv⟩, rfl⟩
  rw [fromProto]
  rcases hm : Proto.Transaction.authenticateFromProto buf with _ | m
  · refine ⟨fun h ↦ (by cases h), ?_⟩
    rintro ⟨p, hp, hv, -⟩
    cases hm.symm.trans ((hauth _).mpr ⟨p, hp, hv, rfl⟩)
  · obtain ⟨p, hp, hv, rfl⟩ := (hauth m).mp hm
    rw [except_map_eq_ok]
    constructor
    · rintro ⟨t', ht', rfl⟩
      exact ⟨p, hp, hv, by rw [← Transaction.ofProto_unsignAll, ht']⟩
    · rintro ⟨q, hq, -, ht⟩
      obtain rfl := Option.some.inj (hp.symm.trans hq)
      exact ⟨t.tx, by rw [Transaction.ofProto_unsignAll, ht], rfl⟩

end

end Felidae
