import Felidae.Reference
import Mathlib.Data.List.Forall2

/-!
# Soundness of authentication

An accepted transaction acts only under public keys whose signatures verify over the whole of it,
and what was signed determines the chain id and the actions. There is nothing to move a signature
to.
-/

namespace Felidae

open Proto

section Host

variable [Host]

/-- A signature verifies: it is 64 bytes long, and ECDSA accepts it. -/
theorem verify_eq_true {publicKey signature digest : Bytes} :
    verify publicKey signature digest = true ↔
      signature.length = 64 ∧ Host.ecdsaVerify publicKey digest signature = true := by
  rw [verify, Bool.and_eq_true, decide_eq_true_iff]

/-- An action is backed by the signature of the message it was read from. -/
structure Signed (digest : Bytes) (m : Proto.Action) (a : Action) : Prop where
  backed : ∃ s, m.signature? = some s ∧ a.identity = s.publicKey ∧ s.signature.length = 64 ∧
    Host.ecdsaVerify s.publicKey digest s.signature = true

/-- The actions of an accepted transaction are those of the message, each of them signed. -/
theorem AuthenticatedTx.forall₂_signed {buf : Bytes} {t : AuthenticatedTx}
    (h : fromProto buf = .ok t) {p : Proto.Transaction}
    (hp : Host.decodeTransaction buf = some p) :
    List.Forall₂ (Signed p.hash) p.actions t.tx.actions := by
  obtain ⟨p', hp', hverify, hread⟩ := fromProto_eq_ok.mp h
  obtain rfl := Option.some.inj (hp.symm.trans hp')
  obtain ⟨actions, hactions, htx⟩ := except_bind_eq_ok.mp hread
  rw [← Except.ok.inj htx]
  have hall := (List.forall₂_and_left _ _).mpr ⟨fun m hm ↦ hm, forall₂_of_collect hactions⟩
  refine hall.imp fun m a ⟨hm, ha⟩ ↦ ⟨?_⟩
  obtain ⟨s, hs, hid⟩ := Action.signature_of_ofProto ha
  obtain ⟨hlen, hecdsa⟩ := verify_eq_true.mp
    (hverify s (List.mem_filterMap.mpr ⟨m, hm, hs⟩))
  exact ⟨s, hs, hid, hlen, hecdsa⟩

theorem AuthenticatedTx.chainId_eq {buf : Bytes} {t : AuthenticatedTx} (h : fromProto buf = .ok t)
    {p : Proto.Transaction} (hp : Host.decodeTransaction buf = some p) :
    t.tx.chainId.id = p.chainId := by
  obtain ⟨p', hp', -, hread⟩ := fromProto_eq_ok.mp h
  obtain rfl := Option.some.inj (hp.symm.trans hp')
  obtain ⟨actions, -, htx⟩ := except_bind_eq_ok.mp hread
  rw [← Except.ok.inj htx]

/-- A transaction with a signature that does not verify is not accepted. -/
theorem AuthenticatedTx.fromProto_of_not_verify {buf : Bytes} {p : Proto.Transaction}
    (hp : Host.decodeTransaction buf = some p) {s : Signature} (hs : s ∈ p.signatures)
    (hverify : ¬verify s.publicKey s.signature p.hash) : ∃ e, fromProto buf = .error e := by
  rcases hread : fromProto buf with e | t
  · exact ⟨e, rfl⟩
  · obtain ⟨p', hp', hall, -⟩ := fromProto_eq_ok.mp hread
    obtain rfl := Option.some.inj (hp.symm.trans hp')
    exact absurd (hall s hs) hverify

/-- A transaction with an action that has no signature is not accepted. -/
theorem AuthenticatedTx.fromProto_of_unsigned {buf : Bytes} {p : Proto.Transaction}
    (hp : Host.decodeTransaction buf = some p) {m : Proto.Action} (hm : m ∈ p.actions)
    (hnone : m.signature? = none) : ∃ e, fromProto buf = .error e := by
  rcases hread : fromProto buf with e | t
  · exact ⟨e, rfl⟩
  · have hsigned := AuthenticatedTx.forall₂_signed hread hp
    obtain ⟨a, -, ⟨s, hs, -⟩⟩ := exists_of_mem_forall₂ hsigned hm
    cases hnone.symm.trans hs

/-- The digest is that of the transaction with every signature emptied. -/
theorem Proto.Transaction.hash_eq (p : Proto.Transaction) :
    p.hash = Host.sha256 (Host.encodeTransaction ⟨p.chainId, p.actions.map Action.unsign⟩) := by
  rw [hash, unsignAll_eq]

/-- What is signed determines what is read. -/
theorem Proto.Transaction.ofProto_of_hash_eq (hsha : Function.Injective Host.sha256)
    (hencode : Function.Injective Host.encodeTransaction) {p p' : Proto.Transaction}
    (h : p.hash = p'.hash) :
    p.chainId = p'.chainId ∧ p.actions.map Action.unsign = p'.actions.map Action.unsign ∧
      Transaction.ofProto p = Transaction.ofProto p' := by
  have hunsign : p.unsignAll = p'.unsignAll := hencode (hsha h)
  have hfields := hunsign
  rw [unsignAll_eq, unsignAll_eq, Transaction.mk.injEq] at hfields
  refine ⟨hfields.1, hfields.2, ?_⟩
  rw [← Transaction.ofProto_unsignAll, hunsign, Transaction.ofProto_unsignAll]

/-- Authentication is sound. The actions of an accepted transaction act under the public keys of
signatures over the transaction with every signature emptied; a signature that does not verify, or
a missing one, makes the transaction fail; and transactions with the same digest have the same
chain id and the same actions. -/
theorem AuthenticatedTx.actions_authentic (hsha : Function.Injective Host.sha256)
    (hencode : Function.Injective Host.encodeTransaction) :
    (∀ buf t p, fromProto buf = .ok t → Host.decodeTransaction buf = some p →
      t.tx.chainId.id = p.chainId ∧ List.Forall₂ (Signed (Host.sha256
        (Host.encodeTransaction ⟨p.chainId, p.actions.map Action.unsign⟩)))
        p.actions t.tx.actions) ∧
    (∀ buf p, Host.decodeTransaction buf = some p →
      (∃ s ∈ p.signatures, ¬verify s.publicKey s.signature p.hash) ∨
        (∃ m ∈ p.actions, m.signature? = none) → ∃ e, fromProto buf = .error e) ∧
    ∀ p p' : Proto.Transaction, p.hash = p'.hash → p.chainId = p'.chainId ∧
      p.actions.map Action.unsign = p'.actions.map Action.unsign ∧
      Transaction.ofProto p = Transaction.ofProto p' := by
  refine ⟨fun buf t p h hp ↦ ?_, fun buf p hp hbad ↦ ?_,
    fun p p' ↦ Proto.Transaction.ofProto_of_hash_eq hsha hencode⟩
  · rw [← Proto.Transaction.hash_eq]
    exact ⟨AuthenticatedTx.chainId_eq h hp, AuthenticatedTx.forall₂_signed h hp⟩
  · rcases hbad with ⟨s, hs, hverify⟩ | ⟨m, hm, hnone⟩
    · exact AuthenticatedTx.fromProto_of_not_verify hp hs hverify
    · exact AuthenticatedTx.fromProto_of_unsigned hp hm hnone

end Host

namespace Reference

/-- A signed transaction is accepted, and its action is backed by its signature. -/
theorem signed_found : ∃ t, AuthenticatedTx.fromProto found.bytes = .ok t ∧
    t.tx.chainId.id = found.tx.chainId ∧ List.Forall₂ (Signed (Host.sha256
      (Host.encodeTransaction ⟨found.tx.chainId, found.tx.actions.map Action.unsign⟩)))
      found.tx.actions t.tx.actions := by
  have hdecode : Host.decodeTransaction found.bytes = some found.tx := by decide +kernel
  have hok : (AuthenticatedTx.fromProto found.bytes).toOption.isSome := by decide +kernel
  rcases hread : AuthenticatedTx.fromProto found.bytes with e | t
  · rw [hread] at hok
    cases hok
  · exact ⟨t, rfl,
      (AuthenticatedTx.actions_authentic sha256_injective encodeTransaction_injective).1
        found.bytes t found.tx hread hdecode⟩

end Reference

end Felidae
