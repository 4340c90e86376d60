import Felidae.Properties.Authentication

/-!
# Signing and authentication

A transaction goes out with a blank signature for each action, the signer fills them in over the
hash of the blank transaction, and authentication takes the same hash, since it empties them
again. What is read then is the transaction that was signed.
-/

namespace Felidae

open Proto

/-- The signatures of a transaction that goes out are blank, one for each action. -/
theorem Transaction.mem_signatures_toProto {t : Transaction} {s : Signature} :
    s ∈ t.toProto.signatures ↔ ∃ a ∈ t.actions, s = .unsigned a.identity := by
  rw [Transaction.toProto, Proto.Transaction.signatures, List.filterMap_map, List.mem_filterMap]
  constructor
  · rintro ⟨a, ha, hs⟩
    exact ⟨a, ha, (Option.some.inj (a.signature?_toProto.symm.trans hs)).symm⟩
  · rintro ⟨a, ha, rfl⟩
    exact ⟨a, ha, a.signature?_toProto⟩

section Host

variable [Host]

/-- A signer whose signatures verify under the keys it holds. -/
def Signer.Verifies (signer : Signer) : Prop := ∀ publicKey digest signature,
  signer publicKey digest = some signature →
    signature.length = 64 ∧ Host.ecdsaVerify publicKey digest signature = true

/-- A signed transaction passes the verification it will be put to. -/
theorem Signer.Verifies.verify_of_signAll {signer : Signer} (hsigner : signer.Verifies)
    {tx tx' : Proto.Transaction} (hsign : tx.signAll signer = .ok tx') :
    ∀ s ∈ tx'.signatures, verify s.publicKey s.signature tx'.hash := by
  obtain ⟨rfl, hall⟩ := signAll_eq_ok.mp hsign
  have hhash : Proto.Transaction.hash
      (Traverse.traverseMut (Signature.fill signer tx.hash) tx) = tx.hash := by
    rw [Proto.Transaction.hash, unsignAll_traverseMut (clear_fill signer tx.hash),
      ← Proto.Transaction.hash]
  intro s hs
  rw [signatures_traverseMut] at hs
  obtain ⟨blank, hblank, rfl⟩ := List.mem_map.mp hs
  obtain ⟨hempty, hkey⟩ := hall blank hblank
  obtain ⟨signature, hsignature⟩ := Option.isSome_iff_exists.mp hkey
  rw [hhash, Signature.fill, if_pos hempty, hsignature]
  exact verify_eq_true.mpr (hsigner _ _ _ hsignature)

/-- Conversion does not look at what was signed. -/
theorem Transaction.ofProto_of_signAll {signer : Signer} {tx tx' : Proto.Transaction}
    (hsign : tx.signAll signer = .ok tx') : Transaction.ofProto tx' = Transaction.ofProto tx := by
  obtain ⟨rfl, -⟩ := signAll_eq_ok.mp hsign
  rw [← Transaction.ofProto_unsignAll, unsignAll_traverseMut (clear_fill signer tx.hash),
    Transaction.ofProto_unsignAll]

/-- A transaction that was read can be signed by whoever holds the keys of all its actions, and is
then accepted as it is; a signer without one of the keys, at any place, returns an error. -/
theorem Transaction.authenticates_signed [LawfulHost] {m : Proto.Transaction} {t : Transaction}
    (ht : Transaction.ofProto m = .ok t) {signer : Signer} (hsigner : signer.Verifies)
    (hcodec : ∀ tx, t.toProto.signAll signer = .ok tx →
      Host.decodeTransaction (Host.encodeTransaction tx) = some tx) :
    ((∀ a ∈ t.actions, (signer a.identity t.toProto.hash).isSome) →
      ∃ buf, t.signToProto signer = .ok buf ∧ AuthenticatedTx.fromProto buf = .ok ⟨t⟩) ∧
    ((∃ a ∈ t.actions, signer a.identity t.toProto.hash = none) →
      ∃ e, t.signToProto signer = .error e) := by
  refine ⟨fun hkeys ↦ ?_, fun ⟨a, ha, hnone⟩ ↦ ?_⟩
  · have hsign : t.toProto.signAll signer = .ok (Traverse.traverseMut
        (Signature.fill signer t.toProto.hash) t.toProto) := by
      refine signAll_eq_ok.mpr ⟨rfl, fun s hs ↦ ?_⟩
      obtain ⟨a, ha, rfl⟩ := Transaction.mem_signatures_toProto.mp hs
      exact ⟨rfl, hkeys a ha⟩
    refine ⟨_, by rw [Transaction.signToProto, Proto.Transaction.signToProto, hsign]; rfl, ?_⟩
    refine AuthenticatedTx.fromProto_eq_ok.mpr
      ⟨_, hcodec _ hsign, hsigner.verify_of_signAll hsign, ?_⟩
    rw [Transaction.ofProto_of_signAll hsign, Transaction.ofProto_toProto ht]
  · rcases hsign : t.toProto.signAll signer with e | tx
    · exact ⟨e, by rw [Transaction.signToProto, Proto.Transaction.signToProto, hsign]; rfl⟩
    · -- the fold cannot forget the action without a key
      obtain ⟨-, hall⟩ := signAll_eq_ok.mp hsign
      have hkey := (hall _ (Transaction.mem_signatures_toProto.mpr ⟨a, ha, rfl⟩)).2
      rw [Signature.unsigned, hnone] at hkey
      cases hkey

end Host

namespace Reference

/-- A signer of the samples, with the keys it is given. -/
def keyring (keys : List Bytes) : Signer := fun publicKey digest ↦
  if publicKey ∈ keys then
    (samples.find? fun x ↦ bytesOf 32 x.digest = digest &&
      x.tx.signatures.any fun s ↦ s.publicKey = publicKey).map Sample.signature
  else none

theorem verifies_keyring (keys : List Bytes) : (keyring keys).Verifies := by
  intro publicKey digest signature h
  rw [keyring] at h
  split at h
  next =>
    obtain ⟨x, hx, rfl⟩ := Option.map_eq_some_iff.mp h
    have hmatch := List.find?_some hx
    rw [Bool.and_eq_true] at hmatch
    refine ⟨by simp [Sample.signature, bytesOf], List.any_eq_true.mpr
      ⟨x, List.mem_of_find?_eq_some hx, ?_⟩⟩
    simp [hmatch.1, hmatch.2]
  next => cases h

/-- Two votes of `alice` in one transaction are signed with her key, and not with that of `bob`. -/
theorem authenticates_signed_foundTwice : ∃ t buf,
    Transaction.signToProto (keyring [alice]) t = .ok buf ∧
      AuthenticatedTx.fromProto buf = .ok ⟨t⟩ ∧
      ∃ e, Transaction.signToProto (keyring [bob]) t = .error e := by
  have hread : (Transaction.ofProto foundTwice.unsigned).toOption.any fun t ↦
      (t.actions.all fun a ↦ (keyring [alice] a.identity t.toProto.hash).isSome) &&
      (t.actions.any fun a ↦ decide (keyring [bob] a.identity t.toProto.hash = none)) &&
      decide ((t.toProto.signAll (keyring [alice])).toOption = some foundTwice.tx) &&
      decide ((t.toProto.signAll (keyring [bob])).toOption = none) := by decide +kernel
  have hcodec : Host.decodeTransaction (Host.encodeTransaction foundTwice.tx)
      = some foundTwice.tx := by decide +kernel
  obtain ⟨t, ht, hchecks⟩ := (Option.any_eq_true ..).mp hread
  simp only [Bool.and_eq_true, List.all_eq_true, List.any_eq_true, decide_eq_true_iff] at hchecks
  obtain ⟨⟨⟨hkeys, hlacks⟩, halice⟩, hbob⟩ := hchecks
  have hread' : Transaction.ofProto foundTwice.unsigned = .ok t := by
    rcases hof : Transaction.ofProto foundTwice.unsigned with e | t' <;> rw [hof] at ht
    · cases ht
    · rw [Option.some.inj ht]
  obtain ⟨buf, hsign, haccept⟩ := (Transaction.authenticates_signed hread'
    (verifies_keyring [alice]) fun tx htx ↦ by
      rw [htx] at halice
      exact (Option.some.inj halice).symm ▸ hcodec).1 hkeys
  refine ⟨t, buf, hsign, haccept, (Transaction.authenticates_signed hread'
    (verifies_keyring [bob]) fun tx htx ↦ ?_).2 hlacks⟩
  rw [htx] at hbob
  cases hbob

end Reference

end Felidae
