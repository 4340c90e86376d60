import Felidae.Client.Reference
import Felidae.Properties.Signing

/-!
# Signing what was built

A transaction that was built is signed by whoever holds the keys of all its actions. If the
signatures are genuine and the message survives its encoding, the chain authenticates it, as what
its actions are read back as.
-/

namespace Felidae

open Proto

namespace Action

variable [Host] [LawfulHost]

/-- An action as it is read back: of a config, what a transaction can carry. -/
def readBack : Action → Action
  | .reconfigure r => .reconfigure { r with config := r.config.readBack }
  | .observe o => .observe o

theorem ofProto_toProto_readBack (a : Action) : ofProto a.toProto = .ok a.readBack := by
  cases a with
  | reconfigure r => exact except_map_eq_ok.mpr ⟨_, r.ofProto_toProto, rfl⟩
  | observe o => exact except_map_eq_ok.mpr ⟨_, o.ofProto_toProto, rfl⟩

end Action

namespace Transaction

variable [Host] {t : Transaction} {signer : Signer} {buf : Bytes}

/-- The message of a transaction, with its signatures filled in. -/
def signed (t : Transaction) (signer : Signer) : Proto.Transaction :=
  Traverse.traverseMut (Signature.fill signer t.toProto.hash) t.toProto

/-- Whoever holds the keys of all actions signs a transaction. -/
theorem signToProto_eq_ok : t.signToProto signer = .ok buf ↔
    buf = Host.encodeTransaction (t.signed signer) ∧
      ∀ a ∈ t.actions, (signer a.identity t.toProto.hash).isSome := by
  simp only [signToProto, Proto.Transaction.signToProto, except_bind_eq_ok, signAll_eq_ok,
    mem_signatures_toProto]
  constructor
  · rintro ⟨tx, ⟨rfl, hall⟩, hbuf⟩
    exact ⟨(Except.ok.inj hbuf).symm, fun a ha ↦ (hall _ ⟨a, ha, rfl⟩).2⟩
  · rintro ⟨rfl, hkeys⟩
    refine ⟨_, ⟨rfl, ?_⟩, rfl⟩
    rintro s ⟨a, ha, rfl⟩
    exact ⟨rfl, hkeys a ha⟩

variable [LawfulHost]

/-- A transaction that was signed with genuine signatures authenticates, as what its actions are
read back as. -/
theorem fromProto_of_signToProto (h : t.signToProto signer = .ok buf)
    (hgenuine : ∀ a ∈ t.actions, ∀ signature, signer a.identity t.toProto.hash = some signature →
      verify a.identity signature t.toProto.hash = true)
    (hcodec : Host.decodeTransaction (Host.encodeTransaction (t.signed signer))
      = some (t.signed signer)) :
    AuthenticatedTx.fromProto buf = .ok ⟨⟨t.chainId, t.actions.map Action.readBack⟩⟩ := by
  obtain ⟨rfl, hkeys⟩ := signToProto_eq_ok.mp h
  have hsign : t.toProto.signAll signer = .ok (t.signed signer) := by
    refine signAll_eq_ok.mpr ⟨rfl, fun s hs ↦ ?_⟩
    obtain ⟨a, ha, rfl⟩ := mem_signatures_toProto.mp hs
    exact ⟨rfl, hkeys a ha⟩
  refine AuthenticatedTx.fromProto_eq_ok.mpr ⟨_, hcodec, fun s hs ↦ ?_, ?_⟩
  · -- the signatures are left out of the hash, so it is the same before they are filled in
    have hhash : (t.signed signer).hash = t.toProto.hash := by
      rw [Proto.Transaction.hash, signed, unsignAll_traverseMut (clear_fill signer _),
        ← Proto.Transaction.hash]
    rw [signed, signatures_traverseMut, List.mem_map] at hs
    obtain ⟨blank, hblank, rfl⟩ := hs
    obtain ⟨a, ha, rfl⟩ := mem_signatures_toProto.mp hblank
    obtain ⟨signature, hsignature⟩ := Option.isSome_iff_exists.mp (hkeys a ha)
    have hfill : (Signature.unsigned a.identity).fill signer t.toProto.hash
        = ⟨a.identity, signature⟩ := by
      rw [Signature.fill, Signature.unsigned, if_pos rfl, hsignature, Option.getD_some]
    rw [hhash, hfill]
    exact hgenuine a ha signature hsignature
  · rw [ofProto_of_signAll hsign, ofProto, toProto,
      collect_map_eq_ok fun a _ ↦ a.ofProto_toProto_readBack]
    rfl

end Transaction

/-! ## Key pairs -/

section KeyPairs

variable [Host] [P256]

/-- What the other crates do for a transaction signed with a key pair: its message is decoded as
it was encoded, and the signature verifies. -/
structure KeyPair.Reliable (k : KeyPair) (t : Transaction) : Prop where
  codec : Host.decodeTransaction (Host.encodeTransaction (t.signed k.signWith))
    = some (t.signed k.signWith)
  genuine : k.Genuine t.toProto.hash

variable [LawfulHost]

/-- A key pair signs the transactions of its own actions, and they authenticate. -/
theorem KeyPair.Reliable.signs {k : KeyPair} {t : Transaction} (h : k.Reliable t)
    (hown : ∀ a ∈ t.actions, a.identity = k.publicKey) : ∃ buf, t.signToProto k.signWith = .ok buf ∧
      AuthenticatedTx.fromProto buf = .ok ⟨⟨t.chainId, t.actions.map Action.readBack⟩⟩ := by
  have hsign : t.signToProto k.signWith = .ok (Host.encodeTransaction (t.signed k.signWith)) := by
    refine Transaction.signToProto_eq_ok.mpr ⟨rfl, fun a ha ↦ ?_⟩
    rw [KeyPair.signWith, if_pos (hown a ha).symm]
    rfl
  refine ⟨_, hsign, Transaction.fromProto_of_signToProto hsign (fun a ha signature hs ↦ ?_) h.codec⟩
  obtain ⟨-, rfl⟩ := KeyPair.signWith_eq_some.mp hs
  rw [hown a ha]
  exact h.genuine

/-- A collection after some removals. -/
def KeyPairs.removeAll (removed : List Bytes) (ks : KeyPairs) : KeyPairs :=
  removed.foldl (fun ks p ↦ (ks.remove p).1) ks

omit [Host] [LawfulHost] in
theorem KeyPairs.keypairs_removeAll (removed : List Bytes) (ks : KeyPairs) (p : Bytes) :
    (ks.removeAll removed).keypairs p = if p ∈ removed then none else ks.keypairs p := by
  induction removed generalizing ks with
  | nil => rfl
  | cons q removed ih =>
    rw [removeAll, List.foldl_cons, ← removeAll, ih]
    by_cases hq : p = q
    · subst hq
      simp [remove]
    · simp [remove, hq]

/-- A collection of key pairs signs exactly the transactions all of whose actions are of parties
whose key pairs it was made of and has not removed since; and what it signs authenticates. -/
theorem KeyPairs.signs_built {iter : List KeyPair} {removed : List Bytes} {ks : KeyPairs}
    (hks : ks = (fromIter iter).removeAll removed) {t : Transaction}
    (hgenuine : ∀ k ∈ iter, k.Genuine t.toProto.hash)
    (hcodec : Host.decodeTransaction (Host.encodeTransaction (t.signed ks.signWith))
      = some (t.signed ks.signWith)) :
    ((∃ buf, t.signToProto ks.signWith = .ok buf) ↔
      ∀ a ∈ t.actions, a.identity ∉ removed ∧ ∃ k ∈ iter, k.publicKey = a.identity) ∧
    ∀ buf, t.signToProto ks.signWith = .ok buf →
      AuthenticatedTx.fromProto buf = .ok ⟨⟨t.chainId, t.actions.map Action.readBack⟩⟩ := by
  have hheld : ∀ p k, ks.keypairs p = some k → p ∉ removed ∧ k ∈ iter := by
    intro p k hk
    rw [hks, keypairs_removeAll, Option.ite_none_left_eq_some, keypairs_fromIter] at hk
    exact ⟨hk.1, List.mem_reverse.mp (List.mem_of_find?_eq_some hk.2)⟩
  constructor
  · simp only [Transaction.signToProto_eq_ok, exists_eq_left]
    refine forall₂_congr fun a _ ↦ ?_
    rw [Option.isSome_iff_exists]
    simp only [signWith_eq_some]
    constructor
    · rintro ⟨-, k, hk, -⟩
      exact ⟨(hheld _ _ hk).1, k, (hheld _ _ hk).2, ks.own _ _ hk⟩
    · rintro ⟨hremoved, k, hk, hown⟩
      -- the last key pair of a party is the one that is held
      have hfind : (iter.reverse.find? fun k ↦ k.publicKey = a.identity).isSome :=
        List.find?_isSome.mpr ⟨k, List.mem_reverse.mpr hk, decide_eq_true hown⟩
      obtain ⟨k', hk'⟩ := Option.isSome_iff_exists.mp hfind
      refine ⟨_, k', ?_, rfl⟩
      rw [hks, keypairs_removeAll, if_neg hremoved, keypairs_fromIter, hk']
  · intro buf hsign
    refine Transaction.fromProto_of_signToProto hsign (fun a _ signature hs ↦ ?_) hcodec
    obtain ⟨k, hk, rfl⟩ := signWith_eq_some.mp hs
    rw [← ks.own _ _ hk]
    exact hgenuine k (hheld _ _ hk).2

end KeyPairs

namespace Client

/-- The collection of the reference oracle's key pair, from which another key has been removed. -/
def keyPairs : KeyPairs := (KeyPairs.fromIter [keyPair]).removeAll [Reference.alice]

theorem reliable_observing : keyPair.Reliable observing where
  codec := by decide +kernel
  genuine := show verify _ _ _ = true by decide +kernel

theorem signs_built_observing :
    ((∃ buf, observing.signToProto keyPairs.signWith = .ok buf) ↔ ∀ a ∈ observing.actions,
      a.identity ∉ [Reference.alice] ∧ ∃ k ∈ [keyPair], k.publicKey = a.identity) ∧
    ∀ buf, observing.signToProto keyPairs.signWith = .ok buf →
      AuthenticatedTx.fromProto buf
        = .ok ⟨⟨observing.chainId, observing.actions.map Action.readBack⟩⟩ :=
  KeyPairs.signs_built rfl (List.forall_mem_singleton.mpr reliable_observing.genuine)
    (by decide +kernel)

end Client

end Felidae
