import Felidae.Transaction.Sign

/-!
# Key pairs and the builder

What the clients share: a key pair signs under its own public key, a collection of key pairs under
those it holds, and a builder collects the actions of a transaction.
-/

namespace Felidae

open Proto

/-- The keys of the `p256` crate. -/
class P256 where
  SigningKey : Type
  /-- `SecretKey::from_pkcs8_der` -/
  fromPkcs8Der : Bytes → Option SigningKey
  /-- `SecretKey::to_pkcs8_der` -/
  toPkcs8Der : SigningKey → Option Bytes
  /-- The verifying key, as an uncompressed point. -/
  verifyingKey : SigningKey → Bytes
  sign : SigningKey → Bytes → Bytes

/-- A key that was written is read back. -/
class LawfulP256 [P256] : Prop where
  fromPkcs8Der_toPkcs8Der : ∀ (key : P256.SigningKey) (pkcs8 : Bytes),
    P256.toPkcs8Der key = some pkcs8 → P256.fromPkcs8Der pkcs8 = some key

variable [P256]

/-! ## Key pairs -/

structure KeyPair where
  signingKey : P256.SigningKey

namespace KeyPair

/-- Get the public key corresponding to this keypair. -/
def publicKey (k : KeyPair) : Bytes := P256.verifyingKey k.signingKey

/-- Create a new keypair from the given PKCS#8-encoded private key. -/
def decode (pkcs8 : Bytes) : Option KeyPair := (P256.fromPkcs8Der pkcs8).map KeyPair.mk

/-- Serialize the keypair to PKCS#8 format. -/
def encode (k : KeyPair) : Option Bytes := P256.toPkcs8Der k.signingKey

/-- `impl Signer for KeyPair` -/
def signWith (k : KeyPair) : Signer := fun publicKey digest ↦
  if k.publicKey = publicKey then some (P256.sign k.signingKey digest) else none

theorem decode_encode [LawfulP256] {k : KeyPair} {pkcs8 : Bytes} (h : k.encode = some pkcs8) :
    decode pkcs8 = some k := by
  rw [decode, LawfulP256.fromPkcs8Der_toPkcs8Der _ _ h]
  rfl

theorem signWith_eq_some {k : KeyPair} {publicKey digest signature : Bytes} :
    k.signWith publicKey digest = some signature ↔
      k.publicKey = publicKey ∧ P256.sign k.signingKey digest = signature := by
  rw [signWith, Option.ite_none_right_eq_some, Option.some_inj]

/-- The signature over a digest verifies under the public key. -/
def Genuine [Host] (k : KeyPair) (digest : Bytes) : Prop :=
  verify k.publicKey (P256.sign k.signingKey digest) digest = true

end KeyPair

/-! ## Collections of key pairs -/

/-- A collection of keypairs, indexed by public key. -/
structure KeyPairs where
  keypairs : Bytes → Option KeyPair
  /-- Each is held under its own public key. -/
  own : ∀ p k, keypairs p = some k → k.publicKey = p

namespace KeyPairs

/-- Create an empty collection of keypairs. -/
def new : KeyPairs := ⟨fun _ ↦ none, fun _ _ h ↦ by cases h⟩

/-- Insert a keypair into the collection. -/
def insert (keypair : KeyPair) (ks : KeyPairs) : KeyPairs where
  keypairs p := if p = keypair.publicKey then some keypair else ks.keypairs p
  own p k h := by
    split_ifs at h with hp
    · rw [← Option.some.inj h, hp]
    · exact ks.own p k h

/-- Remove a keypair from the collection by its public key. -/
def remove (publicKey : Bytes) (ks : KeyPairs) : KeyPairs × Bool where
  fst := {
    keypairs := fun p ↦ if p = publicKey then none else ks.keypairs p
    own := fun p k h ↦ ks.own p k (Option.ite_none_left_eq_some.mp h).2 }
  snd := (ks.keypairs publicKey).isSome

/-- `impl FromIterator<KeyPair> for KeyPairs` -/
def fromIter (iter : List KeyPair) : KeyPairs := iter.foldl (fun ks k ↦ ks.insert k) new

/-- `impl Signer for KeyPairs` -/
def signWith (ks : KeyPairs) : Signer := fun publicKey digest ↦
  (ks.keypairs publicKey).bind fun k ↦ k.signWith publicKey digest

/-- A collection signs under the public keys it holds, each with the key pair itself. -/
theorem signWith_eq_some {ks : KeyPairs} {publicKey digest signature : Bytes} :
    ks.signWith publicKey digest = some signature ↔ ∃ k, ks.keypairs publicKey = some k ∧
      P256.sign k.signingKey digest = signature := by
  simp only [signWith, Option.bind_eq_some_iff, KeyPair.signWith_eq_some]
  exact exists_congr fun k ↦ and_congr_right fun hk ↦ and_iff_right (ks.own _ k hk)

/-- Of the key pairs with one public key the last one inserted is held. -/
theorem keypairs_fromIter (iter : List KeyPair) (p : Bytes) :
    (fromIter iter).keypairs p = iter.reverse.find? fun k ↦ k.publicKey = p := by
  rw [fromIter, ← List.foldr_reverse]
  induction iter.reverse with
  | nil => rfl
  | cons k ks ih =>
    by_cases hp : k.publicKey = p
    · rw [List.find?_cons_of_pos (by simpa using hp)]
      exact if_pos hp.symm
    · rw [List.find?_cons_of_neg (by simpa using hp), ← ih]
      exact if_neg (Ne.symm hp)

end KeyPairs

/-! ## The builder -/

omit [P256]

/-- `transaction::Builder` -/
structure Builder where
  chainId : ChainId
  actions : List Action

namespace Builder

def new (chainId : ChainId) : Builder := ⟨chainId, []⟩

def action (b : Builder) (a : Action) : Builder := ⟨b.chainId, b.actions ++ [a]⟩

def reconfigure (b : Builder) (admin : Bytes) (notBefore notAfter : Time) (config : Config) :
    Builder :=
  b.action (.reconfigure ⟨config, notBefore, notAfter, ⟨admin⟩⟩)

def observe (b : Builder) (oracle : Bytes) (observation : Observation) : Builder :=
  b.action (.observe ⟨observation, ⟨oracle⟩⟩)

def build (b : Builder) : Transaction := ⟨b.chainId, b.actions⟩

end Builder

end Felidae
