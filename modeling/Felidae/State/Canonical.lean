import Felidae.VoteQueue.Queue

/-!
# The canonical state

The canonical substore maps each domain to its most recently observed hash. The key is the name
from the top-level label down, `.com.example` for `example.com`, so that the subdomains of a
domain are the keys that start with its own key and a dot.
-/

namespace Felidae.State

variable [Host]

/-- Get the canonical hash for a given subdomain, if it exists. -/
def canonicalHash (subdomain : Domain) (s : Store) : Except Fault (Option Hash32) := do
  let key := (PrefixOrderDomain.ofDomain subdomain).display
  match ← Store.get Bytes .canonical key s with
  | none => return none
  | some bytes =>
    if h : bytes.length = 32 then
      return some ⟨bytes, h⟩
    else
      throw (.corrupt
        s!"canonical hash for {String.ofList subdomain.name.display} has invalid length")

/-- A stream of the canonical hashes for every subdomain under a registered domain, not including
the registered domain itself. The key of the root ends with a dot already. -/
def canonicalStrictSubdomainsHashes (registeredDomain : Domain) (s : Store) :
    Results (Domain × Hash32) :=
  let key := (PrefixOrderDomain.ofDomain registeredDomain).display
  let key := if registeredDomain.name ≠ .root then key ++ ['.'] else key
  (s.scan Bytes .canonical key).andThen fun (key, bytes) ↦ do
    let prefixOrdered ← okOr (PrefixOrderDomain.fromStr key) (.corrupt "invalid domain name")
    let domain := prefixOrdered.toDomain
    if h : bytes.length = 32 then
      return (domain, ⟨bytes, h⟩)
    else
      throw (.corrupt
        s!"canonical hash for {String.ofList domain.name.display} has invalid length")

/-- A stream of the canonical hashes for every subdomain including the registered domain itself. -/
def canonicalSubdomainsHashes (registeredDomain : Domain) (s : Store) :
    Except Fault (Results (Domain × Hash32)) := do
  let subdomains := canonicalStrictSubdomainsHashes registeredDomain s
  match ← canonicalHash registeredDomain s with
  | some hash => return .ok (registeredDomain, hash) :: subdomains
  | none => return subdomains

/-- All subdomains under a registered domain in the canonical state, not including the registered
domain itself. The key always gets a dot, that of the root too. -/
def canonicalStrictSubdomains (registeredDomain : Domain) (s : Store) :
    Except Fault (List Domain) :=
  let key := (PrefixOrderDomain.ofDomain registeredDomain).display ++ ['.']
  collect (fun key ↦
      (okOr (PrefixOrderDomain.fromStr key) (.corrupt "invalid domain name")).map
        PrefixOrderDomain.toDomain)
    (s.scanKeys .canonical key).untilError

/-- All subdomains including the registered domain itself in the canonical state. -/
def canonicalSubdomains (registeredDomain : Domain) (s : Store) : Except Fault (List Domain) := do
  let subdomains ← canonicalStrictSubdomains registeredDomain s
  match ← canonicalHash registeredDomain s with
  | some _ => return subdomains ++ [registeredDomain]
  | none => return subdomains

/-- Update the canonical hash for a given subdomain. -/
def updateCanonical (subdomain : Domain) (hashObserved : HashObserved) : Command Unit :=
  let key := (PrefixOrderDomain.ofDomain subdomain).display
  match hashObserved with
  | .hash hash => Exec.modify (Store.put (V := Bytes) .canonical key hash.bytes)
  | .notFound => Exec.modify (Store.delete .canonical key)

end Felidae.State
