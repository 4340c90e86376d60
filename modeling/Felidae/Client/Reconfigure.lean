import Felidae.Client.Witness

/-!
# Proposing a config

The admin client's `reconfigure`: a config is put into a transaction that is valid from a grace
period before the wall clock's time until a timeout after it, signed with the admin's key, and put
to the chain's own authentication before it is handed out.
-/

namespace Felidae

namespace Time

/-- The time at a number of nanoseconds since 1970, if it is in the years 1 to 9999. -/
def ofTotal (n : ℤ) : Option Time := fromUnixTimestamp (n / 1000000000) (n % 1000000000).toNat

/-- `Time - Duration` -/
def checkedSub (t : Time) (d : Duration) : Option Time := ofTotal (t.total - d)

/-- `Time + Duration` -/
def checkedAdd (t : Time) (d : Duration) : Option Time := ofTotal (t.total + d)

theorem ofTotal_eq_some {n : ℤ} {t : Time} : ofTotal n = some t ↔ t.total = n := by
  rw [ofTotal, fromUnixTimestamp]
  have hnanos : (n % 1000000000).toNat < 1000000000 := by omega
  constructor
  · intro h
    split_ifs at h
    rw [← Option.some.inj h, total]
    dsimp only
    omega
  · rintro rfl
    obtain ⟨secs, nanos, hvalid, hlt⟩ := t
    have hdiv : total ⟨secs, nanos, hvalid, hlt⟩ / 1000000000 = secs := by
      rw [total]
      dsimp only
      omega
    have hmod : (total ⟨secs, nanos, hvalid, hlt⟩ % 1000000000).toNat = nanos := by
      rw [total]
      dsimp only
      omega
    rw [hdiv, hmod, dif_pos ⟨hvalid, hlt⟩]

theorem checkedSub_eq_some {t u : Time} {d : Duration} :
    t.checkedSub d = some u ↔ u.total = t.total - d := ofTotal_eq_some

theorem checkedAdd_eq_some {t u : Time} {d : Duration} :
    t.checkedAdd d = some u ↔ u.total = t.total + d := ofTotal_eq_some

end Time

/-- Errors that may occur when creating a reconfiguration transaction. -/
inductive ReconfigureError where
  | sign (e : SignError)
  | auth (e : ParseError)
  | invalidSigningKey
  | invalidTimeout
  deriving DecidableEq

/-- Default grace period for the `not_before` timestamp in reconfiguration transactions. -/
def defaultNotBeforeGracePeriod : Duration := .ofSecs 300

variable [Host] [P256]

/-- Create a hex-encoded, signed transaction that proposes a config on the given chain, at the wall
clock's time `now`. -/
def Admin.reconfigure (now : Time) (signingKey : Bytes) (chainId : Str) (timeout : Duration)
    (notBeforeGrace : Option Duration) (config : Config) : Except ReconfigureError Str := do
  let keypair ← okOrElse (KeyPair.decode signingKey) .invalidSigningKey
  let admin := keypair.publicKey
  let grace := notBeforeGrace.getD defaultNotBeforeGracePeriod
  let notBefore ← okOrElse (now.checkedSub grace) .invalidTimeout
  let notAfter ← okOrElse (notBefore.checkedAdd grace) .invalidTimeout
  let notAfter ← okOrElse (notAfter.checkedAdd timeout) .invalidTimeout
  let tx := ((Builder.new ⟨chainId⟩).reconfigure admin notBefore notAfter config).build
  let tx ← (tx.signToProto keypair.signWith).mapError .sign
  let _authTx ← (AuthenticatedTx.fromProto tx).mapError .auth
  return hexEncode tx

end Felidae
