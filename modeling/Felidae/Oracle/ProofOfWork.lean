import Felidae.Foundation.Check
import Felidae.Store

/-!
# Proof of work

The oracle server hands out a challenge for a domain, and asks for a nonce before it observes one.
A challenge is a hash of the domain, the time and a secret, so nothing is stored about it: the
server computes it again from the domain of the submission and the timestamp of the token.
-/

namespace Felidae

/-! ## Whitespace -/

/-- `char::is_whitespace` -/
def isWhitespace (c : Char) : Bool :=
  let n := c.toNat
  (9 ≤ n && n ≤ 13) || n = 0x20 || n = 0x85 || n = 0xa0 || n = 0x1680
    || (0x2000 ≤ n && n ≤ 0x200a) || n = 0x2028 || n = 0x2029 || n = 0x202f || n = 0x205f
    || n = 0x3000

/-- `str::trim` -/
def trim (s : Str) : Str := (s.dropWhile isWhitespace).rdropWhile isWhitespace

/-- A text with no whitespace around it and no dot at its end. -/
structure Bare (s : Str) : Prop where
  head : ∀ c ∈ s.head?, isWhitespace c = false
  last : ∀ c ∈ s.getLast?, isWhitespace c = false ∧ c ≠ '.'

instance (s : Str) : Decidable (Bare s) :=
  decidable_of_iff (s.head?.all (!isWhitespace ·) ∧
    s.getLast?.all fun c ↦ !isWhitespace c && c != '.')
    ⟨fun h ↦ ⟨by simpa [Option.all_eq_true] using h.1, by simpa [Option.all_eq_true] using h.2⟩,
      fun h ↦ ⟨by simpa [Option.all_eq_true] using h.head,
        by simpa [Option.all_eq_true] using h.last⟩⟩

/-! ## Leading zeros -/

/-- `u8::leading_zeros` -/
def leadingZeros (byte : UInt8) : ℕ := if byte = 0 then 8 else 7 - byte.toNat.log2

/-- The zero bits before the first one bit, as the frontend counts them. -/
def countLeadingZeros : Bytes → ℕ
  | [] => 0
  | byte :: hash => if byte = 0 then 8 + countLeadingZeros hash else leadingZeros byte

/-- Adding to a `u8`; an overflow panics. -/
def addU8 (a b : ℕ) : Except Fault ℕ :=
  if a + b < 256 then .ok (a + b) else .error (.panic "attempt to add with overflow")

/-- The loop that counts the zero bits of a hash in a `u8`. -/
def countZeroBits : ℕ → Bytes → Except Fault ℕ
  | zeros, [] => .ok zeros
  | zeros, byte :: hash =>
    if byte = 0 then do
      let zeros ← addU8 zeros 8
      countZeroBits zeros hash
    else addU8 zeros (leadingZeros byte)

/-- The server counts what the frontend does, as long as a byte holds it. -/
theorem countZeroBits_eq : ∀ (hash : Bytes) {zeros : ℕ}, zeros < 256 →
    countZeroBits zeros hash
      = if zeros + countLeadingZeros hash < 256 then .ok (zeros + countLeadingZeros hash)
        else .error (.panic "attempt to add with overflow")
  | [], zeros, hzeros => by
    rw [countZeroBits, countLeadingZeros, Nat.add_zero, if_pos hzeros]
  | byte :: hash, zeros, hzeros => by
    rw [countZeroBits, countLeadingZeros]
    by_cases hbyte : byte = 0
    · rw [if_pos hbyte, if_pos hbyte, addU8]
      by_cases hadd : zeros + 8 < 256
      · rw [if_pos hadd, except_ok_bind, countZeroBits_eq hash hadd, Nat.add_assoc]
      · rw [if_neg hadd, except_error_bind, if_neg (by omega)]
    · rw [if_neg hbyte, if_neg hbyte, addU8]

/-! ## The server -/

/-- `PoWToken` -/
structure PoWToken where
  challenge : Str
  nonce : ℕ
  timestamp : ℕ
  deriving DecidableEq

structure ObserveRequest where
  domain : Str
  powToken : PoWToken

/-- `PoWChallengeResponse` -/
structure PoWChallengeResponse where
  challenge : Str
  timestamp : ℕ
  difficulty : ℕ

structure ObserveResponse where
  success : Bool
  message : String
  txHash : Option String
  deriving DecidableEq

/-- The fields of `AppState` that the proof of work reads. -/
structure AppState where
  powSecret : Str
  powDifficulty : ℕ

/-- A status code with the response that explains it. -/
abbrev Refused : Type := ℕ × ObserveResponse

/-- `domain.trim().trim_end_matches('.')` -/
def normalizeDomain (domain : Str) : Str := trimEnd '.' (trim domain)

/-- What is hashed into a challenge. -/
def challengeData (domain : Str) (timestamp : ℕ) (secret : Str) : Str :=
  domain ++ ':' :: (Nat.toDigits 10 timestamp ++ ':' :: secret)

/-- `u64::abs_diff` -/
def absDiff (a b : ℕ) : ℕ := (a - b) + (b - a)

variable [Host]

/-- Generate a domain-bound PoW challenge. -/
def generatePowChallenge (domain : Str) (timestamp : ℕ) (secret : Str) : Str :=
  hexEncode (Host.sha256 (toUtf8 (challengeData domain timestamp secret)))

/-- The hash that has to begin with zero bits. -/
def powHash (challenge : Str) (nonce : ℕ) : Bytes :=
  Host.sha256 (toUtf8 (challenge ++ Nat.toDigits 10 nonce))

/-- Validate a PoW token, at a time in seconds since 1970. -/
def validatePowToken (now : ℕ) (token : PoWToken) (domain secret : Str) (difficulty : ℕ) :
    Except Fault Bool :=
  let expectedChallenge := generatePowChallenge domain token.timestamp secret
  if expectedChallenge ≠ token.challenge then .ok false
  else if 5 * 60 < absDiff now token.timestamp then .ok false
  else do
    let zeros ← countZeroBits 0 (powHash token.challenge token.nonce)
    if zeros < difficulty then return false else return true

/-- Handle PoW challenge request. -/
def handlePowChallenge (state : AppState) (now : ℕ) (params : Str → Option Str) :
    Except Refused PoWChallengeResponse :=
  match params "domain".toList with
  | none => .error (400, ⟨false, "domain parameter is required", none⟩)
  | some domain =>
    .ok ⟨generatePowChallenge domain now state.powSecret, now, state.powDifficulty⟩

/-- `handle_observe`: the token is checked for the domain without its spelling, and the domain as
it is spelled goes on to be observed. -/
def handleObserve (state : AppState) (now : ℕ) (observe : Str → Except Refused ObserveResponse)
    (req : ObserveRequest) : Except Fault (Except Refused ObserveResponse) := do
  let normalizedDomain := normalizeDomain req.domain
  let valid ← validatePowToken now req.powToken normalizedDomain state.powSecret
    state.powDifficulty
  if valid then return observe req.domain
  else return .error (403, ⟨false, "Invalid or expired PoW token", none⟩)

end Felidae
