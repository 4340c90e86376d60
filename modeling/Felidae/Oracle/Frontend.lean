import Felidae.Oracle.ProofOfWork

/-!
# The enrollment form

What the frontend does with what is entered: a domain is extracted from it, the challenges of the
oracles are asked for, each is solved in the browser, and the domain is submitted to every oracle,
with a token where there is one. The numbers are those of JavaScript, and none of them is too large
to be exact. The URL parser of the browser is taken as given.
-/

namespace Felidae.Frontend

/-! ## Texts and numbers -/

/-- The white space that `String.prototype.trim` removes. -/
def isWhiteSpace (c : Char) : Bool :=
  let n := c.toNat
  (9 ≤ n && n ≤ 13) || n = 0x20 || n = 0xa0 || n = 0x1680 || (0x2000 ≤ n && n ≤ 0x200a)
    || n = 0x2028 || n = 0x2029 || n = 0x202f || n = 0x205f || n = 0x3000 || n = 0xfeff

/-- `String.prototype.trim` -/
def trim (s : Str) : Str := (s.dropWhile isWhiteSpace).rdropWhile isWhiteSpace

/-- `String.prototype.padStart` -/
def padStart (width : ℕ) (c : Char) (s : Str) : Str := List.replicate (width - s.length) c ++ s

/-- `parseInt` with the radix 16, for a text without a sign, white space and `0x`; `none` is
`NaN`. -/
def parseHex (s : Str) : Option ℕ :=
  let digits := (s.takeWhile fun c ↦ (hexValue c).isSome).filterMap hexValue
  if digits = [] then none else some (digits.foldl (fun n d ↦ 16 * n + d) 0)

/-- The zeros before the first other character of `byte.toString(2).padStart(8, '0')`. -/
def leadingBits (byte : Option ℕ) : ℕ :=
  ((padStart 8 '0' (byte.elim "NaN".toList (Nat.toDigits 2))).takeWhile (· = '0')).length

/-- Count leading zero bits in a hex string. -/
def countLeadingZeros : Str → ℕ
  | [] => 0
  | [c] => if parseHex [c] = some 0 then 8 else leadingBits (parseHex [c])
  | c :: d :: hex =>
    if parseHex [c, d] = some 0 then 8 + countLeadingZeros hex else leadingBits (parseHex [c, d])

/-! ## Domains -/

/-- Extract a bare domain from user input, which may be a URL or a plain domain. `hostname` is that
of `new URL`, and `none` where it throws. -/
def parseDomain (hostname : Str → Option Str) (input : Str) : Option Str :=
  if input = [] then none
  else
    match hostname (if "://".toList <:+: input then input else "https://".toList ++ input) with
    | none => none
    | some hostname => if hostname = [] ∨ '.' ∉ hostname then none else some hostname

/-! ## Solving challenges -/

/-- What the frontend has of an oracle: its challenge, or an error if the oracle has failed. -/
structure ChallengeData where
  endpoint : Str
  answer : Except Str PoWChallengeResponse

/-- The safety limit. -/
def maxAttempts : ℕ := 10000000

section Host

variable [Host]

/-- Compute SHA-256 hash. -/
def sha256 (message : Str) : Str :=
  (Host.sha256 (toUtf8 message)).flatMap fun b ↦ padStart 2 '0' (Nat.toDigits 16 b.toNat)

/-- The loop of `computePoW`, with the number of attempts that are left. -/
def searchPoW (challenge : Str) (difficulty : ℕ) : ℕ → ℕ → Except String (ℕ × Str)
  | 0, _ => .error "PoW computation exceeded maximum attempts"
  | attempts + 1, nonce =>
    let hash := sha256 (challenge ++ Nat.toDigits 10 nonce)
    if difficulty ≤ countLeadingZeros hash then .ok (nonce, hash)
    else searchPoW challenge difficulty attempts (nonce + 1)

def computePoW (challenge : Str) (difficulty : ℕ) : Except String (ℕ × Str) :=
  searchPoW challenge difficulty maxAttempts 0

/-- The token for a challenge. One that lacks something is skipped, where 0 counts as lacking, and
so is one that is not solved. -/
def powToken (c : PoWChallengeResponse) : Option PoWToken :=
  if c.challenge = [] ∨ c.difficulty = 0 ∨ c.timestamp = 0 then none
  else (computePoW c.challenge c.difficulty).toOption.map fun r ↦ ⟨c.challenge, r.1, c.timestamp⟩

/-- The tokens by endpoint, with the last one of an endpoint first. -/
def powTokens (validChallenges : List (Str × PoWChallengeResponse)) : List (Str × PoWToken) :=
  (validChallenges.filterMap fun c ↦ (powToken c.2).map fun token ↦ (c.1, token)).reverse

end Host

/-! ## Submitting -/

/-- The body of a request to observe a domain. -/
structure ObserveBody where
  domain : Str
  powToken : Option PoWToken

/-- The domain with a dot at its end. -/
def normalizedDomain (domain : Str) : Str :=
  if (trim domain).getLast? = some '.' then trim domain else trim domain ++ ['.']

/-- `/api/submit`: the requests to the oracles. -/
def submit (domain : Str) (tokens : List (Str × PoWToken)) (oracles : List Str) :
    Except String (List (Str × ObserveBody)) :=
  if domain = [] then .error "Domain is required"
  else .ok (oracles.map fun endpoint ↦
    (endpoint, ⟨normalizedDomain domain, tokens.lookup endpoint⟩))

/-- The challenges that were answered. -/
def validChallenges (challenges : List ChallengeData) : List (Str × PoWChallengeResponse) :=
  challenges.filterMap fun c ↦ c.answer.toOption.map fun r ↦ (c.endpoint, r)

/-- What the oracles have answered instead. -/
def challengeErrors (challenges : List ChallengeData) : Str :=
  List.intercalate "; ".toList (challenges.map fun c ↦
    c.endpoint ++ ": ".toList ++
      match c.answer with
      | .error [] => "Unknown error".toList
      | .error message => message
      | .ok _ => "Unknown error".toList)

section Host

variable [Host]

/-- What is sent to the oracles when they have answered. -/
def submitChallenges (domain : Str) (challenges : List ChallengeData) :
    Except String (List (Str × ObserveBody)) :=
  if validChallenges challenges = [] then
    .error ("Failed to get valid challenges from any oracle: "
      ++ String.ofList (challengeErrors challenges))
  else if powTokens (validChallenges challenges) = [] then
    .error "Failed to compute PoW for any oracle"
  else submit domain (powTokens (validChallenges challenges))
    (challenges.map ChallengeData.endpoint)

/-- Handle form submission: from what is entered to the requests that are sent to the oracles, or
the error that is shown. -/
def handleSubmit (hostname : Str → Option Str)
    (requestPoWChallenges : Str → Except String (List ChallengeData)) (value : Str) :
    Except String (List (Str × ObserveBody)) :=
  match parseDomain hostname (trim value) with
  | none => .error "Please enter a valid domain (e.g., example.com or https://example.com)"
  | some domain =>
    match requestPoWChallenges domain with
    | .error e => .error (s!"Submission failed: Failed to get PoW challenges: {e}. "
        ++ "Are the oracle servers running?")
    | .ok challenges =>
      (submitChallenges domain challenges).mapError fun e ↦ s!"Submission failed: {e}"

end Host

end Felidae.Frontend
