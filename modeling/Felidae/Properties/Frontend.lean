import Felidae.Oracle.Frontend
import Felidae.Properties.ProofOfWork

/-!
# Enrolling through the frontend

The browser counts the zero bits of a hash in its hex digits, and the oracle server in its bytes:
both count the same. So the browser finds the first nonce that is good enough for the server if one
of the first ten million is, and what the frontend sends to an oracle is accepted in time exactly if
the domain was entered without a dot at its end.
-/

namespace Felidae.Frontend

/-! ## Digits -/

theorem padStart_hexDigits (b : UInt8) : padStart 2 '0' (Nat.toDigits 16 b.toNat) = hexByte b := by
  have hall : ∀ n < 256,
      padStart 2 '0' (Nat.toDigits 16 n) = [Nat.digitChar (n / 16), Nat.digitChar (n % 16)] := by
    decide +kernel
  exact hall b.toNat b.toNat_lt

theorem parseHex_hexByte (b : UInt8) : parseHex (hexByte b) = some b.toNat := by
  have hall : ∀ n < 256, parseHex [Nat.digitChar (n / 16), Nat.digitChar (n % 16)] = some n := by
    decide +kernel
  exact hall b.toNat b.toNat_lt

theorem leadingBits_of_ne_zero {b : UInt8} (h : b ≠ 0) :
    leadingBits (some b.toNat) = leadingZeros b := by
  have hall : ∀ n < 256, n ≠ 0 → leadingBits (some n) = 7 - n.log2 := by decide +kernel
  rw [leadingZeros, if_neg h]
  exact hall b.toNat b.toNat_lt fun hzero ↦ h (UInt8.toNat_inj.mp hzero)

/-- The browser counts in the digits of a hash what the server counts in its bytes. -/
theorem countLeadingZeros_hexEncode (b : Bytes) :
    countLeadingZeros (hexEncode b) = Felidae.countLeadingZeros b := by
  induction b with
  | nil => rfl
  | cons byte b ih =>
    have hzero : parseHex (hexByte byte) = some 0 ↔ byte = 0 := by
      rw [parseHex_hexByte, Option.some_inj]
      exact UInt8.toNat_inj (b := 0)
    have hcons : countLeadingZeros (hexEncode (byte :: b)) =
        if parseHex (hexByte byte) = some 0 then 8 + countLeadingZeros (hexEncode b)
        else leadingBits (parseHex (hexByte byte)) := rfl
    rw [hcons, ih, Felidae.countLeadingZeros]
    by_cases hbyte : byte = 0
    · rw [if_pos (hzero.mpr hbyte), if_pos hbyte]
    · rw [if_neg (hzero.not.mpr hbyte), if_neg hbyte, parseHex_hexByte,
        leadingBits_of_ne_zero hbyte]

/-! ## The domain -/

/-- No character is white space, for the frontend or for the server. -/
def Unspaced (s : Str) : Prop := ∀ c ∈ s, isWhitespace c = false ∧ isWhiteSpace c = false

theorem dropWhile_rdropWhile_eq_self {p : Char → Bool} {s : Str} (h : ∀ c ∈ s, p c = false) :
    (s.dropWhile p).rdropWhile p = s := by
  have hfront : s.dropWhile p = s :=
    List.dropWhile_eq_self_iff.mpr fun hlen ↦ by rw [h _ (List.getElem_mem hlen)]; simp
  rw [hfront]
  exact List.rdropWhile_eq_self_iff.mpr fun hne ↦ by rw [h _ (List.getLast_mem hne)]; simp

namespace Unspaced

variable {s : Str}

theorem trim_eq (h : Unspaced s) : trim s = s :=
  dropWhile_rdropWhile_eq_self fun c hc ↦ (h c hc).2

theorem normalizeDomain_eq (h : Unspaced s) : normalizeDomain s = trimEnd '.' s := by
  rw [normalizeDomain, Felidae.trim, dropWhile_rdropWhile_eq_self fun c hc ↦ (h c hc).1]

theorem append_dot (h : Unspaced s) : Unspaced (s ++ ['.']) := by
  intro c hc
  rcases List.mem_append.mp hc with hc | hc
  · exact h c hc
  · rw [List.mem_singleton.mp hc]
    decide

/-- The server undoes what the frontend does to the domain. -/
theorem normalizeDomain_normalizedDomain (h : Unspaced s) :
    normalizeDomain (normalizedDomain s) = normalizeDomain s := by
  rw [normalizedDomain, h.trim_eq]
  by_cases hdot : s.getLast? = some '.'
  · rw [if_pos hdot]
  · rw [if_neg hdot, h.append_dot.normalizeDomain_eq, h.normalizeDomain_eq, trimEnd, trimEnd,
      List.rdropWhile_concat_pos _ _ _ (by simp)]

theorem normalizeDomain_eq_self_iff (h : Unspaced s) :
    normalizeDomain s = s ↔ s.getLast? ≠ some '.' := by
  rw [Felidae.normalizeDomain_eq_self_iff]
  constructor
  · exact fun hbare hdot ↦ (hbare.last '.' hdot).2 rfl
  · intro hdot
    refine ⟨fun c hc ↦ (h c (List.mem_of_head? hc)).1, fun c hc ↦ ?_⟩
    exact ⟨(h c (List.mem_of_getLast? hc)).1, by rintro rfl; exact hdot hc⟩

end Unspaced

/-- A domain that is parsed is a hostname with a dot. -/
theorem parseDomain_eq_some {hostname : Str → Option Str} {input domain : Str}
    (h : parseDomain hostname input = some domain) :
    domain ≠ [] ∧ '.' ∈ domain ∧ ∃ url, hostname url = some domain := by
  rw [parseDomain, Option.ite_none_left_eq_some] at h
  obtain ⟨-, h⟩ := h
  split at h
  · cases h
  next name hname =>
    rw [Option.ite_none_left_eq_some, not_or, not_not] at h
    obtain ⟨⟨hne, hdot⟩, h⟩ := h
    obtain rfl := Option.some.inj h
    exact ⟨hne, hdot, _, hname⟩

/-! ## Solving -/

theorem mem_validChallenges {challenges : List ChallengeData} {e : Str}
    {r : PoWChallengeResponse} : (e, r) ∈ validChallenges challenges ↔
      ∃ c ∈ challenges, c.endpoint = e ∧ c.answer = .ok r := by
  rw [validChallenges, List.mem_filterMap]
  constructor
  · rintro ⟨c, hc, h⟩
    obtain ⟨r', hr, heq⟩ := Option.map_eq_some_iff.mp h
    obtain ⟨rfl, rfl⟩ := Prod.mk.inj heq
    exact ⟨c, hc, rfl, except_toOption_eq_some.mp hr⟩
  · rintro ⟨c, hc, rfl, hr⟩
    exact ⟨c, hc, by rw [except_toOption_eq_some.mpr hr]; rfl⟩

section Host

variable [Host]

theorem sha256_eq (message : Str) : sha256 message = hexEncode (Host.sha256 (toUtf8 message)) := by
  rw [sha256, hexEncode]
  exact List.flatMap_congr fun b _ ↦ padStart_hexDigits b

/-- The nonce is good enough for the server. -/
def Solves (challenge : Str) (difficulty nonce : ℕ) : Prop :=
  difficulty ≤ Felidae.countLeadingZeros (powHash challenge nonce)

theorem difficulty_le_iff {challenge : Str} {difficulty nonce : ℕ} :
    difficulty ≤ countLeadingZeros (sha256 (challenge ++ Nat.toDigits 10 nonce)) ↔
      Solves challenge difficulty nonce := by
  rw [sha256_eq, countLeadingZeros_hexEncode]
  rfl

/-- The search finds the first nonce that is good enough. -/
theorem searchPoW_solves {challenge : Str} {difficulty : ℕ} :
    ∀ {attempts nonce : ℕ} {r : ℕ × Str}, searchPoW challenge difficulty attempts nonce = .ok r →
      Solves challenge difficulty r.1 ∧
        ∀ m, nonce ≤ m → m < r.1 → ¬Solves challenge difficulty m := by
  intro attempts
  induction attempts with
  | zero => exact fun h ↦ by cases h
  | succ attempts ih =>
    intro nonce r h
    rw [searchPoW] at h
    by_cases hnonce : Solves challenge difficulty nonce
    · rw [if_pos (difficulty_le_iff.mpr hnonce)] at h
      obtain rfl := Except.ok.inj h
      exact ⟨hnonce, fun m hle hlt ↦ absurd hle (not_le.mpr hlt)⟩
    · rw [if_neg (difficulty_le_iff.not.mpr hnonce)] at h
      obtain ⟨hsolves, hfirst⟩ := ih h
      refine ⟨hsolves, fun m hle hlt ↦ ?_⟩
      rcases hle.eq_or_lt with rfl | hlater
      · exact hnonce
      · exact hfirst m hlater hlt

/-- And it finds one if there is one among those that are tried. -/
theorem exists_searchPoW_iff {challenge : Str} {difficulty : ℕ} : ∀ {attempts nonce : ℕ},
    (∃ r, searchPoW challenge difficulty attempts nonce = .ok r) ↔
      ∃ n, nonce ≤ n ∧ n < nonce + attempts ∧ Solves challenge difficulty n := by
  intro attempts
  induction attempts with
  | zero =>
    intro nonce
    constructor
    · rintro ⟨_, h⟩
      cases h
    · rintro ⟨n, hle, hlt, -⟩
      exact absurd hle (not_le.mpr hlt)
  | succ attempts ih =>
    intro nonce
    rw [searchPoW]
    by_cases hnonce : Solves challenge difficulty nonce
    · rw [if_pos (difficulty_le_iff.mpr hnonce)]
      exact iff_of_true ⟨_, rfl⟩ ⟨nonce, le_rfl, by omega, hnonce⟩
    · rw [if_neg (difficulty_le_iff.not.mpr hnonce), ih]
      constructor
      · rintro ⟨n, hle, hlt, hn⟩
        exact ⟨n, by omega, by omega, hn⟩
      · rintro ⟨n, hle, hlt, hn⟩
        rcases hle.eq_or_lt with rfl | hlater
        · exact absurd hn hnonce
        · exact ⟨n, hlater, by omega, hn⟩

/-- The browser can solve the challenge: it lacks nothing, and there is a nonce to find. -/
structure Solvable (c : PoWChallengeResponse) : Prop where
  challenge : c.challenge ≠ []
  difficulty : c.difficulty ≠ 0
  timestamp : c.timestamp ≠ 0
  nonce : ∃ n < maxAttempts, Solves c.challenge c.difficulty n

theorem powToken_eq_some {c : PoWChallengeResponse} {token : PoWToken}
    (h : powToken c = some token) : token.challenge = c.challenge ∧
      token.timestamp = c.timestamp ∧ Solves c.challenge c.difficulty token.nonce ∧
      ∀ m < token.nonce, ¬Solves c.challenge c.difficulty m := by
  rw [powToken, Option.ite_none_left_eq_some] at h
  obtain ⟨r, hr, rfl⟩ := Option.map_eq_some_iff.mp h.2
  rcases hsearch : computePoW c.challenge c.difficulty with e | r'
  · rw [hsearch] at hr
    cases hr
  · rw [hsearch] at hr
    obtain rfl := Option.some.inj hr
    obtain ⟨hsolves, hfirst⟩ := searchPoW_solves hsearch
    exact ⟨rfl, rfl, hsolves, fun m ↦ hfirst m (Nat.zero_le m)⟩

theorem isSome_powToken_iff {c : PoWChallengeResponse} : (powToken c).isSome ↔ Solvable c := by
  have hsearch : (computePoW c.challenge c.difficulty).toOption.isSome ↔
      ∃ n < maxAttempts, Solves c.challenge c.difficulty n := by
    have hexists : (∃ r, computePoW c.challenge c.difficulty = .ok r) ↔ _ := exists_searchPoW_iff
    simp only [Nat.zero_le, true_and, Nat.zero_add] at hexists
    rw [← hexists]
    rcases computePoW c.challenge c.difficulty with e | r
    · simp [Except.toOption]
    · exact iff_of_true rfl ⟨r, rfl⟩
  rw [powToken]
  by_cases hlacks : c.challenge = [] ∨ c.difficulty = 0 ∨ c.timestamp = 0
  · rw [if_pos hlacks]
    refine iff_of_false Bool.false_ne_true fun h ↦ ?_
    rcases hlacks with hlacks | hlacks | hlacks
    · exact h.challenge hlacks
    · exact h.difficulty hlacks
    · exact h.timestamp hlacks
  · rw [if_neg hlacks, Option.isSome_map, hsearch]
    rw [not_or, not_or] at hlacks
    exact ⟨fun h ↦ ⟨hlacks.1, hlacks.2.1, hlacks.2.2, h⟩, Solvable.nonce⟩

theorem mem_powTokens {l : List (Str × PoWChallengeResponse)} {e : Str} {token : PoWToken} :
    (e, token) ∈ powTokens l ↔ ∃ c, (e, c) ∈ l ∧ powToken c = some token := by
  rw [powTokens, List.mem_reverse, List.mem_filterMap]
  constructor
  · rintro ⟨⟨e', c⟩, hmem, h⟩
    obtain ⟨token', htoken, heq⟩ := Option.map_eq_some_iff.mp h
    obtain ⟨rfl, rfl⟩ := Prod.mk.inj heq
    exact ⟨c, hmem, htoken⟩
  · rintro ⟨c, hmem, htoken⟩
    exact ⟨(e, c), hmem, by rw [htoken]; rfl⟩

/-! ## What the oracles make of it -/

/-- The challenge is one that the oracle hands out for the domain. -/
def Issued (state : AppState) (domain : Str) (c : PoWChallengeResponse) : Prop :=
  ∃ now params, params "domain".toList = some domain ∧ handlePowChallenge state now params = .ok c

theorem Issued.eq {state : AppState} {domain : Str} {c : PoWChallengeResponse}
    (h : Issued state domain c) :
    c.challenge = generatePowChallenge domain c.timestamp state.powSecret ∧
      c.difficulty = state.powDifficulty := by
  obtain ⟨now, params, hparams, hissued⟩ := h
  rw [handlePowChallenge, hparams] at hissued
  obtain rfl := Except.ok.inj hissued
  exact ⟨rfl, rfl⟩

/-- A token that the browser has made is accepted, if it comes in time, exactly if the domain was
entered without a dot at its end. -/
theorem accepts_powToken_iff {state : AppState} {domain : Str} {c : PoWChallengeResponse}
    {token : PoWToken} (hdomain : Unspaced domain) (hissued : Issued state domain c)
    (hfree : NoCollision (challengeData (normalizeDomain domain) c.timestamp state.powSecret)
      (challengeData domain c.timestamp state.powSecret))
    (htoken : powToken c = some token) (now : ℕ) :
    state.Accepts now ⟨normalizedDomain domain, token⟩ ↔
      domain.getLast? ≠ some '.' ∧ absDiff now token.timestamp ≤ 5 * 60 ∧
        Felidae.countLeadingZeros (powHash token.challenge token.nonce) < 256 := by
  obtain ⟨hchallenge, htimestamp, hsolves, -⟩ := powToken_eq_some htoken
  obtain ⟨heq, hdifficulty⟩ := hissued.eq
  rw [AppState.Accepts, hdomain.normalizeDomain_normalizedDomain, validatePowToken_eq_true,
    ← hdomain.normalizeDomain_eq_self_iff]
  rw [Solves, hdifficulty, ← hchallenge] at hsolves
  rw [htimestamp, hchallenge.trans heq]
  constructor
  · rintro ⟨hsame, hage, -, hfits⟩
    exact ⟨(generatePowChallenge_inj hfree hsame).1, hage, hfits⟩
  · rintro ⟨hself, hage, hfits⟩
    exact ⟨by rw [hself], hage, by rw [← heq, ← hchallenge]; exact hsolves, hfits⟩

/-- There is a token for an oracle exactly if the browser can solve a challenge of it. -/
theorem exists_mem_powTokens_iff {challenges : List ChallengeData} {e : Str} :
    (∃ token, (e, token) ∈ powTokens (validChallenges challenges)) ↔
      ∃ c ∈ challenges, c.endpoint = e ∧ ∃ r, c.answer = .ok r ∧ Solvable r := by
  constructor
  · rintro ⟨token, hmem⟩
    obtain ⟨r, hr, htoken⟩ := mem_powTokens.mp hmem
    obtain ⟨c, hc, he, hanswer⟩ := mem_validChallenges.mp hr
    exact ⟨c, hc, he, r, hanswer, isSome_powToken_iff.mp (by rw [htoken]; rfl)⟩
  · rintro ⟨c, hc, he, r, hanswer, hsolvable⟩
    obtain ⟨token, htoken⟩ := Option.isSome_iff_exists.mp (isSome_powToken_iff.mpr hsolvable)
    exact ⟨token, mem_powTokens.mpr ⟨r, mem_validChallenges.mpr ⟨c, hc, he, hanswer⟩, htoken⟩⟩

/-- What is submitted goes to all oracles that were asked. -/
theorem submitChallenges_eq_ok {domain : Str} (hdomain : domain ≠ [])
    {challenges : List ChallengeData} {requests : List (Str × ObserveBody)} :
    submitChallenges domain challenges = .ok requests ↔
      powTokens (validChallenges challenges) ≠ [] ∧
        requests = challenges.map fun c ↦ (c.endpoint,
          ⟨normalizedDomain domain,
            (powTokens (validChallenges challenges)).lookup c.endpoint⟩) := by
  rw [submitChallenges]
  by_cases hvalid : validChallenges challenges = []
  · rw [if_pos hvalid, hvalid]
    refine iff_of_false (fun h ↦ by cases h) ?_
    rintro ⟨hsome, -⟩
    exact hsome rfl
  rw [if_neg hvalid]
  by_cases hnone : powTokens (validChallenges challenges) = []
  · rw [if_pos hnone]
    refine iff_of_false (fun h ↦ by cases h) ?_
    rintro ⟨hsome, -⟩
    exact hsome hnone
  rw [if_neg hnone, submit, if_neg hdomain, List.map_map, Except.ok.injEq]
  exact ⟨fun h ↦ ⟨hnone, h.symm⟩, fun h ↦ h.2.symm⟩

/-- Requests are sent if a domain was entered, and the oracles have answered with a challenge that
there is a token for. -/
theorem handleSubmit_eq_ok {hostname : Str → Option Str}
    {ask : Str → Except String (List ChallengeData)} {value : Str}
    {requests : List (Str × ObserveBody)} : handleSubmit hostname ask value = .ok requests ↔
      ∃ domain challenges, parseDomain hostname (trim value) = some domain ∧
        ask domain = .ok challenges ∧ powTokens (validChallenges challenges) ≠ [] ∧
        requests = challenges.map fun c ↦ (c.endpoint,
          ⟨normalizedDomain domain,
            (powTokens (validChallenges challenges)).lookup c.endpoint⟩) := by
  rw [handleSubmit]
  rcases hparse : parseDomain hostname (trim value) with _ | domain
  · refine iff_of_false (fun h ↦ by cases h) ?_
    rintro ⟨_, _, h, -⟩
    cases h
  rcases hask : ask domain with e | challenges
  · simp only [hask]
    refine iff_of_false (fun h ↦ by cases h) ?_
    rintro ⟨_, _, h, h', -⟩
    obtain rfl := Option.some.inj h
    cases hask.symm.trans h'
  · simp only [hask]
    rw [mapError_eq_ok, submitChallenges_eq_ok (parseDomain_eq_some hparse).1]
    constructor
    · exact fun h ↦ ⟨domain, challenges, rfl, hask, h⟩
    · rintro ⟨_, _, h, h', hrest⟩
      obtain rfl := Option.some.inj h
      obtain rfl := Except.ok.inj (hask.symm.trans h')
      exact hrest

/-- The form sends requests exactly if a domain can be extracted from what is entered, the oracles
are asked, and the browser can solve a challenge of theirs. It sends one to each oracle, with a
token exactly if it can solve a challenge of that oracle; and an oracle accepts the token in time
exactly if the domain has no dot at its end. Hostnames are assumed to have no white space, as those
of URLs do. -/
theorem handleSubmit_accepted {hostname : Str → Option Str}
    {ask : Str → Except String (List ChallengeData)} {servers : Str → AppState}
    (hhost : ∀ url name, hostname url = some name → Unspaced name)
    (hissued : ∀ domain challenges, ask domain = .ok challenges → ∀ c ∈ challenges, ∀ r,
      c.answer = .ok r → Issued (servers c.endpoint) domain r)
    (hfree : ∀ domain challenges, ask domain = .ok challenges → ∀ c ∈ challenges, ∀ r,
      c.answer = .ok r → NoCollision
        (challengeData (normalizeDomain domain) r.timestamp (servers c.endpoint).powSecret)
        (challengeData domain r.timestamp (servers c.endpoint).powSecret)) (value : Str) :
    ((∃ requests, handleSubmit hostname ask value = .ok requests) ↔
      ∃ domain challenges, parseDomain hostname (trim value) = some domain ∧
        ask domain = .ok challenges ∧ ∃ c ∈ challenges, ∃ r, c.answer = .ok r ∧ Solvable r) ∧
    ∀ requests, handleSubmit hostname ask value = .ok requests →
      ∃ domain challenges, parseDomain hostname (trim value) = some domain ∧
        ask domain = .ok challenges ∧
        requests.map Prod.fst = challenges.map ChallengeData.endpoint ∧
        ∀ e body, (e, body) ∈ requests →
          (body.powToken.isSome ↔
            ∃ c ∈ challenges, c.endpoint = e ∧ ∃ r, c.answer = .ok r ∧ Solvable r) ∧
          ∀ token, body.powToken = some token → ∀ now,
            (servers e).Accepts now ⟨body.domain, token⟩ ↔
              domain.getLast? ≠ some '.' ∧ absDiff now token.timestamp ≤ 5 * 60 ∧
                Felidae.countLeadingZeros (powHash token.challenge token.nonce) < 256 := by
  constructor
  · simp only [handleSubmit_eq_ok]
    constructor
    · rintro ⟨_, domain, challenges, hparse, hask, hsome, -⟩
      obtain ⟨⟨e, token⟩, hmem⟩ := List.exists_mem_of_ne_nil _ hsome
      obtain ⟨c, hc, -, hr⟩ := exists_mem_powTokens_iff.mp ⟨token, hmem⟩
      exact ⟨domain, challenges, hparse, hask, c, hc, hr⟩
    · rintro ⟨domain, challenges, hparse, hask, c, hc, hr⟩
      obtain ⟨token, hmem⟩ := exists_mem_powTokens_iff.mpr ⟨c, hc, rfl, hr⟩
      exact ⟨_, domain, challenges, hparse, hask, List.ne_nil_of_mem hmem, rfl⟩
  · intro requests hrequests
    obtain ⟨domain, challenges, hparse, hask, -, rfl⟩ := handleSubmit_eq_ok.mp hrequests
    obtain ⟨-, -, url, hurl⟩ := parseDomain_eq_some hparse
    refine ⟨domain, challenges, hparse, hask, by rw [List.map_map]; rfl, fun e body hbody ↦ ?_⟩
    obtain ⟨c, -, heq⟩ := List.mem_map.mp hbody
    obtain ⟨rfl, rfl⟩ := Prod.mk.inj heq
    constructor
    · rw [← exists_mem_powTokens_iff, List.lookup_isSome_iff]
      simp
    · -- the token may be for another challenge of the same oracle
      intro token htoken now
      obtain ⟨newer, older, hsplit, -⟩ := List.lookup_eq_some_iff.mp htoken
      have hmem : (c.endpoint, token) ∈ powTokens (validChallenges challenges) :=
        hsplit ▸ List.mem_append_right newer List.mem_cons_self
      obtain ⟨r, hr, hpow⟩ := mem_powTokens.mp hmem
      obtain ⟨c', hc', hendpoint, hanswer⟩ := mem_validChallenges.mp hr
      rw [← hendpoint]
      exact accepts_powToken_iff (hhost url domain hurl)
        (hissued domain challenges hask c' hc' r hanswer)
        (hfree domain challenges hask c' hc' r hanswer) hpow now

end Host

end Felidae.Frontend

namespace Felidae.Solved

open Frontend

/-- The hostnames of two URLs. -/
def hostname : Str → Option Str :=
  tabulate [("https://www.example.com/about".toList, some bare),
    ("https://localhost".toList, some "localhost".toList)] fun _ ↦ none

example : parseDomain hostname "localhost".toList = none := by decide

/-- An oracle hands out a challenge, and another one fails. -/
def asked (domain : Str) : Except String (List ChallengeData) :=
  .ok [⟨"http://oracle-1.example/".toList,
      .ok ⟨generatePowChallenge domain 1700000000 state.powSecret, 1700000000, 8⟩⟩,
    ⟨"http://oracle-2.example/".toList, .error "timeout of 5000ms exceeded".toList⟩]

/-- Both oracles are alike. -/
def servers : Str → AppState := fun _ ↦ state

theorem issued_of_asked {domain : Str} {challenges : List ChallengeData}
    (h : asked domain = .ok challenges) {c : ChallengeData} (hc : c ∈ challenges)
    {r : PoWChallengeResponse} (hr : c.answer = .ok r) : Issued (servers c.endpoint) domain r := by
  obtain rfl := Except.ok.inj h
  rcases List.mem_pair.mp hc with rfl | rfl
  · obtain rfl := Except.ok.inj hr
    exact ⟨1700000000, params domain, rfl, rfl⟩
  · cases hr

theorem unspaced_hostname {url name : Str} (h : hostname url = some name) : Unspaced name := by
  have hall : [bare, "localhost".toList].all fun s ↦
      s.all fun c ↦ !isWhitespace c && !isWhiteSpace c := by decide +kernel
  have hmem : name ∈ [bare, "localhost".toList] := by
    rcases tabulate_cases _ _ url with hurl | hurl <;> rw [← hostname, h] at hurl
    · rcases List.mem_pair.mp hurl with hurl | hurl <;> cases (Prod.mk.inj hurl).2 <;> simp
    · cases hurl
  intro c hc
  simpa using List.all_eq_true.mp (List.all_eq_true.mp hall name hmem) c hc

/-- No digest has more zero bits than a byte counts. -/
theorem countLeadingZeros_powHash_lt (challenge : Str) (nonce : ℕ) :
    Felidae.countLeadingZeros (powHash challenge nonce) < 256 := by
  have hall : digests.all fun d ↦ Felidae.countLeadingZeros d.2 < 256 := by decide +kernel
  rcases tabulate_cases digests (fun b ↦ List.replicate 33 255 ++ b)
    (toUtf8 (challenge ++ Nat.toDigits 10 nonce)) with h | h
  · exact of_decide_eq_true (List.all_eq_true.mp hall _ h)
  · rw [powHash, show Host.sha256 _ = _ from h, List.replicate_succ, List.cons_append,
      Felidae.countLeadingZeros, if_neg (by decide)]
    decide

/-- When the address of a page is entered, its domain is sent to both oracles. The one that has
handed out a challenge gets a token, and accepts it for five minutes. -/
theorem handleSubmit_accepted_asked :
    ∃ requests, handleSubmit hostname asked " www.example.com/about".toList = .ok requests ∧
      requests.map Prod.fst = ["http://oracle-1.example/".toList,
        "http://oracle-2.example/".toList] ∧
      ∀ e body, (e, body) ∈ requests →
        (body.powToken.isSome ↔ e = "http://oracle-1.example/".toList) ∧
        ∀ token, body.powToken = some token → ∀ now,
          state.Accepts now ⟨body.domain, token⟩ ↔ absDiff now token.timestamp ≤ 5 * 60 := by
  have hparse : parseDomain hostname (trim " www.example.com/about".toList) = some bare := by
    decide +kernel
  have hsolves : Solves (generatePowChallenge bare 1700000000 state.powSecret) 8 127 := by
    rw [Solves]
    decide +kernel
  have hsolvable : Solvable
      ⟨generatePowChallenge bare 1700000000 state.powSecret, 1700000000, 8⟩ :=
    ⟨by decide +kernel, by decide, by decide, 127, by decide, hsolves⟩
  obtain ⟨hsent, haccepted⟩ := handleSubmit_accepted (fun _ _ ↦ unspaced_hostname)
    (fun _ _ hask _ hc _ hr ↦ issued_of_asked hask hc hr) (fun _ _ _ _ _ _ _ ↦ noCollision _ _)
    " www.example.com/about".toList
  obtain ⟨requests, hrequests⟩ := hsent.mpr
    ⟨bare, _, hparse, rfl, _, List.mem_cons_self, _, rfl, hsolvable⟩
  obtain ⟨domain, challenges, hdomain, hask, hendpoints, htokens⟩ := haccepted requests hrequests
  obtain rfl := Option.some.inj (hparse.symm.trans hdomain)
  obtain rfl := Except.ok.inj hask
  refine ⟨requests, hrequests, hendpoints, fun e body hbody ↦ ?_⟩
  obtain ⟨hsome, haccepts⟩ := htokens e body hbody
  constructor
  · rw [hsome]
    constructor
    · rintro ⟨c, hc, rfl, r, hr, -⟩
      rcases List.mem_pair.mp hc with rfl | rfl
      · rfl
      · cases hr
    · rintro rfl
      exact ⟨_, List.mem_cons_self, rfl, _, rfl, hsolvable⟩
  · intro token htoken now
    rw [show state = servers e from rfl, haccepts token htoken now]
    simp only [countLeadingZeros_powHash_lt, and_true]
    exact and_iff_right (by decide)

end Felidae.Solved
