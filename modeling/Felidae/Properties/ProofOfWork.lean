import Felidae.Oracle.ProofOfWork
import Felidae.Reference

/-!
# Challenges and submissions

A challenge is made for a domain as it is spelled in the query, and checked for the domain of the
submission without whitespace around it and without dots at its end. The two agree for the domains
that are spelled so to begin with, and for no others: a challenge for a name with its last dot is
never accepted. The text that is hashed names its domain and timestamp, whatever colons the domain
has, since the timestamp has none.
-/

namespace Felidae

/-! ## Normalization -/

theorem trim_sublist (s : Str) : (trim s).Sublist s :=
  (List.rdropWhile_prefix _ _).sublist.trans (List.dropWhile_suffix _).sublist

theorem trim_eq_self_iff {s : Str} : trim s = s ↔
    (∀ c ∈ s.head?, isWhitespace c = false) ∧ ∀ c ∈ s.getLast?, isWhitespace c = false := by
  constructor
  · intro h
    -- Nothing can be cut at the front, or the result is too short.
    have hfront : s.dropWhile isWhitespace = s := by
      refine (List.dropWhile_suffix _).eq_of_length_le ?_
      calc s.length = (trim s).length := by rw [h]
        _ ≤ (s.dropWhile isWhitespace).length := (List.rdropWhile_prefix _ _).length_le
    have hback : s.rdropWhile isWhitespace = s := by rwa [trim, hfront] at h
    refine ⟨fun c hc ↦ ?_, fun c hc ↦ ?_⟩
    · obtain ⟨t, rfl⟩ := List.head?_eq_some_iff.mp hc
      exact Bool.eq_false_iff.mpr fun hspace ↦
        absurd (List.dropWhile_eq_self_iff.mp hfront (Nat.succ_pos _)) (by simpa using hspace)
    · obtain ⟨t, rfl⟩ := List.getLast?_eq_some_iff.mp hc
      exact Bool.eq_false_iff.mpr fun hspace ↦ absurd hspace (by
        simpa using List.rdropWhile_eq_self_iff.mp hback (by simp))
  · rintro ⟨hhead, hlast⟩
    have hfront : s.dropWhile isWhitespace = s := by
      cases s with
      | nil => rfl
      | cons c s => exact List.dropWhile_cons_of_neg (by rw [hhead c rfl]; exact Bool.false_ne_true)
    rw [trim, hfront]
    rcases List.eq_nil_or_concat' s with rfl | ⟨t, c, rfl⟩
    · rfl
    · exact List.rdropWhile_concat_neg _ _ _ (by
        rw [hlast c List.getLast?_concat]
        exact Bool.false_ne_true)

/-- A domain is its own normal form if there is nothing around it to cut. -/
theorem normalizeDomain_eq_self_iff {s : Str} : normalizeDomain s = s ↔ Bare s := by
  constructor
  · intro h
    have htrim : trim s = s := by
      refine (trim_sublist s).eq_of_length_le ?_
      calc s.length = (normalizeDomain s).length := by rw [h]
        _ ≤ (trim s).length := (List.rdropWhile_prefix _ _).length_le
    obtain ⟨hhead, hlast⟩ := trim_eq_self_iff.mp htrim
    refine ⟨hhead, fun c hc ↦ ⟨hlast c hc, ?_⟩⟩
    rintro rfl
    obtain ⟨t, rfl⟩ := List.getLast?_eq_some_iff.mp hc
    rw [normalizeDomain, htrim] at h
    refine not_suffix_trimEnd '.' (t ++ ['.']) ?_
    rw [h]
    exact List.suffix_append t ['.']
  · intro h
    rw [normalizeDomain, trim_eq_self_iff.mpr ⟨h.head, fun c hc ↦ (h.last c hc).1⟩]
    rcases List.eq_nil_or_concat' s with rfl | ⟨t, c, rfl⟩
    · rfl
    · exact List.rdropWhile_concat_neg _ _ _ (by
        simpa using (h.last c List.getLast?_concat).2)

/-- The dot that the frontend adds is cut again. -/
theorem Bare.normalizeDomain_append_dot {s : Str} (h : Bare s) :
    normalizeDomain (s ++ ['.']) = s := by
  have htrim : trim (s ++ ['.']) = s ++ ['.'] := by
    refine trim_eq_self_iff.mpr ⟨fun c hc ↦ ?_, fun c hc ↦ ?_⟩
    · cases s with
      | nil =>
        obtain rfl := Option.some.inj hc
        decide
      | cons d s => exact h.head c hc
    · rw [List.getLast?_concat] at hc
      obtain rfl := Option.some.inj hc
      decide
  rw [normalizeDomain, htrim, trimEnd, List.rdropWhile_concat_pos _ _ _ (by simp)]
  have hself := normalizeDomain_eq_self_iff.mpr h
  rwa [normalizeDomain, trim_eq_self_iff.mpr ⟨h.head, fun c hc ↦ (h.last c hc).1⟩] at hself

/-! ## What a challenge names -/

/-- The last colon but those of the secret stands before the timestamp. -/
theorem challengeData_inj {d d' secret : Str} {ts ts' : ℕ}
    (h : challengeData d ts secret = challengeData d' ts' secret) : d = d' ∧ ts = ts' := by
  have hcolon : ∀ n : ℕ, ':' ∉ Nat.toDigits 10 n := fun n hmem ↦
    absurd (Nat.isDigit_of_mem_toDigits (by decide) (by decide) hmem) (by decide)
  have hsplit : ∀ (d : Str) (ts : ℕ), challengeData d ts secret
      = (d ++ ':' :: Nat.toDigits 10 ts) ++ ':' :: secret := by
    intro d ts
    rw [challengeData, List.append_assoc, List.cons_append]
  rw [hsplit, hsplit] at h
  have hcut := congrArg (cutLast ':') (List.append_cancel_right h)
  rw [cutLast_append (hcolon ts), cutLast_append (hcolon ts')] at hcut
  obtain ⟨hd, hts⟩ := Prod.mk.inj (Option.some.inj hcut)
  refine ⟨hd, ?_⟩
  rw [← Nat.ofDigitChars_ten_toDigits (n := ts), hts, Nat.ofDigitChars_ten_toDigits]

section Host

variable [Host]

/-- The hash tells two texts apart. -/
def NoCollision (a b : Str) : Prop := Host.sha256 (toUtf8 a) = Host.sha256 (toUtf8 b) → a = b

theorem generatePowChallenge_inj {d d' secret : Str} {ts ts' : ℕ}
    (hfree : NoCollision (challengeData d ts secret) (challengeData d' ts' secret))
    (h : generatePowChallenge d ts secret = generatePowChallenge d' ts' secret) :
    d = d' ∧ ts = ts' :=
  challengeData_inj (hfree (hexEncode_injective h))

/-- What is asked of a token. -/
theorem validatePowToken_eq_true {now difficulty : ℕ} {token : PoWToken} {domain secret : Str} :
    validatePowToken now token domain secret difficulty = .ok true ↔
      generatePowChallenge domain token.timestamp secret = token.challenge ∧
      absDiff now token.timestamp ≤ 5 * 60 ∧
      difficulty ≤ countLeadingZeros (powHash token.challenge token.nonce) ∧
      countLeadingZeros (powHash token.challenge token.nonce) < 256 := by
  rw [validatePowToken, countZeroBits_eq _ (by decide), Nat.zero_add]
  by_cases hchallenge : generatePowChallenge domain token.timestamp secret = token.challenge
  · by_cases hage : 5 * 60 < absDiff now token.timestamp
    · simp [hchallenge, hage]
    · by_cases hfits : countLeadingZeros (powHash token.challenge token.nonce) < 256
      · by_cases hzeros : countLeadingZeros (powHash token.challenge token.nonce) < difficulty
        · simp [hchallenge, hage, hfits, hzeros, pure, Except.pure]
        · simp [hchallenge, not_lt.mp hage, hage, hfits, hzeros, not_lt.mp hzeros, pure,
            Except.pure]
      · simp [hchallenge, hage, hfits]
  · simp [hchallenge]

/-- Whether the token of a request is accepted. -/
def AppState.Accepts (state : AppState) (now : ℕ) (req : ObserveRequest) : Prop :=
  validatePowToken now req.powToken (normalizeDomain req.domain) state.powSecret
    state.powDifficulty = .ok true

/-- Solving a challenge for a domain makes a token that is accepted with the domain, and with the
domain and a dot, exactly if the domain is spelled as it is checked, and the zero bits of the hash
can be counted. A challenge is accepted for one domain and timestamp only. -/
theorem AppState.challengesMatch_iff (state : AppState) :
    (∀ (params : Str → Option Str) (s : Str) (issued now nonce : ℕ)
        (challenge : PoWChallengeResponse), params "domain".toList = some s →
      handlePowChallenge state issued params = .ok challenge →
      absDiff now challenge.timestamp ≤ 5 * 60 →
      challenge.difficulty ≤ countLeadingZeros (powHash challenge.challenge nonce) →
      NoCollision (challengeData (normalizeDomain s) issued state.powSecret)
        (challengeData s issued state.powSecret) →
      ((∀ domain ∈ [s, s ++ ['.']],
          state.Accepts now ⟨domain, challenge.challenge, nonce, challenge.timestamp⟩) ↔
        Bare s ∧ countLeadingZeros (powHash challenge.challenge nonce) < 256)) ∧
    ∀ (token token' : PoWToken) (d d' : Str) (now now' : ℕ),
      token.challenge = token'.challenge →
      NoCollision (challengeData d token.timestamp state.powSecret)
        (challengeData d' token'.timestamp state.powSecret) →
      validatePowToken now token d state.powSecret state.powDifficulty = .ok true →
      validatePowToken now' token' d' state.powSecret state.powDifficulty = .ok true →
      d = d' ∧ token.timestamp = token'.timestamp := by
  refine ⟨?_, fun token token' d d' now now' htoken hfree hvalid hvalid' ↦ ?_⟩
  · intro params s issued now nonce challenge hparams hissued hwindow hnonce hfree
    rw [handlePowChallenge, hparams] at hissued
    obtain rfl := Except.ok.inj hissued
    constructor
    · intro hall
      obtain ⟨hchallenge, -, -, hfits⟩ :=
        validatePowToken_eq_true.mp (hall s List.mem_cons_self)
      exact ⟨normalizeDomain_eq_self_iff.mp (generatePowChallenge_inj hfree hchallenge).1, hfits⟩
    -- both spellings are normalized to the name the challenge was made for
    · rintro ⟨hbare, hfits⟩ domain hdomain
      have hnormal : normalizeDomain domain = s := by
        rcases List.mem_pair.mp hdomain with rfl | rfl
        · exact normalizeDomain_eq_self_iff.mpr hbare
        · exact hbare.normalizeDomain_append_dot
      rw [Accepts, hnormal]
      exact validatePowToken_eq_true.mpr ⟨rfl, hwindow, hnonce, hfits⟩
  · have hd := (validatePowToken_eq_true.mp hvalid).1
    have hd' := (validatePowToken_eq_true.mp hvalid').1
    exact generatePowChallenge_inj hfree (by rw [hd, hd', htoken])

end Host

/-! ## A challenge for a name with its last dot -/

namespace Solved

/-- The secret of an oracle and the least difficulty. -/
def state : AppState := ⟨"secret".toList, 8⟩

def bare : Str := "www.example.com".toList

/-- The same domain as fully qualified names are written. -/
def dotted : Str := "www.example.com.".toList

def params (s : Str) : Str → Option Str := tabulate [("domain".toList, some s)] fun _ ↦ none

/-- Two challenges and the hashes that solve them. -/
def digests : List (Bytes × Bytes) :=
  [(toUtf8 "www.example.com:1700000000:secret".toList, Reference.bytesOf 32
      0x4bc4ed2edba8ab902fa8df9c2cc17320c7489d6a00ef81d0890c4fe7dab10d42),
    (toUtf8 ("4bc4ed2edba8ab902fa8df9c2cc17320c7489d6a00ef81d0890c4fe7dab10d42".toList
        ++ "127".toList), Reference.bytesOf 32
      0x00f82a82932832c470662be07523e6a93aa4eff11ed7e52ac2b3fb45189786c2),
    (toUtf8 "www.example.com.:1700000000:secret".toList, Reference.bytesOf 32
      0xa4713f5111db526d50ead15af99fb20a866e3c1fe1a6c658edcc0fd685cf6142),
    (toUtf8 ("a4713f5111db526d50ead15af99fb20a866e3c1fe1a6c658edcc0fd685cf6142".toList
        ++ "282".toList), Reference.bytesOf 32
      0x001153f135a96845088c2d297aab8f1eba1a02fa910422c1afd211c74f3d25ef)]

/-- The reference host, with the digests of the challenges. -/
scoped instance : Host :=
  { Reference.instHost with sha256 := tabulate digests fun b ↦ List.replicate 33 255 ++ b }

theorem sha256_injective : Function.Injective Host.sha256 := by
  refine tabulate_injective (fun _ _ h ↦ List.append_cancel_left h) (by decide +kernel)
    fun b hb ↦ ?_
  have hlength : ∀ d ∈ digests.map Prod.snd, d.length = 32 := by decide +kernel
  have := hlength _ hb
  simp at this

theorem noCollision (a b : Str) : NoCollision a b := fun h ↦
  toUtf8_injective (sha256_injective h)

/-- A challenge for the dotted name is solved within a minute and sent back with the same name, and
the token is not accepted. -/
theorem not_challengesMatch : ¬∀ (state : AppState) (params : Str → Option Str) (s : Str)
    (issued now nonce : ℕ) (challenge : PoWChallengeResponse), Function.Injective Host.sha256 →
      params "domain".toList = some s →
      handlePowChallenge state issued params = .ok challenge →
      absDiff now challenge.timestamp ≤ 5 * 60 →
      challenge.difficulty ≤ countLeadingZeros (powHash challenge.challenge nonce) →
      state.Accepts now ⟨s, challenge.challenge, nonce, challenge.timestamp⟩ := by
  intro hall
  have hrejected : (validatePowToken 1700000060
      ⟨generatePowChallenge dotted 1700000000 state.powSecret, 282, 1700000000⟩
      (normalizeDomain dotted) state.powSecret state.powDifficulty).toOption = some false := by
    decide +kernel
  have haccepted := hall state (params dotted) dotted 1700000000 1700000060 282 _
    sha256_injective (by decide +kernel) rfl (by decide +kernel) (by decide +kernel)
  rw [AppState.Accepts] at haccepted
  rw [haccepted] at hrejected
  cases hrejected

/-- The challenge for the name without its dot, solved. -/
def token : PoWToken := ⟨generatePowChallenge bare 1700000000 state.powSecret, 127, 1700000000⟩

theorem normalizeDomain_bare : normalizeDomain bare = bare := by decide +kernel

/-- The token is accepted with both spellings, and its challenge for no other domain. -/
theorem challengesMatch_iff_bare :
    (∀ domain ∈ [bare, bare ++ ['.']], state.Accepts 1700000060 ⟨domain, token⟩) ∧
    ∀ d ts now nonce, validatePowToken now ⟨token.challenge, nonce, ts⟩ d state.powSecret
      state.powDifficulty = .ok true → bare = d ∧ token.timestamp = ts := by
  have hmatch := state.challengesMatch_iff
  have haccepted := (hmatch.1 (params bare) bare 1700000000 1700000060 127
    ⟨token.challenge, token.timestamp, 8⟩ (by decide +kernel) rfl (by decide +kernel)
    (by decide +kernel) (noCollision _ _)).mpr ⟨by decide +kernel, by decide +kernel⟩
  refine ⟨haccepted, fun d ts now nonce hvalid ↦ ?_⟩
  have hbare := haccepted bare List.mem_cons_self
  rw [AppState.Accepts, normalizeDomain_bare] at hbare
  exact hmatch.2 token ⟨token.challenge, nonce, ts⟩ bare d 1700000060 now rfl (noCollision _ _)
    hbare hvalid

end Solved

end Felidae
