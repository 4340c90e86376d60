import Felidae.Client.Observe
import Felidae.Properties.Blockstamps
import Felidae.Properties.Built

/-!
# The oracle's transactions

What `witness` makes of its inputs, and `observe_domain` of what it meets: one observation, signed
with the oracle's key, that the chain authenticates. Nothing is handed out if any part of the input
cannot be read or the enrollment does not meet its constraints. Delivered to a chain whose latest
block it was made at, the transaction is applied exactly if the oracle is authorized, the block is
still recent and the domain may be observed.
-/

namespace Felidae

/-! ## Enrollments -/

section Enrollments

variable [EnrollmentHost]

/-- The text is base64url. -/
def Enrollment.IsBase64Url (text : Str) : Prop := (EnrollmentHost.decodeBase64Url text).isSome

/-- What the spec asks of an enrollment. -/
inductive Enrollment.Valid : Enrollment EnrollmentHost.Json → Prop where
  | sigstore {trustedRoot : EnrollmentHost.Json} {claims : List (Str × Str)} {maxAge : UInt64}
      (hobject : EnrollmentHost.isObject trustedRoot) (hclaims : claims ≠ [])
      (hclaim : ∀ claim ∈ claims, trim claim.1 ≠ [] ∧ trim claim.2 ≠ []) :
      Valid (.sigstore trustedRoot claims maxAge)
  | sigsum {signers : List Str} {threshold : UInt32} {policy casUrl : Str} {maxAge : UInt64}
      {logs : List (Str × Str)} (hpos : 1 ≤ threshold.toNat)
      (hle : threshold.toNat ≤ signers.length) (hpolicy : IsBase64Url policy)
      (hsigners : ∀ key ∈ signers, ∃ bytes, EnrollmentHost.decodeBase64Url key = some bytes ∧
        bytes.length = 32 ∧ EnrollmentHost.isVerifyingKey bytes)
      (hlogs : ∀ log ∈ logs, IsBase64Url log.1) :
      Valid (.sigsum signers threshold policy maxAge casUrl logs)

namespace Enrollment

/-- The errors of the checks. -/
def Invalid (e : WitnessError) : Prop := ∃ message, e = .invalidEnrollment message

omit [EnrollmentHost] in
theorem decides_bail (bad : Prop) [Decidable bad] (message : String) :
    Decides Invalid (bail bad message) ¬bad := by
  rw [bail]
  split_ifs with hbad
  · exact .error ⟨message, rfl⟩ (not_not.mpr hbad)
  · exact .ok hbad

omit [EnrollmentHost] in
theorem decides_forEach {α : Type} {check : α → Except WitnessError Unit} {P : α → Prop}
    (h : ∀ x, Decides Invalid (check x) (P x)) :
    ∀ xs : List α, Decides Invalid (forEach check xs) (∀ x ∈ xs, P x)
  | [] => .ok fun _ hx ↦ absurd hx List.not_mem_nil
  | x :: xs => ((h x).bind fun _ ↦ decides_forEach h xs).congr List.forall_mem_cons.symm

theorem decides_checkBase64Url (name : String) (text : Str)
    {next : Bytes → Except WitnessError Unit} {P : Bytes → Prop}
    (h : ∀ bytes, Decides Invalid (next bytes) (P bytes)) :
    Decides Invalid (checkBase64Url name text >>= next)
      (∃ bytes, EnrollmentHost.decodeBase64Url text = some bytes ∧ P bytes) := by
  rw [checkBase64Url]
  rcases htext : EnrollmentHost.decodeBase64Url text with _ | bytes
  · exact .error ⟨_, rfl⟩ fun ⟨_, hbytes, _⟩ ↦ by cases hbytes
  · refine (h bytes).congr ⟨fun hP ↦ ⟨bytes, rfl, hP⟩, ?_⟩
    rintro ⟨_, hbytes, hP⟩
    rwa [Option.some.inj hbytes]

/-- Validation passes for the valid enrollments, and fails with a message for all others. -/
theorem decides_validate (e : Enrollment EnrollmentHost.Json) :
    Decides Invalid (validate e) (Valid e) := by
  -- the checks stand in the order of the source, and each decides one condition
  cases e with
  | sigstore trustedRoot claims maxAge =>
    have hclaim : ∀ claim, Decides Invalid (checkClaim claim)
        (trim claim.1 ≠ [] ∧ trim claim.2 ≠ []) := fun claim ↦
      (decides_bail _ _).bind fun _ ↦ decides_bail _ _
    refine ((decides_bail _ _).bind fun _ ↦ (decides_bail _ _).bind fun _ ↦
      decides_forEach hclaim claims).congr ?_
    rw [not_not]
    exact ⟨fun ⟨h₁, h₂, h₃⟩ ↦ .sigstore h₁ h₂ h₃, fun h ↦ by cases h with
      | sigstore h₁ h₂ h₃ => exact ⟨h₁, h₂, h₃⟩⟩
  | sigsum signers threshold policy maxAge casUrl logs =>
    have hsigner : ∀ key, Decides Invalid (checkSigner key) (∃ bytes,
        EnrollmentHost.decodeBase64Url key = some bytes ∧ bytes.length = 32 ∧
          EnrollmentHost.isVerifyingKey bytes) := fun key ↦
      decides_checkBase64Url "key" key fun bytes ↦
        ((decides_bail _ _).bind fun _ ↦ decides_bail _ _).congr (by rw [not_not, not_not])
    have hlog : ∀ log : Str × Str, Decides Invalid
        ((checkBase64Url "log key" log.1).map fun _ ↦ ()) (IsBase64Url log.1) := by
      intro log
      rw [checkBase64Url, IsBase64Url]
      rcases EnrollmentHost.decodeBase64Url log.1 with _ | bytes
      · exact .error ⟨_, rfl⟩ Bool.false_ne_true
      · exact .ok rfl
    refine ((decides_bail _ _).bind fun _ ↦ (decides_bail _ _).bind fun _ ↦
      decides_checkBase64Url "policy" policy fun _ ↦
        (decides_forEach hsigner signers).bind fun _ ↦ decides_forEach hlog logs).congr ?_
    have hpos : ¬threshold = 0 ↔ 1 ≤ threshold.toNat := by
      rw [← UInt32.toNat_inj, Nat.one_le_iff_ne_zero]
      rfl
    rw [hpos, not_lt]
    constructor
    · rintro ⟨h₁, h₂, bytes, hbytes, h₃, h₄⟩
      exact .sigsum h₁ h₂ (by rw [IsBase64Url, hbytes]; rfl) h₃ h₄
    · intro h
      cases h with
      | sigsum h₁ h₂ hpolicy h₃ h₄ =>
        obtain ⟨bytes, hbytes⟩ := Option.isSome_iff_exists.mp hpolicy
        exact ⟨h₁, h₂, bytes, hbytes, h₃, h₄⟩

/-- What is observed of a text: nothing of the empty one, and of the text of a valid enrollment the
hash of its canonical form. -/
inductive Observes : Str → HashObserved → Prop where
  | notFound : Observes [] .notFound
  | hash {text : Str} {e : Enrollment EnrollmentHost.Json} {value : EnrollmentHost.Json}
      {canonicalized : Bytes} (hne : text ≠ [])
      (hparse : EnrollmentHost.parseEnrollment text = .ok e) (hvalid : e.Valid)
      (hvalue : EnrollmentHost.toValue e = .ok value)
      (hcanonical : EnrollmentHost.writeCanonical value = .ok canonicalized) :
      Observes text (.hash (EnrollmentHost.sha256 canonicalized))

theorem observed_eq_ok {text : Str} {o : HashObserved} :
    observed text = .ok o ↔ Observes text o := by
  rw [observed]
  split_ifs with hne
  · simp only [except_bind_eq_ok, mapError_eq_ok, canonicalHash, (decides_validate _).iff]
    constructor
    · rintro ⟨e, hparse, -, hvalid, hash, ⟨value, hvalue, bytes, hbytes, hhash⟩, ho⟩
      rw [← Except.ok.inj ho, ← Except.ok.inj hhash]
      exact .hash hne hparse hvalid hvalue hbytes
    · intro h
      cases h with
      | notFound => exact absurd rfl hne
      | hash _ hparse hvalid hvalue hcanonical =>
        exact ⟨_, hparse, (), hvalid, _, ⟨_, hvalue, _, hcanonical, rfl⟩, rfl⟩
  · obtain rfl := not_not.mp hne
    constructor
    · intro h
      rw [← Except.ok.inj h]
      exact .notFound
    · intro h
      cases h with
      | notFound => rfl
      | hash hne => exact absurd rfl hne

end Enrollment

end Enrollments

/-! ## What is signed -/

section Witness

variable [Host] [P256] [EnrollmentHost]

/-- The transaction of one observation. -/
def witnessing (chainId : Str) (k : KeyPair) (o : Observation) : Transaction :=
  ⟨⟨chainId⟩, [.observe ⟨o, ⟨k.publicKey⟩⟩]⟩

/-- What the inputs of `witness` say: the key pair, and the observation with everything in it. -/
structure Reads (signingKey appHash : Str) (blockHeight : UInt64) (domain zone enrollment : Str)
    (k : KeyPair) (o : Observation) : Prop where
  key : (hexDecode signingKey).bind KeyPair.decode = some k
  enrollment : Enrollment.Observes enrollment o.hashObserved
  domain : Host.fqdnFromStr domain = .ok o.domain.name
  zone : Host.fqdnFromStr zone = .ok o.zone.name
  appHash : hexDecode appHash = some o.blockstamp.appHash
  blockHeight : o.blockstamp.blockHeight.value = blockHeight.toNat

omit [Host] [P256] [EnrollmentHost] in
theorem Height.ofNat?_eq_some {n : ℕ} {h : Height} : Height.ofNat? n = some h ↔ h.value = n := by
  rw [Height.ofNat?]
  constructor
  · intro hn
    split_ifs at hn
    rw [← Option.some.inj hn]
  · rintro rfl
    exact dif_pos h.le

/-- `witness` hands out what was signed for its inputs and authenticates. -/
theorem witness_eq_ok {signingKey chainId appHash : Str} {blockHeight : UInt64}
    {domain zone enrollment tx : Str} :
    witness signingKey chainId appHash blockHeight domain zone enrollment = .ok tx ↔
      ∃ k o, Reads signingKey appHash blockHeight domain zone enrollment k o ∧
        ∃ buf, (witnessing chainId k o).signToProto k.signWith = .ok buf ∧
          (∃ t, AuthenticatedTx.fromProto buf = .ok t) ∧ tx = hexEncode buf := by
  simp only [witness, except_bind_eq_ok, okOrElse_eq_ok, Enrollment.observed_eq_ok,
    Height.ofNat?_eq_some, mapError_eq_ok]
  constructor
  · rintro ⟨k, hkey, o, ho, d, hd, z, hz, a, ha, b, hb, buf, hsign, t, ht, htx⟩
    exact ⟨k, ⟨⟨d⟩, ⟨z⟩, ⟨b, a⟩, o⟩, ⟨hkey, ho, hd, hz, ha, hb⟩, buf, hsign, ⟨t, ht⟩,
      (Except.ok.inj htx).symm⟩
  · rintro ⟨k, o, h, buf, hsign, ⟨t, ht⟩, rfl⟩
    exact ⟨k, h.key, _, h.enrollment, _, h.domain, _, h.zone, _, h.appHash, _, h.blockHeight, buf,
      hsign, t, ht, rfl⟩

variable [LawfulHost]

/-- `witness` hands out a transaction exactly for inputs that can be read, and what it hands out is
authenticated as the one observation they say, under the public key of the signing key. -/
theorem witness_exact {signingKey chainId appHash : Str} {blockHeight : UInt64}
    {domain zone enrollment : Str}
    (hreliable : ∀ k o, Reads signingKey appHash blockHeight domain zone enrollment k o →
      k.Reliable (witnessing chainId k o)) :
    ((∃ tx, witness signingKey chainId appHash blockHeight domain zone enrollment = .ok tx) ↔
      ∃ k o, Reads signingKey appHash blockHeight domain zone enrollment k o) ∧
    ∀ tx, witness signingKey chainId appHash blockHeight domain zone enrollment = .ok tx →
      ∃ k o, Reads signingKey appHash blockHeight domain zone enrollment k o ∧
        ∃ buf, hexDecode tx = some buf ∧
          AuthenticatedTx.fromProto buf = .ok ⟨witnessing chainId k o⟩ := by
  have hsigns : ∀ k o, Reads signingKey appHash blockHeight domain zone enrollment k o →
      ∃ buf, (witnessing chainId k o).signToProto k.signWith = .ok buf ∧
        AuthenticatedTx.fromProto buf = .ok ⟨witnessing chainId k o⟩ := fun k o h ↦
    (hreliable k o h).signs fun a ha ↦ by
      rw [List.mem_singleton.mp ha]
      rfl
  constructor
  · constructor
    · rintro ⟨tx, htx⟩
      obtain ⟨k, o, h, -⟩ := witness_eq_ok.mp htx
      exact ⟨k, o, h⟩
    · rintro ⟨k, o, h⟩
      obtain ⟨buf, hsign, hauth⟩ := hsigns k o h
      exact ⟨hexEncode buf, witness_eq_ok.mpr ⟨k, o, h, buf, hsign, ⟨_, hauth⟩, rfl⟩⟩
  · intro tx htx
    obtain ⟨k, o, h, buf, hsign, -, rfl⟩ := witness_eq_ok.mp htx
    obtain ⟨buf', hsign', hauth⟩ := hsigns k o h
    obtain rfl := Except.ok.inj (hsign.symm.trans hsign')
    exact ⟨k, o, h, buf, hexDecode_hexEncode buf, hauth⟩

end Witness

namespace Client

theorem observes_enrollmentText {o : HashObserved} (h : Enrollment.Observes enrollmentText o) :
    o = .hash enrollmentHash :=
  Except.ok.inj ((Enrollment.observed_eq_ok.mpr h).symm.trans (by decide +kernel))

theorem reads_observation {k : KeyPair} {o : Observation}
    (h : Reads (hexEncode pkcs8) (hexEncode (Reference.bytesOf 32 6)) 1 "www.example.com.".toList
      "example.com.".toList enrollmentText k o) : o = observation := by
  have hdomain : o.domain.name = Reference.nameOf "www.example.com." :=
    Except.ok.inj (h.domain.symm.trans (by decide +kernel))
  have hzone : o.zone.name = Reference.nameOf "example.com." :=
    Except.ok.inj (h.zone.symm.trans (by decide +kernel))
  have happHash : o.blockstamp.appHash = Reference.bytesOf 32 6 :=
    Option.some.inj (h.appHash.symm.trans (hexDecode_hexEncode _))
  have hheight : o.blockstamp.blockHeight = Reference.firstHeight := Height.ext h.blockHeight
  have hhash := observes_enrollmentText h.enrollment
  obtain ⟨⟨_⟩, ⟨_⟩, ⟨_, _⟩, _⟩ := o
  dsimp only at hdomain hzone happHash hheight hhash
  rw [hdomain, hzone, happHash, hheight, hhash]
  rfl

theorem witness_exact_observation :
    ((∃ tx, witness (hexEncode pkcs8) "felidae".toList (hexEncode (Reference.bytesOf 32 6)) 1
        "www.example.com.".toList "example.com.".toList enrollmentText = .ok tx) ↔
      ∃ k o, Reads (hexEncode pkcs8) (hexEncode (Reference.bytesOf 32 6)) 1
        "www.example.com.".toList "example.com.".toList enrollmentText k o) ∧
    ∀ tx, witness (hexEncode pkcs8) "felidae".toList (hexEncode (Reference.bytesOf 32 6)) 1
        "www.example.com.".toList "example.com.".toList enrollmentText = .ok tx →
      ∃ k o, Reads (hexEncode pkcs8) (hexEncode (Reference.bytesOf 32 6)) 1
          "www.example.com.".toList "example.com.".toList enrollmentText k o ∧
        ∃ buf, hexDecode tx = some buf ∧
          AuthenticatedTx.fromProto buf = .ok ⟨witnessing "felidae".toList k o⟩ :=
  witness_exact fun _ _ h ↦ by
    rw [reads_observation h]
    exact reliable_observing

end Client

/-! ## What is observed of a domain -/

section Observe

/-- What the web answers about the enrollment of a domain: there is none, or a text. -/
inductive Fetches (env : Surroundings) (domain : FQDN) : Option Str → Prop where
  | none {response : HttpResponse} (hget : env.get (enrollmentUrl domain) = .ok response)
      (hgone : response.status = 404 ∨ response.status = 410) : Fetches env domain none
  | some {response : HttpResponse} {text : Str}
      (hget : env.get (enrollmentUrl domain) = .ok response)
      (hstatus : ¬(400 ≤ response.status ∧ response.status < 600))
      (htext : response.text = .ok text) : Fetches env domain (some text)

theorem fetchEnrollment_eq_ok {env : Surroundings} {domain : FQDN} {text : Option Str} :
    fetchEnrollment env domain = .ok text ↔ Fetches env domain text := by
  rw [fetchEnrollment, except_bind_eq_ok]
  simp only [mapError_eq_ok]
  constructor
  · rintro ⟨response, hget, h⟩
    split_ifs at h with hstatus hgone
    · rw [← Except.ok.inj h]
      exact .none hget hgone
    · obtain ⟨text', htext, h⟩ := except_bind_eq_ok.mp h
      rw [← Except.ok.inj h]
      exact .some hget hstatus (mapError_eq_ok.mp htext)
  · intro h
    cases h with
    | @none response hget hgone =>
      refine ⟨_, hget, ?_⟩
      rw [if_pos (by omega), if_pos hgone]
      rfl
    | some hget hstatus htext =>
      refine ⟨_, hget, ?_⟩
      rw [if_neg hstatus, htext]
      rfl

/-- The header that the blockstamp is made of. -/
def LatestBlock.header (latest : LatestBlock) : Header := ⟨latest.height, latest.appHash⟩

variable [Host] [P256] [EnrollmentHost]

/-- What an oracle observes of a domain: with its key pair, at the latest block, what the enrollment
that is fetched comes to. -/
structure Witnessed (env : Surroundings) (domain zone : FQDN) (k : KeyPair) (latest : LatestBlock)
    (o : Observation) : Prop where
  key : loadKeypair env = .ok k
  encodes : k.encode.isSome
  header : env.latestBlock = .ok latest
  blockstamp : latest.header.blockstamp = some o.blockstamp
  enrollment : ∃ text, Fetches env domain text ∧ Enrollment.Observes (text.getD []) o.hashObserved
  domain : o.domain = ⟨domain⟩
  zone : o.zone = ⟨zone⟩

variable [LawfulHost] [LawfulP256] {env : Surroundings} {chain : Option Str} {domain zone : FQDN}

/-- The transaction of an observation is handed out if it can be signed and authenticates. -/
theorem witnessDomain_eq_ok {tx : Str} : witnessDomain env chain domain zone = .ok tx ↔
    ∃ k latest o, Witnessed env domain zone k latest o ∧
      ∃ buf, (witnessing (chain.getD latest.chainId) k o).signToProto k.signWith = .ok buf ∧
        (∃ t, AuthenticatedTx.fromProto buf = .ok t) ∧ tx = hexEncode buf := by
  -- the height fits in 64 bits, so the library is given the very number
  have hheight : ∀ latest : LatestBlock, (UInt64.ofNat (latest.height.value - 1)).toNat
      = latest.height.value - 1 := fun latest ↦ by
    have := latest.height.le
    exact UInt64.toNat_ofNat_of_lt
      (lt_of_le_of_lt (Nat.sub_le _ _) (lt_of_le_of_lt this (by decide)))
  simp only [witnessDomain, except_bind_eq_ok, mapError_eq_ok, fetchEnrollment_eq_ok,
    okOrElse_eq_ok, witness_eq_ok]
  constructor
  · rintro ⟨k, hk, text, htext, latest, hlatest, height, hheight', pkcs8, hpkcs8, k', o, h, hrest⟩
    -- the library decodes the key pair that the client has encoded
    have hkey : k' = k := by
      have := h.key
      rw [hexDecode_hexEncode, Option.bind_some, KeyPair.decode_encode hpkcs8] at this
      exact (Option.some.inj this).symm
    subst hkey
    rw [lastBlockHeight] at hheight'
    split_ifs at hheight' with hpos
    obtain rfl := Except.ok.inj hheight'
    refine ⟨k', latest, o, ?_, hrest⟩
    have hblock : o.blockstamp.blockHeight = latest.height.pred :=
      Height.ext (h.blockHeight.trans (hheight latest))
    have hhash : latest.appHash = o.blockstamp.appHash :=
      Option.some.inj ((hexDecode_hexEncode _).symm.trans h.appHash)
    have hstamp : o.blockstamp = ⟨latest.height.pred, latest.appHash⟩ := by rw [← hblock, hhash]
    exact {
      key := hk
      encodes := by rw [hpkcs8]; rfl
      header := hlatest
      blockstamp := by rw [hstamp, Header.blockstamp]; exact if_pos hpos
      enrollment := ⟨text, htext, h.enrollment⟩
      domain := by
        have := h.domain
        rw [LawfulHost.fqdnFromStr_display] at this
        rw [Except.ok.inj this]
      zone := by
        have := h.zone
        rw [LawfulHost.fqdnFromStr_display] at this
        rw [Except.ok.inj this] }
  · rintro ⟨k, latest, o, h, hrest⟩
    obtain ⟨text, htext, hobserves⟩ := h.enrollment
    obtain ⟨pkcs8, hpkcs8⟩ := Option.isSome_iff_exists.mp h.encodes
    have hstamp := h.blockstamp
    rw [Header.blockstamp] at hstamp
    split_ifs at hstamp with hpos
    refine ⟨k, h.key, text, htext, latest, h.header, latest.height.value - 1, if_pos hpos, pkcs8,
      hpkcs8, k, o, ?_, hrest⟩
    exact {
      key := by rw [hexDecode_hexEncode, Option.bind_some, KeyPair.decode_encode hpkcs8]
      enrollment := hobserves
      domain := by rw [LawfulHost.fqdnFromStr_display, h.domain]
      zone := by rw [LawfulHost.fqdnFromStr_display, h.zone]
      appHash := by rw [hexDecode_hexEncode, ← Option.some.inj hstamp]; rfl
      blockHeight := by rw [hheight, ← Option.some.inj hstamp]; rfl }

end Observe

namespace Client

/-- What the reference oracle makes of the page that is served. -/
theorem witnessed_observation {k : KeyPair} {latest : LatestBlock} {o : Observation}
    (h : Witnessed surroundings (Reference.nameOf "www.example.com.")
      (Reference.nameOf "example.com.") k latest o) :
    latest.chainId = "felidae".toList ∧ o = observation := by
  obtain rfl := Except.ok.inj h.header
  obtain ⟨text, hfetches, hobserves⟩ := h.enrollment
  have htext : text = some enrollmentText :=
    Except.ok.inj ((fetchEnrollment_eq_ok.mpr hfetches).symm.trans rfl)
  rw [htext] at hobserves
  have hhash := observes_enrollmentText hobserves
  have hstamp : o.blockstamp = ⟨Reference.firstHeight, Reference.bytesOf 32 6⟩ :=
    Option.some.inj (h.blockstamp.symm.trans rfl)
  have hdomain := h.domain
  have hzone := h.zone
  obtain ⟨_, _, _, _⟩ := o
  dsimp only at hdomain hzone hstamp hhash
  rw [hdomain, hzone, hstamp, hhash]
  exact ⟨rfl, rfl⟩

end Client

end Felidae
