import Mathlib.Logic.Function.Basic
import Felidae.Chain.Run
import Felidae.Foundation.Table
import Felidae.Ledger.Reads
import Felidae.Proto.Wire

/-!
# A reference host

An instance of `Host` to run the chain on. Transactions are written in the wire format of
`transaction.proto`. SHA-256, P-256 and RFC 3339 are known at the values that occur in the runs of
this development: `samples` are transactions with their real digests and signatures.
-/

namespace Felidae.Reference

/-! ## Names -/

/-- A label, if the text is one. -/
def labelOfText (s : Str) : Option Label :=
  if h : s ≠ [] ∧ s.length ≤ 63 ∧ s.all isLabelChar ∧ s.head? ≠ some '-'
      ∧ s.getLast? ≠ some '-' then
    some ⟨s, h.1, h.2.1, List.all_eq_true.mp h.2.2.1, h.2.2.2.1, h.2.2.2.2⟩
  else none

/-- The labels before the dots; a lone dot is the root. A name has to end in a dot. -/
def fqdnOfText (s : Str) : Option FQDN :=
  if s = ['.'] then some .root
  else if s.getLast? = some '.' then
    ((s.dropLast.splitOn '.').mapM labelOfText).bind FQDN.ofLabels
  else none

def fqdnFromStr (s : Str) : Except String FQDN := (fqdnOfText s).elim (.error "invalid name") .ok

def nameOf (text : String) : FQDN := (fqdnOfText text.toList).getD .root

def www : PrefixOrderDomain := ⟨nameOf "www.example.com."⟩

def com : FQDN := nameOf "com."

theorem labelOfText_text (l : Label) : labelOfText l.text = some l :=
  dif_pos ⟨l.ne_nil, l.length_le, List.all_eq_true.mpr l.chars, l.head_ne, l.last_ne⟩

theorem fqdnOfText_display (d : FQDN) : fqdnOfText d.display = some d := by
  obtain ⟨labels, hlength⟩ := d
  cases labels with
  | nil => rfl
  | cons l ls =>
    have htexts : (l :: ls).map Label.text ≠ [] := by simp
    have hdisplay : FQDN.display ⟨l :: ls, hlength⟩
        = List.intercalate ['.'] ((l :: ls).map Label.text) ++ ['.'] := by
      rw [intercalate_append htexts, List.flatMap_map]
      rfl
    have hne : FQDN.display ⟨l :: ls, hlength⟩ ≠ ['.'] := by
      intro h
      have hlen := congrArg List.length h
      have hpos := List.length_pos_iff.mpr l.ne_nil
      simp only [FQDN.display, List.flatMap_cons, List.length_append, List.length_singleton] at hlen
      omega
    have hsplit := List.splitOn_intercalate '.'
      (fun t (ht : t ∈ (l :: ls).map Label.text) ↦ by
        obtain ⟨l', -, rfl⟩ := List.mem_map.mp ht
        exact l'.dot_notMem) htexts
    have hlabels : ∀ ls : List Label, (ls.map Label.text).mapM labelOfText = some ls := by
      intro ls
      induction ls with
      | nil => rfl
      | cons l ls ih => rw [List.map_cons, List.mapM_cons, labelOfText_text, ih]; rfl
    rw [fqdnOfText, if_neg hne, hdisplay, if_pos (by simp), List.dropLast_concat, hsplit, hlabels,
      Option.bind_some, FQDN.ofLabels, dif_pos hlength]

theorem fqdnFromStr_display (d : FQDN) : fqdnFromStr d.display = .ok d := by
  rw [fqdnFromStr, fqdnOfText_display, Option.elim_some]

/-! ## Transactions

Three accounts and what they sign in the runs of this development. -/

/-- The lowest `len` bytes of a number, the highest first. -/
def bytesOf (len n : ℕ) : Bytes :=
  (List.range len).map fun i ↦ UInt8.ofNat (n / 256 ^ (len - 1 - i))

def alice : Bytes := bytesOf 33
  0x03c322c06fa0832cfd6029ed50dbc9725027c4bd29af3e7330ee56fd25d4175e33

def bob : Bytes := bytesOf 33
  0x02c60bb22b12764c9e03b7abd5c553f8efd5d73736249a0c4fcfe764082335d59f

def carol : Bytes := bytesOf 33
  0x033b725ed9361b3f26f20dc1a1aecc0a07d7487fd179a905e406d2b66f39e44cba

def votingOf (identities : List Bytes) (quorum timeout : Int64) : Proto.VotingConfig :=
  ⟨Int64.ofNat identities.length, quorum, timeout, 0⟩

def configOf (version : Int64) (admins : List Bytes) (adminQuorum : Int64) (oracles : List Bytes)
    (oracleQuorum oracleTimeout maxEnrolledSubdomains : Int64) (enabled : Bool) :
    Proto.Config where
  adminConfig := some ⟨admins.map Proto.Admin.mk, some (votingOf admins adminQuorum 1000)⟩
  oracleConfig := some {
    oracles := oracles.map fun i ↦ ⟨some ⟨i⟩, "127.0.0.1".toList⟩
    votingConfig := some (votingOf oracles oracleQuorum oracleTimeout)
    enabled := enabled
    maxEnrolledSubdomains := maxEnrolledSubdomains
    observationTimeout := 1000 }
  onionConfig := some ⟨false⟩
  version := version

def reconfigureBy (identity : Bytes) (config : Proto.Config) : Proto.Action :=
  ⟨some (.reconfigure ⟨some (.unsigned identity), some config, some ⟨-1000, 0⟩, some ⟨1000, 0⟩⟩)⟩

def observeBy (identity : Bytes) (domain zone : String) (hash : ℕ) : Proto.Action :=
  ⟨some (.observe ⟨some (.unsigned identity), some {
    domain := domain.toList
    zone := zone.toList
    hashObserved := some ⟨bytesOf 32 hash⟩
    blockstamp := some ⟨bytesOf 32 6, 1⟩ }⟩)⟩

/-- The three accounts as admins, two of whom decide, and one of them as the oracle. -/
def foundingConfig : Proto.Config := configOf 1 [alice, bob, carol] 2 [alice] 1 1000 5 true

/-- The founding config without `alice` as an admin, with a lower quorum and a higher limit. -/
def smallerConfig : Proto.Config := configOf 2 [bob, carol] 1 [alice] 1 1000 10 true

/-- The founding config with a delay for observations. -/
def delayedConfig : Proto.Config :=
  { foundingConfig with
    oracleConfig := foundingConfig.oracleConfig.map fun c ↦
      { c with votingConfig := c.votingConfig.map fun v ↦ { v with delay := 1000 } } }

/-- A transaction all of whose actions are signed with one key. -/
structure Sample where
  unsigned : Proto.Transaction
  digest : ℕ
  r : ℕ
  s : ℕ

namespace Sample

def signature (x : Sample) : Bytes := bytesOf 32 x.r ++ bytesOf 32 x.s

/-- The transaction with its signatures. -/
def tx (x : Sample) : Proto.Transaction :=
  Traverse.traverseMut (fun s ↦ ⟨s.publicKey, x.signature⟩) x.unsigned

def bytes (x : Sample) : Bytes := Proto.Transaction.layout.encode x.tx

end Sample

def sample (actions : List Proto.Action) (digest r s : ℕ) : Sample :=
  ⟨⟨"felidae".toList, actions⟩, digest, r, s⟩

/-- Two hashes to observe. -/
def hash₁ : ℕ := 0x33112ee14ee469c3eb52fe90322ec81dd404a0093d565a6d71ce77cbc8124e3b

def hash₂ : ℕ := 0xf998fe06afa0cfbe73e0449dc2b1698309e1b5714960f027b2858312b152c275

def found : Sample := sample [reconfigureBy alice foundingConfig]
  0xe6236f1d0846c1d006f1b93bc295e1712328c3fdcbf6cab18e0eb2556711b649
  0xffb44aa9171eb5aa242254dd302a7cf88546c6a241a573737ce31b41cc5fbc1f
  0x2f65b50699a85cc8ed2a8ecea16f393bb2061a92d915339808aca27a421f81eb

def foundTwice : Sample :=
  sample [reconfigureBy alice foundingConfig, reconfigureBy alice foundingConfig]
  0x8e3e2395fbebc9ac4b666d8d26a37bf1d27711ba8fbd29949614a0f977be3b76
  0x6dfa7b5c83c8cb07ec1ad12aa8dd8aae6d72051847c88b7f62aa2b6d8aa70036
  0x35bd0f655ed32a6e915fa1c0403aed84ce951d78f2c19af66a06c3688f414504

def foundDoubled : Sample :=
  sample [reconfigureBy alice (configOf 1 [alice, alice] 2 [alice] 1 1000 5 true)]
  0x3d80c7e5ab8a91d59b7f1b6bf83c21bf1fcca1a9ed3d959b455381fed46578ef
  0x449ea5e61f6492092e824dca2ae71356b97370d9fe4bfde6e7054842ac0cadc3
  0x3e3f106b5f91d229b9398249e0d9508a133e52eb40774673f270e91a6fb85873

def shrinkByBob : Sample := sample [reconfigureBy bob smallerConfig]
  0x2109386346010d347eb7c52851172e2378a647ca23a9d7c1071211b9324220c4
  0x2e536f90bac1ceeef548091b05e449359f4e3e0cb2bc438a8746ea52b72521db
  0xcbb12388bf49595b7bdda7be69d3bf6ef491160087d643b453b5e3f767c134c5

def shrinkByCarol : Sample := sample [reconfigureBy carol smallerConfig]
  0xef6da76f8f3b71512d97f8137ca20bb3ea9a6e512cb2dd968113b737d3b4d0fc
  0xd32ff2f80e63fba486cdcf8e102f8169401e3a10833fda76e556af49a2fa7eda
  0x5d5c94225c630b75bf07f50ef50b7542c10b69d7df9e95dd67745269719bae3b

def restoreByAlice : Sample := sample [reconfigureBy alice { foundingConfig with version := 3 }]
  0x3e126aee2593db6beb8d5396b9692c23fbdce1eb887652bb0a054d73973efa24
  0xb6764e4a2ff151a932bcf4292a61fb74a59a9de7fe1adf9225932eacafb90ce7
  0x3cc147b63f142f64638422f9f3dbe2f9f1097c1b6aecd9703e1953f87c7c3976

def renewByBob : Sample := sample [reconfigureBy bob { smallerConfig with version := 4 }]
  0x3203d43c2a63636e5a3a5a2e359ef946a531425245de1e1d10e7ad2010dfbb82
  0x276b3fff0edc20ae28ead24f3bafa6e02c41a2ab4f5bbe887fc7ab031540aa67
  0x2429d1f25f379e176cc02543c1f3e75070ee21ba936019e09e0e67bd172c4433

def foundInstant : Sample :=
  sample [reconfigureBy alice (configOf 1 [alice, bob, carol] 2 [alice] 1 0 5 true)]
  0xa6b1f6b3de9e2da08b6fa2e43a57c2bdf01cbe2f061c8705f1de0e023925be3b
  0xa182de2ad56461086986444f065f899fa52de84528d9385d0bc7a651587fe563
  0x1a378ccf660ad4e15c539ce4cdea719761910a9e9886cdf292d849266d9e1cad

def foundPair : Sample :=
  sample [reconfigureBy alice (configOf 1 [alice, bob, carol] 2 [alice, bob] 2 10 5 true)]
  0xd535c592547e48d8dd395983fa53e15791a0d921efde1423458916fea0402a8a
  0x83002cd10ff0282b81ef8f79770392b14d9ab066965baec1a5e149565c508ae5
  0xd3e7a429b2e51eadee92e46c37e8f698d20bf6eecb091ae94717ed6b94649947

def foundDisabled : Sample :=
  sample [reconfigureBy alice (configOf 1 [alice, bob, carol] 2 [alice] 1 1000 5 false)]
  0x0eeff2a442a487a333d82e35a8bbb93a4e4e8b673eefc3f4950c610b3177dd37
  0x9adcb2d2e62c0f5857978900fe25619c84cf36bf3ae739e0fd55c1f6b06eba94
  0xa21f81e7346b141d850d3cab742fb8448d6912eadb708e2634f5075bcd90cc7a

def foundSingle : Sample :=
  sample [reconfigureBy alice (configOf 1 [alice, bob, carol] 2 [alice] 1 1000 1 true)]
  0x6e041ba12ba3159866ae86018cd0ac1b82a762c832c9c427647053e8151ff598
  0xa50c6611c52df025175f8ed5040a2de9d52fd323017f316a06e4329f74432bcc
  0xfdc4d10631756f441895ba46bf5bf253ef708f75955cf15163a7867968311135

def foundDelayed : Sample := sample [reconfigureBy alice delayedConfig]
  0x11f11f081a34d9315c8ef138414dd8d7a23aac4f3e5703bf3a25c0faa84d6398
  0x577db283d74b0cf90e7279d1b290dba9c63df984e5d5620e651b55207b740b1c
  0xe7dbdd6808cdef4568c66c7b541047631e9fa4ba270aa965d4e915c7a6940fb7

def observeByAlice : Sample := sample [observeBy alice "www.example.com." "com." hash₁]
  0x7fdd3903e0287dfefd5c84cfde9721f8cd3df8a3514b744f35b00cfd35c0a01a
  0xe5f6764680259f04f67b32ea9fdec1bec7aa76a28fccd460467ee473ed065d42
  0xc25a5c5a92e6a06b8eaded658dc093bfd664eb46a0541fcac2f27fbe82f6b1b4

def observeByBob : Sample := sample [observeBy bob "www.example.com." "com." hash₁]
  0x01f0d5a6febb25ef1715e2a5786dc1f3544ebe5c626d457216452cb291aca43b
  0x80b55064a7304a075e6daba373fc50cb8f3354660e21d2dcc1b5419bda6ebb1a
  0x536ad4ef679b0fef12152ffa38560e4085944103d3c897f967eb8302ff884fb4

def observeOtherByAlice : Sample := sample [observeBy alice "www.example.com." "com." hash₂]
  0xbf3b624dc6b9d0894693fecfd1e82e2f0b41c828753e8ff253f59f8a43a8a991
  0x72ca69c3ea3609651aaa61918bdd597ce1f2c8abbc976b837361c0ed93a733ea
  0x69c28854b4f33d2a3953da3e1e30b39b256a1b68babec73c8df6bcd9a5e20fb6

def observeOrgByBob : Sample := sample [observeBy bob "www.example.org." "org." hash₁]
  0x579a1809b7926ae7d0127e9aa0aae62f0ef0117957a8a5585ed2ae785267e5d9
  0xd8bfdb197343b9c1aef3a2588d5461f98c982fa939f5eff3b27c3830f15f041f
  0xa886353a3fb38678bff96b002f11f0097de4e55e1af96d356013289a6fef47bd

/-- The observation again, under the name below the zone. -/
def observeNarrowByAlice : Sample :=
  sample [observeBy alice "www.example.com." "example.com." hash₁]
  0x3ea43604e6eb5b7c562b3284e5cc65a3441e44fc7a18a940f22f3443994926ee
  0x660085bdd1c7b76b5dea0062a10c9e3cf1826aef413c0ce51cbbf28a0ab57f9d
  0x8480bc7c3f96b5fb65ac85160565c69e22374f0c5eb185d168df57d000930758

def observeDeepByAlice : Sample :=
  sample [observeBy alice "x.www.example.com." "www.example.com." hash₁]
  0x4d413be5f14ef80c10a71455233fe2ddd26cf541c6452ae871cda3bad58cfb11
  0xd32ca553e5e682794bb8fd1a7e2247374e3d980192cd849bdae957d6ba471f40
  0xcf216af61d779217df05a049b15eb91ed7aac832cdf23254229274afa081e3af

def samples : List Sample :=
  [found, foundTwice, foundDoubled, shrinkByBob, shrinkByCarol, restoreByAlice, renewByBob,
    foundInstant, foundPair, foundDisabled, foundSingle, foundDelayed, observeByAlice,
    observeByBob, observeOtherByAlice, observeOrgByBob, observeNarrowByAlice, observeDeepByAlice]

/-! ## Times -/

theorem validSecs_zero : ValidSecs 0 := by decide

def timeAt (secs : ℤ) : Time :=
  (Time.fromUnixTimestamp secs 0).getD ⟨0, 0, validSecs_zero, Nat.succ_pos 999999999⟩

/-- The block times of the runs of this development. -/
def times : List (Time × Str) :=
  [(timeAt (-10), "1969-12-31T23:59:50Z".toList), (timeAt (-9), "1969-12-31T23:59:51Z".toList),
    (timeAt 0, "1970-01-01T00:00:00Z".toList), (timeAt 5, "1970-01-01T00:00:05Z".toList),
    (timeAt 10, "1970-01-01T00:00:10Z".toList), (timeAt 20, "1970-01-01T00:00:20Z".toList),
    (timeAt 30, "1970-01-01T00:00:30Z".toList), (timeAt 40, "1970-01-01T00:00:40Z".toList),
    (timeAt 1100, "1970-01-01T00:18:20Z".toList)]

/-- How other times are written: in unary. -/
def otherText (t : Time) : Str :=
  '#' :: (if t.unixTimestamp < 0 then '-' else '+') ::
    (List.replicate t.unixTimestamp.natAbs '0' ++ '.' :: List.replicate t.nanos '0')

def parseOther : Str → Option Time
  | '#' :: sign :: s =>
    let secs := (s.takeWhile (· ≠ '.')).length
    Time.fromUnixTimestamp (if sign = '-' then -secs else secs)
      (s.dropWhile (· ≠ '.')).tail.length
  | _ => none

theorem parseOther_otherText (t : Time) : parseOther (otherText t) = some t := by
  obtain ⟨secs, nanos, hvalid, hnanos⟩ := t
  have hzeros : ∀ n, ∀ c ∈ List.replicate n '0', decide (c ≠ '.') = true := fun n c hc ↦ by
    rw [List.eq_of_mem_replicate hc]
    decide
  have hsecs : (if (if secs < 0 then '-' else '+') = '-' then -(secs.natAbs : ℤ)
      else secs.natAbs) = secs := by
    by_cases h : secs < 0
    · rw [if_pos h, if_pos rfl]
      omega
    · rw [if_neg h, if_neg (by decide)]
      omega
  simp only [otherText, parseOther]
  rw [List.takeWhile_append_of_pos (hzeros _), List.dropWhile_append_of_pos (hzeros _),
    List.takeWhile_cons_of_neg (by decide), List.dropWhile_cons_of_neg (by decide),
    List.append_nil, List.length_replicate, List.tail_cons, List.length_replicate, hsecs,
    Time.fromUnixTimestamp, dif_pos ⟨hvalid, hnanos⟩]

def rfc3339 : Time → Str := tabulate times otherText

def parseRfc3339 (s : Str) : Option Time :=
  match times.find? fun e ↦ e.2 = s with
  | some e => some e.1
  | none => parseOther s

theorem rfc3339_injective : Function.Injective rfc3339 := by
  have hother : Function.Injective otherText := fun t t' h ↦ by
    rw [← Option.some_inj, ← parseOther_otherText, h, parseOther_otherText]
  refine tabulate_injective hother (by decide) fun t ht ↦ ?_
  have hhead : ∀ s ∈ times.map Prod.snd, s.head? = some '1' := by decide
  exact absurd (hhead _ ht) (by simp [otherText])

theorem parseRfc3339_rfc3339 (t : Time) : parseRfc3339 (rfc3339 t) = some t := by
  have htable : ∀ e ∈ times, rfc3339 e.1 = e.2 := by decide
  rw [parseRfc3339]
  rcases hfind : times.find? fun e ↦ e.2 = rfc3339 t with _ | e <;> rw [hfind]
  · rcases tabulate_cases times otherText t with hmem | hother
    · have := List.find?_eq_none.mp hfind _ hmem
      simp [rfc3339] at this
    · change parseOther (rfc3339 t) = some t
      rw [rfc3339, hother, parseOther_otherText]
  · have he := List.find?_some hfind
    rw [decide_eq_true_iff, ← htable e (List.mem_of_find?_eq_some hfind)] at he
    exact congrArg some (rfc3339_injective he)

theorem slash_notMem_rfc3339 (t : Time) : '/' ∉ rfc3339 t := by
  rcases tabulate_cases times otherText t with hmem | hother
  · have htable : ∀ s ∈ times.map Prod.snd, '/' ∉ s := by decide
    exact htable _ (List.mem_map_of_mem hmem)
  · rw [rfc3339, hother, otherText]
    by_cases h : t.unixTimestamp < 0 <;> simp [h]

/-! ## The host -/

/-- A `Timestamp`, the chain id, the consensus parameters, the validators, the state of the app and
the initial height, as `RequestInitChain` lists them. -/
def encodeInitChain (request : InitChain) : Bytes :=
  (Fields.cons (.message 1 Proto.Timestamp.layout) <| .cons (.string 2) <|
    .cons (.optional 26 .bytes) <| .cons (.repeated 34 .bytes) <| .cons (.bytes 5) <|
    .one (.int64 6)).encode (some request.time.toProto, request.chainId,
      some request.consensusParams, request.validators.map update, request.appStateBytes,
      Int64.ofNat request.initialHeight.value)
where
  /-- A `ValidatorUpdate`, whose public key is a `oneof`. -/
  update (v : Update) : Bytes :=
    let publicKey : Bytes × Bytes := match v.pubKey with
      | .ed25519 b => (b, [])
      | .secp256k1 b => ([], b)
    (Fields.cons (.optional 10 .bytes) <| .one (.int64 2)).encode
      (some ((Fields.cons (.bytes 1) <| .one (.bytes 2)).encode publicKey),
        Int64.ofNat v.power.value)

def validatorKey : Bytes :=
  bytesOf 32 0xa379221e7eeb2ae9b162f5b40ab50bdfeafbd05c397793f95c52fa1cb0695761

def power : Power := ⟨10, by decide⟩

def firstHeight : Height := ⟨1, by decide⟩

/-- A genesis without a config of its own. -/
def genesis : InitChain where
  time := timeAt 0
  chainId := "felidae".toList
  consensusParams := []
  validators := [⟨.ed25519 validatorKey, power⟩]
  appStateBytes := []
  initialHeight := firstHeight

/-- What is hashed: the samples without their signatures, the genesis, and the validator's key. -/
def digests : List (Bytes × Bytes) :=
  samples.map (fun x ↦ (Proto.Transaction.layout.encode x.unsigned, bytesOf 32 x.digest)) ++
    [(encodeInitChain genesis,
        bytesOf 32 0x56210bc259106922dce33708303a907f2c3e2d3f01207657e3df07b327c909be),
      (validatorKey,
        bytesOf 32 0x86a18e5c26fd0a8e29427dbd6e935afcfd5142fdab0a3007b5319d6d80ccf6ef)]

/-- The reference host. No root hash of the state is known here: its place is taken by the number
of entries, in as many bytes as a root hash has. -/
scoped instance : Host where
  decodeTransaction b := (samples.find? fun x ↦ x.bytes = b).map Sample.tx
  encodeTransaction := Proto.Transaction.layout.encode
  encodeInitChain := encodeInitChain
  sha256 := tabulate digests fun b ↦ List.replicate 33 0 ++ b
  ecdsaVerify publicKey digest signature := samples.any fun x ↦
    bytesOf 32 x.digest = digest && x.signature = signature &&
      x.tx.signatures.any fun s ↦ s.publicKey = publicKey
  fqdnFromAsciiStr := fqdnOfText
  fqdnFromStr := fqdnFromStr
  rfc3339 := rfc3339
  parseRfc3339 := parseRfc3339
  fromRawEd25519 b := if b.length = 32 then some (.ed25519 b) else none
  parseAppState _ := .error "expected value at line 1 column 1"
  parseConfig _ := .error "expected value"
  rootHash v := bytesOf 32 v.size

scoped instance : LawfulHost where
  fqdnFromAsciiStr_display := fqdnOfText_display
  fqdnFromStr_display := fqdnFromStr_display
  parseRfc3339_rfc3339 t := parseRfc3339_rfc3339 t.toTime
  slash_notMem_rfc3339 t := slash_notMem_rfc3339 t.toTime

/-! ## Blocks -/

/-- The orders in which entries are listed, and the other way round. -/
def listed : IterOrder := ⟨fun _ ↦ Equiv.refl _⟩

def reversed : IterOrder := ⟨fun _ ↦ Fin.revPerm⟩

def blockAt (height : ℕ) (secs : ℤ) (txs : List Sample) : FinalizeBlock where
  txs := txs.map Sample.bytes
  votes := []
  misbehavior := []
  height := (Height.ofNat? height).getD .zero
  time := timeAt secs

/-- The chain is founded, and a domain observed. -/
def enrolling : List FinalizeBlock := [blockAt 2 20 [observeByAlice], blockAt 1 10 [found]]

/-- The chain is founded; then a vote for a third config is cast while a second one, with a lower
quorum, is pending; then one for a fourth. -/
def shrinking : List FinalizeBlock :=
  [blockAt 3 30 [renewByBob], blockAt 2 20 [shrinkByBob, shrinkByCarol, restoreByAlice],
    blockAt 1 10 [found]]

/-- The chain is founded; then a second config is voted for, and put in force. -/
def superseding : List FinalizeBlock :=
  [blockAt 2 20 [shrinkByBob, shrinkByCarol], blockAt 1 10 [found]]

/-- A domain is observed, and pending for a while. -/
def awaiting : List FinalizeBlock := [blockAt 2 20 [observeByAlice], blockAt 1 10 [foundDelayed]]

/-- Two oracles decide. One of them observes a domain. -/
def voting : List FinalizeBlock := [blockAt 2 5 [observeByAlice], blockAt 1 0 [foundPair]]

/-- Then the other one does. The first one votes once more, and this vote times out. -/
def lapsing : List FinalizeBlock :=
  [blockAt 4 30 [], blockAt 3 10 [observeByBob, observeOtherByAlice]] ++ voting

/-- The given blocks, with one order for all tallies. -/
def inOrder (order : IterOrder) (requests : List FinalizeBlock) :
    List ((ℕ → ℕ → IterOrder) × FinalizeBlock) :=
  requests.map fun request ↦ (fun _ _ ↦ order, request)

@[simp] theorem map_snd_inOrder (order : IterOrder) (requests : List FinalizeBlock) :
    (inOrder order requests).map Prod.snd = requests := by
  simp [inOrder, Function.comp_def]

/-- A run through blocks that can be run. -/
theorem exists_run {genesis : InitChain} {order : IterOrder} {requests : List FinalizeBlock}
    (h : (Run.exec genesis (inOrder order requests)).isSome) :
    ∃ ms s, Run.exec genesis (inOrder order requests) = some (ms, s) ∧
      Run genesis requests ms s := by
  obtain ⟨⟨ms, s⟩, hexec⟩ := Option.isSome_iff_exists.mp h
  have hrun := Run.of_exec hexec
  rw [map_snd_inOrder] at hrun
  exact ⟨ms, s, hexec, hrun⟩

/-- A run whose moments and last store pass a test. -/
theorem exists_run_of_any (genesis : InitChain) (order : IterOrder)
    (requests : List FinalizeBlock) (P : List (Moment Store Event) × Store → Bool)
    (h : (Run.exec genesis (inOrder order requests)).any P = true) :
    ∃ ms s, Run genesis requests ms s ∧ P (ms, s) = true := by
  obtain ⟨⟨ms, s⟩, hexec, hP⟩ := (Option.any_eq_true ..).mp h
  have hrun := Run.of_exec hexec
  rw [map_snd_inOrder] at hrun
  exact ⟨ms, s, hrun, hP⟩

theorem isSome_exec_enrolling : (Run.exec genesis (inOrder listed enrolling)).isSome := by
  decide +kernel

theorem isSome_exec_shrinking : (Run.exec genesis (inOrder listed shrinking)).isSome := by
  decide +kernel

/-! ## Votes -/

/-- The votes that are stored for the domain. -/
def votesAt (s : Store) : Option (List (Vote PrefixOrderDomain OracleVoteValue)) :=
  ((QueueId.oracle.queue State.defaultConfig).votesForKey www s).toOption

theorem votesForKey_of_votesAt {s : Store} {votes : List (Vote PrefixOrderDomain OracleVoteValue)}
    (h : votesAt s = some votes) (c : Config) :
    (QueueId.oracle.queue c).votesForKey www s = .ok votes :=
  except_toOption_eq_some.mp h

/-- A vote is stored for the domain. -/
def hasVote (s : Store) : Bool :=
  (votesAt s).any fun votes ↦ votes.any fun vote ↦ vote.key = www

theorem exists_storedVote {s : Store} (h : hasVote s = true) :
    ∃ vote, StoredVote .oracle s vote ∧ vote.key = www := by
  obtain ⟨votes, hvotes, h⟩ := (Option.any_eq_true ..).mp h
  obtain ⟨vote, hmem, hkey⟩ := List.any_eq_true.mp h
  have hkey : vote.key = www := of_decide_eq_true hkey
  refine ⟨vote, fun c ↦ ⟨votes, ?_, hmem⟩, hkey⟩
  rw [hkey]
  exact votesForKey_of_votesAt hvotes c

/-! ## Injectivity -/

theorem encodeTransaction_injective : Function.Injective Host.encodeTransaction :=
  Proto.Transaction.layout.injective

theorem sha256_injective : Function.Injective Host.sha256 := by
  refine tabulate_injective (fun _ _ h ↦ List.append_cancel_left h) (by decide +kernel)
    fun b hb ↦ ?_
  have hlength : ∀ d ∈ digests.map Prod.snd, d.length = 32 := by decide +kernel
  have := hlength _ hb
  simp at this

end Felidae.Reference
