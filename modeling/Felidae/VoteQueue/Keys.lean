import Felidae.Store

/-!
# Keys of a vote queue

A vote queue lays out four tables in the store, under its own prefix: the votes and the pending
changes by key, in the verifiable part, and an index of each by the second it was made, in the
non-verifiable part. Keys are text with `/` between the segments; the index keys start with the
second as a big-endian `i64`, so that a scan goes from the oldest entry to the newest.

The same time is written twice in different forms, as RFC 3339 text and as an integer, and both
drop the fraction of the second.
-/

namespace Felidae

/-- A vote queue: a view of the state under a prefix, with the voting parameters in force. `K` and
`V` are the types of its keys and values. -/
structure VoteQueue (K V : Type) where
  internalStatePrefix : Str
  config : VotingConfig
  deriving DecidableEq

namespace VoteQueue

variable {K V : Type} (q : VoteQueue K V)

/-- The prefix without its trailing slash. -/
def base : Str := stripTrailing '/' q.internalStatePrefix

/-- `"/"` after an exact match, nothing otherwise. -/
def exactly (exact : Bool) : Str := if exact then ['/'] else []

/-! ## Votes -/

def votesByKeyPrefix (key : Str) (exact : Bool) : Str :=
  q.base ++ "/votes_by_key/".toList ++ key ++ exactly exact

def votesByKeyPartyPrefix (key party : Str) (exact : Bool) : Str :=
  q.base ++ "/votes_by_key/".toList ++ key ++ '/' :: party ++ exactly exact

def votesByTimestampAllPrefix : Bytes := toUtf8 (q.base ++ "/votes_by_timestamp/".toList)

def indexVotesByTimestampKeyParty (timestamp : Time) (key party : Str) : Bytes :=
  toUtf8 (q.base ++ "/votes_by_timestamp/".toList) ++ i64ToBeBytes timestamp.unixTimestamp
    ++ toUtf8 ('/' :: key) ++ toUtf8 ('/' :: party)

/-! ## Pending changes -/

def pendingByKeyPrefix (key : Str) (exact : Bool) : Str :=
  q.base ++ "/pending_by_key/".toList ++ key ++ exactly exact

def indexPendingByTimestampAllPrefix : Bytes := toUtf8 (q.base ++ "/pending_by_timestamp/".toList)

def indexPendingByTimestampKey (timestamp : Time) (key : Str) : Bytes :=
  toUtf8 (q.base ++ "/pending_by_timestamp/".toList) ++ i64ToBeBytes timestamp.unixTimestamp
    ++ toUtf8 ('/' :: key)

/-! ## Parsing -/

def stripKeyPrefix (key : Str) (keyType : String) : Except Fault Str :=
  match stripPrefix (q.base ++ '/' :: keyType.toList ++ ['/']) key with
  | none => .error (.corrupt "key does not start with expected prefix")
  | some remainder => .ok remainder

/-- The time and the rest of an index key. Slicing past the length would panic; the length is
checked before. -/
def parseTimestampIndexKey (key : Bytes) (keyType : String) : Except Fault (Time × Str) :=
  let p := toUtf8 (q.base ++ '/' :: keyType.toList ++ ['/'])
  if key.length < p.length + 8 + 1 then
    .error (.corrupt ("invalid " ++ keyType ++ " key length"))
  else if !p.isPrefixOf key then
    .error (.corrupt "key does not start with expected prefix")
  else
    match Time.fromUnixTimestamp (i64FromBeBytes ((key.drop p.length).take 8)) 0 with
    | none => .error (.corrupt "invalid timestamp")
    | some time => match fromUtf8 (key.drop (p.length + 8 + 1)) with
      | none => .error (.corrupt "invalid utf-8 in timestamp index key")
      | some rest => .ok (time, rest)

def parseIndexVotesByTimestampKeyParty (key : Bytes) : Except Fault (Time × Str × Str) := do
  let (time, remainder) ← q.parseTimestampIndexKey key "votes_by_timestamp"
  match remainder.splitOn '/' with
  | key :: party :: _ => .ok (time, key, party)
  | _ => .error (.corrupt "invalid votes_by_timestamp key format")

def parseIndexPendingByTimestampKey (key : Bytes) : Except Fault (Time × Str) :=
  q.parseTimestampIndexKey key "pending_by_timestamp"

section

variable [Host]

def votesByKeyPartyTimestamp (key party : Str) (time : Time) : Str :=
  q.votesByKeyPartyPrefix key party true ++ Host.rfc3339 time.truncate

def pendingByKeyTimestamp (key : Str) (time : Time) : Str :=
  q.pendingByKeyPrefix key true ++ Host.rfc3339 time.truncate

def parseTimeFromRfc3339 (timeStr : Str) : Except Fault Time :=
  match Host.parseRfc3339 timeStr with
  | none => .error (.corrupt "invalid time format")
  | some time => .ok time

def parseVotesByKeyPartyTimestamp (key : Str) : Except Fault (Str × Str × Time) := do
  let remainder ← q.stripKeyPrefix key "votes_by_key"
  match remainder.splitOn '/' with
  | [key, party, timeStr] => (parseTimeFromRfc3339 timeStr).map fun time ↦ (key, party, time)
  | _ => .error (.corrupt "invalid votes_by_key_party_time key format")

def parsePendingByKeyTimestamp (key : Str) : Except Fault (Str × Time) := do
  let remainder ← q.stripKeyPrefix key "pending_by_key"
  match cutLast '/' remainder with
  | none => .error (.corrupt "invalid pending_by_key key format")
  | some (keyStr, timeStr) => (parseTimeFromRfc3339 timeStr).map fun time ↦ (keyStr, time)

end

/-! ## Parsing what was built -/

section RoundTrip

theorem stripKeyPrefix_append (keyType : String) (s : Str) :
    q.stripKeyPrefix (q.base ++ '/' :: keyType.toList ++ ['/'] ++ s) keyType = .ok s := by
  rw [stripKeyPrefix, stripPrefix_append]

theorem parseTimestampIndexKey_append (keyType : String) (t : Second) (rest : Str) :
    q.parseTimestampIndexKey (toUtf8 (q.base ++ '/' :: keyType.toList ++ ['/'])
      ++ i64ToBeBytes t.secs ++ toUtf8 ('/' :: rest)) keyType = .ok (t.toTime, rest) := by
  generalize hp : toUtf8 (q.base ++ '/' :: keyType.toList ++ ['/']) = p
  have hlen : (i64ToBeBytes t.secs).length = 8 := length_i64ToBeBytes _
  have hslash : toUtf8 ('/' :: rest) = 47 :: toUtf8 rest := by rw [toUtf8_cons]; rfl
  have htake : ((p ++ i64ToBeBytes t.secs ++ 47 :: toUtf8 rest).drop p.length).take 8
      = i64ToBeBytes t.secs := by
    rw [List.append_assoc, List.drop_left, ← hlen, List.take_left]
  have hdrop : (p ++ i64ToBeBytes t.secs ++ 47 :: toUtf8 rest).drop (p.length + 8 + 1)
      = toUtf8 rest := by
    rw [← List.drop_drop, ← hlen, ← List.length_append, List.drop_left, List.drop_one,
      List.tail_cons]
  have hprefix : p.isPrefixOf (p ++ i64ToBeBytes t.secs ++ 47 :: toUtf8 rest) = true := by
    rw [List.isPrefixOf_iff_prefix, List.append_assoc]
    exact List.prefix_append _ _
  rw [parseTimestampIndexKey, hp, hslash]
  simp only [htake, hdrop, hprefix, Second.i64FromBeBytes_toBeBytes_secs, Second.fromUnixTimestamp,
    fromUtf8_toUtf8]
  have hlong : ¬(p ++ i64ToBeBytes t.secs ++ 47 :: toUtf8 rest).length < p.length + 9 := by
    rw [List.length_append, List.length_append, List.length_cons, hlen]
    omega
  rw [if_neg hlong, if_neg (by simp)]

theorem parseIndexVotesByTimestampKeyParty_build {key party : Str} (hk : '/' ∉ key)
    (hp : '/' ∉ party) (t : Second) :
    q.parseIndexVotesByTimestampKeyParty (q.indexVotesByTimestampKeyParty t.toTime key party)
      = .ok (t.toTime, key, party) := by
  have hkey : q.indexVotesByTimestampKeyParty t.toTime key party
      = toUtf8 (q.base ++ '/' :: "votes_by_timestamp".toList ++ ['/']) ++ i64ToBeBytes t.secs
        ++ toUtf8 ('/' :: (key ++ '/' :: party)) := by
    simp [indexVotesByTimestampKeyParty, toUtf8_cons, toUtf8_append, Second.toTime]
  rw [parseIndexVotesByTimestampKeyParty, hkey, parseTimestampIndexKey_append]
  simp only [except_ok_bind, splitOn_segments₂ hk hp]

theorem parseIndexPendingByTimestampKey_build (key : Str) (t : Second) :
    q.parseIndexPendingByTimestampKey (q.indexPendingByTimestampKey t.toTime key)
      = .ok (t.toTime, key) := by
  have hkey : q.indexPendingByTimestampKey t.toTime key
      = toUtf8 (q.base ++ '/' :: "pending_by_timestamp".toList ++ ['/']) ++ i64ToBeBytes t.secs
        ++ toUtf8 ('/' :: key) := by
    simp [indexPendingByTimestampKey, Second.toTime]
  rw [parseIndexPendingByTimestampKey, hkey, parseTimestampIndexKey_append]

variable [Host] [LawfulHost]

theorem parseVotesByKeyPartyTimestamp_build {key party : Str} (hk : '/' ∉ key) (hp : '/' ∉ party)
    (t : Second) :
    q.parseVotesByKeyPartyTimestamp (q.votesByKeyPartyTimestamp key party t.toTime)
      = .ok (key, party, t.toTime) := by
  have hkey : q.votesByKeyPartyTimestamp key party t.toTime
      = q.base ++ '/' :: "votes_by_key".toList ++ ['/']
        ++ (key ++ '/' :: (party ++ '/' :: Host.rfc3339 t.toTime)) := by
    simp [votesByKeyPartyTimestamp, votesByKeyPartyPrefix, exactly]
  have hsplit := splitOn_segments₃ hk hp (LawfulHost.slash_notMem_rfc3339 t)
  rw [parseVotesByKeyPartyTimestamp, hkey, stripKeyPrefix_append]
  simp only [except_ok_bind, hsplit, parseTimeFromRfc3339, LawfulHost.parseRfc3339_rfc3339]
  rfl

theorem parsePendingByKeyTimestamp_build (key : Str) (t : Second) :
    q.parsePendingByKeyTimestamp (q.pendingByKeyTimestamp key t.toTime)
      = .ok (key, t.toTime) := by
  have hkey : q.pendingByKeyTimestamp key t.toTime
      = q.base ++ '/' :: "pending_by_key".toList ++ ['/'] ++ (key ++ '/' :: Host.rfc3339 t.toTime)
        := by
    simp [pendingByKeyTimestamp, pendingByKeyPrefix, exactly]
  have hcut := cutLast_append (s := key) (LawfulHost.slash_notMem_rfc3339 t)
  rw [parsePendingByKeyTimestamp, hkey, stripKeyPrefix_append]
  simp only [except_ok_bind, hcut, parseTimeFromRfc3339, LawfulHost.parseRfc3339_rfc3339]
  rfl

end RoundTrip

end VoteQueue

end Felidae
