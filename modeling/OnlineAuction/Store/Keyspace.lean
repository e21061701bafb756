import OnlineAuction.Store.Texts

/-!
# Redis, with texts

The keyspace that Redis really has, one for all kinds of keys, and the commands the program and its
script send to it: the reads `GET`, `HGET` and `HGETALL`, and the writes `SET ... EX`, `HSET`,
`HINCRBY`, `XADD` and `DEL`. A command on a key of another kind is an error.

## What is proved

* `Encodes` — when a keyspace holds the texts of the structures of `Store.Redis`, and what each command
  does to such a keyspace: `Encodes.get`, `Encodes.hget`, `Encodes.hgetall`, `Encodes.setEx`,
  `Encodes.hset`, `Encodes.hincr` and `Encodes.xadd`.

## Honest scope

No key expires, and a stream is not trimmed. The ids of the entries of a stream are left out, and so
are the replies that nothing reads.
-/

namespace OnlineAuction.Store

open OnlineAuction.Foundation

/-- The fields of a hash. -/
abbrev Fields := Text → Option Text

/-- What is under a key. -/
inductive Entry where
  /-- A string. -/
  | str (text : Text)
  /-- A hash. -/
  | hash (fields : Fields)
  /-- A stream, by the fields of its entries. -/
  | stream (entries : List (List (Text × Text)))

/-- Why Redis refuses a command. -/
inductive RedisError where
  /-- `WRONGTYPE`. -/
  | wrongType
  /-- A text that is no integer of 64 bits. -/
  | notAnInteger
  /-- `increment or decrement would overflow`. -/
  | overflow
  /-- `invalid expire time`. -/
  | invalidExpire
  deriving DecidableEq

/-- The keyspace. -/
abbrev Keyspace := Text → Option Entry

/-- A command: the keyspace it leaves and its reply, or an error. -/
abbrev Command (α : Type) := Keyspace → Except RedisError (Keyspace × α)

/-- The largest integer of 64 bits. -/
def int64Max : ℤ := 2 ^ 63 - 1

/-- An integer of 64 bits. -/
def readInt64 (text : Text) : Except RedisError ℤ :=
  match readInt text with
  | some n => if -int64Max - 1 ≤ n ∧ n ≤ int64Max then .ok n else .error .notAnInteger
  | none => .error .notAnInteger

/-- The integers up to here are numbers of binary64, and of 64 bits with room above them. -/
def IsSmall (n : ℤ) : Prop := |n| ≤ 2 ^ 52

theorem readInt64_intText {n : ℤ} (h : IsSmall n) : readInt64 (intText n) = .ok n := by
  have hle := abs_le.mp h
  have hbound : -int64Max - 1 ≤ n ∧ n ≤ int64Max := by
    unfold int64Max
    omega
  rw [readInt64, readInt_intText]
  exact if_pos hbound

namespace Command

/-- `GET`. -/
def get (key : Text) : Command (Option Text) := fun ks =>
  match ks key with
  | none => .ok (ks, none)
  | some (.str text) => .ok (ks, some text)
  | some _ => .error .wrongType

/-- `HGETALL`; `none` is the empty reply for a key that is not there. -/
def hgetall (key : Text) : Command (Option Fields) := fun ks =>
  match ks key with
  | none => .ok (ks, none)
  | some (.hash fields) => .ok (ks, some fields)
  | some _ => .error .wrongType

/-- `HGET`. -/
def hget (key field : Text) : Command (Option Text) := fun ks =>
  (hgetall key ks).map fun out => (out.1, out.2.bind fun fields => fields field)

/-- `SET key text EX seconds`. -/
def setEx (key text seconds : Text) : Command Unit := fun ks =>
  match readInt64 seconds with
  | .error e => .error e
  | .ok n =>
    if n ≤ 0 ∨ int64Max / 1000 < n then .error .invalidExpire
    else .ok (Function.update ks key (some (.str text)), ())

/-- Write some fields. -/
def writeFields (fields : Fields) (pairs : List (Text × Text)) : Fields :=
  pairs.foldl (fun fields pair => Function.update fields pair.1 (some pair.2)) fields

/-- `HSET`. -/
def hset (key : Text) (pairs : List (Text × Text)) : Command Unit := fun ks =>
  (hgetall key ks).map fun out =>
    (Function.update ks key (some (.hash (writeFields (out.2.getD fun _ => none) pairs))), ())

/-- `HINCRBY key field 1`. -/
def hincr (key field : Text) : Command ℤ := fun ks =>
  match hget key field ks with
  | .error e => .error e
  | .ok (_, text) =>
    match text.elim (.ok 0) readInt64 with
    | .error e => .error e
    | .ok n =>
      if int64Max < n + 1 then .error .overflow
      else (hset key [(field, intText (n + 1))] ks).map fun out => (out.1, n + 1)

/-- `XADD`. -/
def xadd (key : Text) (pairs : List (Text × Text)) : Command Unit := fun ks =>
  match ks key with
  | none => .ok (Function.update ks key (some (.stream [pairs])), ())
  | some (.stream entries) => .ok (Function.update ks key (some (.stream (entries ++ [pairs]))), ())
  | some _ => .error .wrongType

/-- `DEL`. -/
def del (key : Text) : Command Unit := fun ks => .ok (Function.update ks key none, ())

end Command

/-! ### What a keyspace stands for -/

/-- The fields of an entry of a stream. -/
def StreamEntry.pairs (e : StreamEntry) : List (Text × Text) :=
  [("bid_id".toList, uuidText e.bidId), ("bidder_id".toList, uuidText e.bidderId),
    ("amount".toList, e.amount.text), ("is_proxy".toList, (if e.isProxy then "1" else "0").toList),
    ("client_ts".toList, intText e.clientTs)]

/-- What is under the key of a stream. -/
def encodeStream (entries : List StreamEntry) : Option Entry :=
  if entries = [] then none else some (.stream (entries.map StreamEntry.pairs))

/-- Some fields of a hash are written. -/
def setFields (get : HashField → Option Text) (pairs : List (HashField × Text)) :
    HashField → Option Text :=
  pairs.foldl (fun (get : HashField → Option Text) pair => Function.update get pair.1 (some pair.2)) get

/-- The sequence number is counted up. -/
def AuctionHash.countUp (h : AuctionHash) : AuctionHash :=
  { h with sequenceNum := some (h.sequenceNum.getD 0 + 1) }

/-- The keyspace holds the texts of the structures. -/
structure Encodes (ks : Keyspace) (r : Redis) : Prop where
  /-- The hashes. -/
  hash : ∀ a, IsUuid a → ks (auctionKey a) = (r.hash a).map fun h => .hash (encodeFields h.get)
  /-- The dedup keys. -/
  result : ∀ b, IsUuid b → ks (resultKey b) = (r.bidResult b).map fun status => .str status.text
  /-- The streams. -/
  stream : ∀ a, IsUuid a → ks (streamKey a) = encodeStream (r.stream a)

/-- An empty keyspace holds nothing. -/
theorem encodes_empty : Encodes (fun _ => none) .empty := ⟨fun _ _ => rfl, fun _ _ => rfl, fun _ _ => rfl⟩

namespace Encodes

variable {ks : Keyspace} {r : Redis}

theorem get (h : Encodes ks r) {b : Uuid} (hb : IsUuid b) :
    Command.get (resultKey b) ks = .ok (ks, (r.bidResult b).map BidStatus.text) := by
  rw [Command.get, h.result b hb]
  cases r.bidResult b <;> rfl

theorem hgetall (h : Encodes ks r) {a : Uuid} (ha : IsUuid a) :
    Command.hgetall (auctionKey a) ks =
      .ok (ks, (r.hash a).map fun h => encodeFields h.get) := by
  rw [Command.hgetall, h.hash a ha]
  cases r.hash a <;> rfl

theorem hget (h : Encodes ks r) {a : Uuid} (ha : IsUuid a) (field : HashField) :
    Command.hget (auctionKey a) field.text ks = .ok (ks, (r.hash a).bind fun h => h.get field) := by
  rw [Command.hget, h.hgetall ha]
  cases r.hash a with
  | none => rfl
  | some h₀ => simp [Except.map]

/-- The texts of other keys stay. -/
theorem setEx (h : Encodes ks r) {b : Uuid} (hb : IsUuid b) (status : BidStatus) :
    Encodes (Function.update ks (resultKey b) (some (.str status.text))) (r.setResult b status) where
  hash := fun a ha => by
    rw [Function.update_of_ne (auctionKey_ne_resultKey a b)]
    exact h.hash a ha
  result := fun b' hb' => by
    by_cases heq : b' = b
    · subst heq
      simp [Redis.setResult]
    · rw [Function.update_of_ne fun hkey => heq (resultKey_inj hb' hb hkey)]
      simpa [Redis.setResult, heq] using h.result b' hb'
  stream := fun a ha => by
    rw [Function.update_of_ne (streamKey_ne_resultKey a b)]
    exact h.stream a ha

/-- What is under the key of a hash is replaced. -/
theorem setHash (h : Encodes ks r) {a : Uuid} (ha : IsUuid a) (data : Option AuctionHash) :
    Encodes (Function.update ks (auctionKey a) (data.map fun h => .hash (encodeFields h.get)))
      { r with hash := Function.update r.hash a data } where
  hash := fun a' ha' => by
    by_cases heq : a' = a
    · subst heq
      simp
    · rw [Function.update_of_ne fun hkey => heq (auctionKey_inj ha' ha hkey)]
      simpa [heq] using h.hash a' ha'
  result := fun b hb => by
    rw [Function.update_of_ne (auctionKey_ne_resultKey a b).symm]
    exact h.result b hb
  stream := fun a' ha' => by
    rw [Function.update_of_ne (auctionKey_ne_streamKey a a').symm]
    exact h.stream a' ha'

/-- The texts that some pairs write are those of the fields. -/
theorem writeFields (get : HashField → Option Text) (pairs : List (HashField × Text)) :
    Command.writeFields (encodeFields get) (pairs.map fun pair => (pair.1.text, pair.2)) =
      encodeFields (setFields get pairs) := by
  induction pairs generalizing get with
  | nil => rfl
  | cons pair pairs ih =>
    rw [List.map_cons, Command.writeFields, List.foldl_cons, encodeFields_update]
    exact ih _

/-- **`HSET`** writes a hash whose fields have those texts. -/
theorem hset (h : Encodes ks r) {a : Uuid} (ha : IsUuid a) {pairs : List (HashField × Text)}
    {write : AuctionHash → AuctionHash}
    (hwrite : (write ((r.hash a).getD {})).get = setFields ((r.hash a).getD {}).get pairs) :
    ∃ ks', Command.hset (auctionKey a) (pairs.map fun pair => (pair.1.text, pair.2)) ks =
      .ok (ks', ()) ∧ Encodes ks' (r.hset a write) := by
  refine ⟨_, ?_, h.setHash ha (some (write ((r.hash a).getD {})))⟩
  have hfields : ((r.hash a).map fun h => encodeFields h.get).getD (fun _ => none) =
      encodeFields ((r.hash a).getD {}).get := by
    cases r.hash a with
    | none =>
      funext name
      have hempty : AuctionHash.get {} = fun _ => none := by
        funext field
        cases field <;> rfl
      simp [encodeFields, hempty]
    | some h₀ => rfl
  rw [Command.hset, h.hgetall ha, Option.map_some, hwrite, ← writeFields, ← hfields]
  rfl

/-- **`HINCRBY`** counts a sequence number up. -/
theorem hincr (h : Encodes ks r) {a : Uuid} (ha : IsUuid a) {data : AuctionHash}
    (hdata : r.hash a = some data) (hsmall : data.sequenceNum.getD 0 < 2 ^ 52) :
    ∃ ks', Command.hincr (auctionKey a) HashField.sequenceNum.text ks =
        .ok (ks', data.sequenceNum.getD 0 + 1) ∧
      Encodes ks' (r.hset a AuctionHash.countUp) := by
  have hread : (data.get .sequenceNum).elim (.ok 0) readInt64 = .ok (data.sequenceNum.getD 0 : ℤ) := by
    cases hn : data.sequenceNum with
    | none => simp [AuctionHash.get, hn]
    | some n =>
      rw [hn, Option.getD_some] at hsmall
      have hsmall' : IsSmall n := by
        rw [IsSmall, abs_of_nonneg (Int.natCast_nonneg n)]
        exact_mod_cast hsmall.le
      simpa [AuctionHash.get, hn] using readInt64_intText hsmall'
  have hwrite : (AuctionHash.countUp ((r.hash a).getD {})).get = setFields ((r.hash a).getD {}).get
      [(.sequenceNum, intText (data.sequenceNum.getD 0 + 1 : ℤ))] := by
    funext field
    rw [hdata]
    cases field <;> simp [setFields, AuctionHash.get, AuctionHash.countUp, Function.update]
  obtain ⟨ks', hset, hencodes⟩ := h.hset ha hwrite
  refine ⟨ks', ?_, hencodes⟩
  have hroom : ¬ int64Max < (data.sequenceNum.getD 0 : ℤ) + 1 := by
    unfold int64Max
    omega
  simp only [Command.hincr, h.hget ha, hdata, Option.bind_some, hread]
  rw [if_neg hroom]
  simp only [List.map_cons, List.map_nil] at hset
  rw [hset]
  rfl

/-- `XADD` appends the texts of an entry. -/
theorem xadd (h : Encodes ks r) {a : Uuid} (ha : IsUuid a) (entry : StreamEntry) :
    ∃ ks', Command.xadd (streamKey a) entry.pairs ks = .ok (ks', ()) ∧
      Encodes ks' (r.xadd a entry) := by
  have hencodes : Encodes (Function.update ks (streamKey a) (encodeStream (r.stream a ++ [entry])))
      (r.xadd a entry) := by
    refine ⟨fun a' ha' => ?_, fun b hb => ?_, fun a' ha' => ?_⟩
    · rw [Function.update_of_ne (auctionKey_ne_streamKey a' a)]
      exact h.hash a' ha'
    · rw [Function.update_of_ne (streamKey_ne_resultKey a b).symm]
      exact h.result b hb
    · by_cases heq : a' = a
      · subst heq
        simp [Redis.xadd]
      · rw [Function.update_of_ne fun hkey => heq (streamKey_inj ha' ha hkey)]
        simpa [Redis.xadd, heq] using h.stream a' ha'
  refine ⟨_, ?_, hencodes⟩
  rw [Command.xadd, h.stream a ha]
  cases hstream : r.stream a with
  | nil => rfl
  | cons e es => simp [encodeStream]

end Encodes

end OnlineAuction.Store
