import OnlineAuction.Foundation.CodePoints
import OnlineAuction.Store.Money
import Mathlib.Logic.Function.Basic

/-!
# The two stores

The rows of PostgreSQL (`alembic/versions/001_initial.py`, `models/`), the structures of
Redis (`redis_client.py`) and the requests that fill them (`schemas/`).

* Identifiers are UUIDs, written as natural numbers; the text of a UUID is not modelled.
* Times are whole microseconds since the epoch. `unixSeconds t` is the program's
  `int(t.timestamp())`, where `timestamp` divides in binary64.
* A field of the auction hash that was never written is `none`: a close on a missing
  hash creates one that has only a `state`.

## Honest scope

Of the tables, the columns no modelled function reads are left out (`display_name`,
`email`, `proxy_id`, `entered_ts`). The stream is not trimmed. The mask of a bidder in
a fan-out payload is a function of the bidder alone, so the payload keeps the bidder.
-/

namespace OnlineAuction.Store

open OnlineAuction.Foundation

/-- A UUID. -/
abbrev Uuid := ℕ

/-! ### Time -/

/-- Python's `int(x)`: the fraction is dropped. -/
def truncate (q : ℚ) : ℤ := if 0 ≤ q then ⌊q⌋ else ⌈q⌉

/-- `int(t.timestamp())` of a time in microseconds. -/
def unixSeconds (t : ℤ) : ℤ := truncate (double (t / 1000000))

theorem truncate_mono {q r : ℚ} (h : q ≤ r) : truncate q ≤ truncate r := by
  unfold truncate
  split_ifs with hq hr hr
  · exact Int.floor_le_floor h
  · exact absurd (hq.trans h) hr
  · exact (Int.ceil_le.mpr (by push_cast; exact (not_le.mp hq).le)).trans (Int.floor_nonneg.mpr hr)
  · exact Int.ceil_le_ceil h

theorem unixSeconds_mono {t u : ℤ} (h : t ≤ u) : unixSeconds t ≤ unixSeconds u := by
  refine truncate_mono (double.mono ?_)
  have : (t : ℚ) ≤ u := by exact_mod_cast h
  linarith

/-- The binary64 seconds of a time from 1970 on and before `2 ^ 34` seconds after it are less than a
microsecond off. -/
theorem abs_double_seconds_lt {t : ℤ} (h₀ : 0 ≤ t) (h : t < 2 ^ 34 * 1000000) :
    |double (t / 1000000) - t / 1000000| < 1 / 1000000 := by
  have hx₀ : (0 : ℚ) ≤ t / 1000000 := by positivity
  have hx : |(t / 1000000 : ℚ)| < 2 ^ (34 : ℤ) := by
    rw [abs_of_nonneg hx₀, div_lt_iff₀ (by norm_num)]
    exact_mod_cast h
  calc |double (t / 1000000) - t / 1000000| ≤ 2 ^ (34 - 53 : ℤ) / 2 :=
        binary64.abs_round_sub_le_of_lt (by decide) hx
    _ < 1 / 1000000 := by norm_num

/-- **Whole seconds**: of such a time `int(t.timestamp())` is the floor. -/
theorem unixSeconds_eq_floor {t : ℤ} (h₀ : 0 ≤ t) (h : t < 2 ^ 34 * 1000000) :
    unixSeconds t = ⌊(t / 1000000 : ℚ)⌋ := by
  have hx₀ : (0 : ℚ) ≤ t / 1000000 := by positivity
  have hfloor : ⌊(t / 1000000 : ℚ)⌋ = t / 1000000 := by
    have := Rat.floor_intCast_div_natCast t 1000000
    exact_mod_cast this
  rw [unixSeconds, truncate, if_pos (double.nonneg hx₀)]
  rw [Int.floor_eq_iff]
  have hnear := abs_lt.mp (abs_double_seconds_lt h₀ h)
  have hn₀ : 0 ≤ ⌊(t / 1000000 : ℚ)⌋ := Int.floor_nonneg.mpr hx₀
  constructor
  · -- the floor is an integer of few bits, so rounding keeps it
    have hkept : double (⌊(t / 1000000 : ℚ)⌋ : ℚ) = ⌊(t / 1000000 : ℚ)⌋ := by
      refine binary64.round_intCast (by decide) ?_
      rw [abs_of_nonneg hn₀, hfloor]
      show _ ≤ (2 : ℤ) ^ 52
      omega
    rw [← hkept]
    exact double.mono (Int.floor_le _)
  · -- the next integer is at least a microsecond away
    have hlt : (t : ℚ) / 1000000 ≤ ⌊(t / 1000000 : ℚ)⌋ + 1 - 1 / 1000000 := by
      rw [hfloor, div_le_iff₀ (by norm_num)]
      have : t ≤ (t / 1000000 + 1) * 1000000 - 1 := by omega
      have : (t : ℚ) ≤ ((t / 1000000 : ℤ) + 1) * 1000000 - 1 := by exact_mod_cast this
      linarith
    linarith [hnear.2]

/-- A Python `datetime`: its microseconds, and whether it carries a time zone. -/
structure Datetime where
  /-- Microseconds since the epoch. -/
  micros : ℤ
  /-- It carries a time zone. -/
  aware : Bool
  deriving DecidableEq

/-! ### PostgreSQL -/

/-- The states of an auction. -/
inductive AuctionState where
  /-- `UPCOMING`. -/
  | upcoming
  /-- `ACTIVE`. -/
  | active
  /-- `CLOSED`. -/
  | closed
  /-- `SOLD`. -/
  | sold
  /-- `UNSOLD`. -/
  | unsold
  deriving DecidableEq

/-- A row of the table `auction`, its key aside. -/
structure Auction where
  /-- The seller, a foreign key. -/
  sellerId : Uuid
  /-- The title. -/
  title : String
  /-- The description. -/
  description : Option String
  /-- The category. -/
  category : String
  /-- The starting price. -/
  startingPrice : Numeric
  /-- The reserve price, if there is one. -/
  reservePrice : Option Numeric
  /-- The minimal increment. -/
  minIncrement : Numeric
  /-- When bidding starts. -/
  startTs : ℤ
  /-- When bidding ends. -/
  endTs : ℤ
  /-- The state. -/
  state : AuctionState
  /-- The highest bid, written at the close. -/
  highestBid : Option Numeric
  /-- The winner, a foreign key, written at the close. -/
  winnerId : Option Uuid
  /-- When the row was made. -/
  createdAt : ℤ
  deriving DecidableEq

/-- Why the script rejects a bid. -/
inductive Reason where
  /-- `AUCTION_NOT_ACTIVE`. -/
  | auctionNotActive
  /-- `AUCTION_ENDED`. -/
  | auctionEnded
  /-- `SELF_OUTBID`. -/
  | selfOutbid
  /-- `BID_TOO_LOW`. -/
  | bidTooLow
  deriving DecidableEq

/-- The status of a bid, with the reason of a rejection. -/
inductive BidStatus where
  /-- `ACCEPTED`. -/
  | accepted
  /-- `REJECTED`, for a reason. -/
  | rejected (reason : Reason)
  deriving DecidableEq

/-- A row of the table `bid`. -/
structure Bid where
  /-- The key. -/
  bidId : Uuid
  /-- The auction, a foreign key. -/
  auctionId : Uuid
  /-- The bidder, a foreign key. -/
  bidderId : Uuid
  /-- The amount. -/
  amount : Numeric
  /-- Whether the bid is a proxy bid. -/
  isProxy : Bool
  /-- The sequence number. -/
  sequenceNum : ℕ
  /-- The status, and the reason of a rejection. -/
  status : BidStatus
  /-- When the row was made. -/
  createdTs : ℤ
  deriving DecidableEq

/-- A row of the table `proxy_bid`. -/
structure ProxyBid where
  /-- The auction, a foreign key. -/
  auctionId : Uuid
  /-- The bidder, a foreign key. -/
  bidderId : Uuid
  /-- The maximum the bidder would pay. -/
  maxBid : Numeric
  /-- Whether it is active. -/
  active : Bool
  deriving DecidableEq

/-- The tables: the committed rows, and the rows written by transactions of bids that
are still open. -/
structure Pg where
  /-- The users. -/
  users : List Uuid
  /-- The auctions, by key. -/
  auction : Uuid → Option Auction
  /-- The bids, in the order of their commits. -/
  bid : List Bid
  /-- The proxy bids. -/
  proxyBid : List ProxyBid
  /-- The bids of open transactions. -/
  bidOpen : List Bid := []
  /-- The proxy bids of open transactions, each with the bid it came with. -/
  proxyOpen : List (Uuid × ProxyBid) := []

/-- The largest value of an `Integer` column. -/
def integerMax : ℕ := 2147483647

/-- `uq_bid_dedup`: two bids with the same auction, bidder, amount and time. -/
def Bid.SameKey (b b' : Bid) : Prop :=
  b.auctionId = b'.auctionId ∧ b.bidderId = b'.bidderId ∧ b.amount = b'.amount ∧
    b.createdTs = b'.createdTs

instance (b b' : Bid) : Decidable (b.SameKey b') := inferInstanceAs (Decidable (_ ∧ _))

/-- `uq_proxy_bid_auction_bidder`: two proxy bids of one bidder on one auction. -/
def ProxyBid.SameKey (p p' : ProxyBid) : Prop :=
  p.auctionId = p'.auctionId ∧ p.bidderId = p'.bidderId

instance (p p' : ProxyBid) : Decidable (p.SameKey p') := inferInstanceAs (Decidable (_ ∧ _))

namespace Pg

/-- A table with some rows written, in order. -/
def setRows (rows : List (Uuid × Auction)) (table : Uuid → Option Auction) : Uuid → Option Auction :=
  match rows with
  | [] => table
  | (a, row) :: rows => setRows rows (Function.update table a (some row))

/-- Write rows of the table `auction`. -/
def writeAuctions (pg : Pg) (rows : List (Uuid × Auction)) : Pg :=
  { pg with auction := setRows rows pg.auction }

/-- Insert or update a proxy bid. -/
def upsertProxy (proxies : List ProxyBid) (p : ProxyBid) : List ProxyBid :=
  if proxies.any (·.SameKey p) then proxies.map fun p' => if p'.SameKey p then p else p'
  else proxies ++ [p]

/-- The transaction of a bid ends without a commit. -/
def rollbackBid (pg : Pg) (bidId : Uuid) : Pg :=
  { pg with bidOpen := pg.bidOpen.filter (·.bidId ≠ bidId)
            proxyOpen := pg.proxyOpen.filter (·.1 ≠ bidId) }

/-- The transaction of a bid commits. -/
def commitBid (pg : Pg) (bidId : Uuid) : Pg :=
  { pg.rollbackBid bidId with
    bid := pg.bid ++ pg.bidOpen.filter (·.bidId = bidId)
    proxyBid := ((pg.proxyOpen.filter (·.1 = bidId)).map Prod.snd).foldl upsertProxy pg.proxyBid }

/-- Every transaction of a bid ends without a commit. -/
def rollbackAll (pg : Pg) : Pg := { pg with bidOpen := [], proxyOpen := [] }

theorem setRows_of_not_mem {rows : List (Uuid × Auction)} {a : Uuid}
    (h : a ∉ rows.map Prod.fst) (table : Uuid → Option Auction) :
    setRows rows table a = table a := by
  induction rows generalizing table with
  | nil => rfl
  | cons b rows ih =>
    rw [List.map_cons, List.mem_cons, not_or] at h
    rw [setRows, ih h.2, Function.update_of_ne h.1]

theorem setRows_of_mem {rows : List (Uuid × Auction)} (hnodup : (rows.map Prod.fst).Nodup)
    {a : Uuid} {row : Auction} (h : (a, row) ∈ rows) (table : Uuid → Option Auction) :
    setRows rows table a = some row := by
  induction rows generalizing table with
  | nil => cases h
  | cons b rows ih =>
    rw [List.map_cons, List.nodup_cons] at hnodup
    rcases List.mem_cons.mp h with rfl | h
    · rw [setRows, setRows_of_not_mem hnodup.1, Function.update_self]
    · exact ih hnodup.2 h _

end Pg

/-! ### Redis -/

/-- The hash `auction:{id}`. -/
structure AuctionHash where
  /-- The state. -/
  state : Option AuctionState := none
  /-- The highest bid. -/
  highestBid : Option DecStr := none
  /-- The highest bidder; `some none` is the empty string. -/
  highestBidder : Option (Option Uuid) := none
  /-- When bidding ends, in seconds. -/
  endTs : Option ℤ := none
  /-- When bidding starts, in seconds. -/
  startTs : Option ℤ := none
  /-- The sequence number of the last accepted bid. -/
  sequenceNum : Option ℕ := none
  /-- How often the end was moved. -/
  extensionsUsed : Option ℕ := none
  /-- The minimal increment. -/
  minIncrement : Option DecStr := none
  /-- When the last bid was accepted. -/
  lastBidTs : Option ℤ := none
  deriving DecidableEq

/-- The field `state` is written. -/
def AuctionHash.setState (state : AuctionState) (h : AuctionHash) : AuctionHash :=
  { h with state := some state }

/-- An entry of the stream `auction:{id}:bids`. -/
structure StreamEntry where
  /-- The bid. -/
  bidId : Uuid
  /-- The bidder. -/
  bidderId : Uuid
  /-- The amount. -/
  amount : DecStr
  /-- Whether the bid is a proxy bid. -/
  isProxy : Bool
  /-- The caller's clock, in seconds. -/
  clientTs : ℤ
  deriving DecidableEq

/-- A message on the channel `fanout:auction:{id}`. -/
structure Payload where
  /-- The sequence number of the bid. -/
  sequenceNum : ℕ
  /-- The new price. -/
  currentPrice : Option DecStr
  /-- The bidder, sent masked. -/
  highBidder : Uuid
  /-- When bidding ends, in seconds. -/
  endTs : ℤ
  deriving DecidableEq

/-- The contents of Redis. -/
structure Redis where
  /-- `auction:{id}`. -/
  hash : Uuid → Option AuctionHash
  /-- `bid_result:{bid_id}`. -/
  bidResult : Uuid → Option BidStatus
  /-- `auction:{id}:bids`. -/
  stream : Uuid → List StreamEntry
  /-- What was published on `fanout:auction:{id}`, in order. -/
  fanout : Uuid → List Payload

namespace Redis

/-- No keys at all. -/
def empty : Redis := ⟨fun _ => none, fun _ => none, fun _ => [], fun _ => []⟩

/-- `HGET`. -/
def hget {α : Type} (r : Redis) (auctionId : Uuid) (field : AuctionHash → Option α) : Option α :=
  (r.hash auctionId).bind field

/-- `HSET`: some fields of the hash are written, the hash made if it is missing. -/
def hset (r : Redis) (auctionId : Uuid) (write : AuctionHash → AuctionHash) : Redis :=
  { r with hash := Function.update r.hash auctionId (some (write ((r.hash auctionId).getD {}))) }

/-- `SET` of a dedup key. -/
def setResult (r : Redis) (bidId : Uuid) (status : BidStatus) : Redis :=
  { r with bidResult := Function.update r.bidResult bidId (some status) }

/-- A hash is lost. -/
def loseHash (r : Redis) (auctionId : Uuid) : Redis :=
  { r with hash := Function.update r.hash auctionId none }

/-- A dedup key expires. -/
def expireResult (r : Redis) (bidId : Uuid) : Redis :=
  { r with bidResult := Function.update r.bidResult bidId none }

/-- `XADD`. -/
def xadd (r : Redis) (auctionId : Uuid) (entry : StreamEntry) : Redis :=
  { r with stream := Function.update r.stream auctionId (r.stream auctionId ++ [entry]) }

/-- `PUBLISH`. -/
def publish (r : Redis) (auctionId : Uuid) (payload : Payload) : Redis :=
  { r with fanout := Function.update r.fanout auctionId (r.fanout auctionId ++ [payload]) }

@[simp] theorem hset_hash_self (r : Redis) (a : Uuid) (w : AuctionHash → AuctionHash) :
    (r.hset a w).hash a = some (w ((r.hash a).getD {})) := by simp [hset]

theorem hset_hash_of_ne {r : Redis} {a b : Uuid} (h : b ≠ a) (w : AuctionHash → AuctionHash) :
    (r.hset a w).hash b = r.hash b := by simp [hset, h]

@[simp] theorem setResult_hash (r : Redis) (b : Uuid) (s : BidStatus) :
    (r.setResult b s).hash = r.hash := rfl

end Redis

/-! ### Requests -/

/-- The body of `POST /auctions`. -/
structure AuctionCreate where
  /-- The title. -/
  title : PyStr
  /-- The description. -/
  description : Option PyStr := none
  /-- The category. -/
  category : PyStr
  /-- The starting price. -/
  startingPrice : PyFloat
  /-- The reserve price. -/
  reservePrice : Option PyFloat := none
  /-- The minimal increment. -/
  minIncrement : PyFloat := .ofNumber (.fin 1)
  /-- When bidding starts. -/
  startTs : Datetime
  /-- When bidding ends. -/
  endTs : Datetime

/-- A validator that raises on `v <= 0`. -/
def notAtMostZero (v : PyFloat) : Prop := ¬ v.val ≤ .fin 0

instance (v : PyFloat) : Decidable (notAtMostZero v) := inferInstanceAs (Decidable (¬ _))

namespace AuctionCreate

/-- `starting_price_positive`. -/
def startingPricePositive (data : AuctionCreate) : Prop := notAtMostZero data.startingPrice

/-- `min_increment_positive`. -/
def minIncrementPositive (data : AuctionCreate) : Prop := notAtMostZero data.minIncrement

instance (data : AuctionCreate) : Decidable data.startingPricePositive :=
  inferInstanceAs (Decidable (notAtMostZero _))

instance (data : AuctionCreate) : Decidable data.minIncrementPositive :=
  inferInstanceAs (Decidable (notAtMostZero _))

end AuctionCreate

/-- The body of `POST /auctions/{id}/bids`. -/
structure BidRequest where
  /-- The amount. -/
  amount : PyFloat
  /-- Whether the bid is a proxy bid. -/
  isProxy : Bool := false
  /-- The maximum of a proxy bid. -/
  proxyMax : Option PyFloat := none

/-- `amount_positive`. -/
def BidRequest.amountPositive (data : BidRequest) : Prop := notAtMostZero data.amount

instance (data : BidRequest) : Decidable data.amountPositive :=
  inferInstanceAs (Decidable (notAtMostZero _))

/-- The `limit` of a page, brought into its range. -/
def pageLimit (limit : ℤ) : ℕ := (max (min limit 100) 1).toNat

theorem pageLimit_pos (limit : ℤ) : 0 < pageLimit limit := by
  unfold pageLimit
  omega

end OnlineAuction.Store
