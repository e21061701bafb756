import OnlineAuction.Store.Records

/-!
# Creating, closing and reading an auction

The functions of `auction_service.py`, cut at their awaited commands. `createAuction` is
what `create_auction` does up to its Redis write, `initRedisHash` is that write. A close
works on an `AuctionObj`, the object the session holds: `assignWinner` is what
`close_auction` assigns from the hash it read, `flushAuction` writes the object to
PostgreSQL, and `resolveSettlementInner` settles it. `getAuctionDetail` is what a reader
sees.

## What is proved

* `createAuction_row` — a created auction is `UPCOMING` or `ACTIVE`, has no bid and no
  winner, and neither its increment nor its starting price is negative.
* `settle_cases` — settling makes an object `SOLD` with its winner or `UNSOLD` without one.
* `readSeconds_unixSeconds` — the end time written to the hash is read back unchanged.

## Honest scope

A row is refused for the width of a text, a surrogate or a character zero in a text, a time beyond
the years of Python's `datetime`, the range of `Numeric(12, 2)` or a foreign key, and for nothing
else: the size of a field, which PostgreSQL limits to a gigabyte, has no limit here.
-/

namespace OnlineAuction.Lifecycle

open OnlineAuction.Foundation OnlineAuction.Store

/-! ### Creation -/

/-- Why `create_auction` raises. -/
inductive CreateError where
  /-- `ValueError("seller not found")`. -/
  | sellerNotFound
  /-- `ValueError("start_ts too far in the past")`. -/
  | startTooFarInThePast
  /-- `ValueError("end_ts must be after start_ts")`. -/
  | endNotAfterStart
  /-- `TypeError`: a time without a time zone is compared with one that has it. -/
  | naiveComparison
  /-- The driver or PostgreSQL refuses the row. -/
  | refused
  deriving DecidableEq

/-- Five minutes, in microseconds. -/
def pastTolerance : ℤ := 5 * 60 * 1000000

/-- A text fits a column: only spaces are beyond the width, if it has one, and there is no
character zero. -/
def textFits (width : Option ℕ) (text : String) : Bool :=
  (width.all fun w => (text.toList.drop w).all (· = ' ')) &&
    text.toList.all (· ≠ Char.ofNat 0)

/-- A string fits a column: it has an encoding, and its text fits. -/
def strFits (width : Option ℕ) (s : PyStr) : Bool := s.isText && textFits width s.text

/-- What a column keeps of a string that fits it: the spaces beyond the width are cut off. -/
def cutText (width : ℕ) (s : PyStr) : String :=
  if s.text.length ≤ width then s.text else String.ofList (s.text.toList.take width)

/-- A time is in the years 1 to 9999 of UTC, to which the driver brings it. -/
def timeFits (t : Datetime) : Bool :=
  -62135596800 * 1000000 ≤ t.micros && t.micros < 253402300800 * 1000000

/-- The texts and times of a new row fit their columns. -/
def columnsFit (data : AuctionCreate) : Bool :=
  strFits (some 255) data.title && data.description.all (strFits none) &&
    strFits (some 100) data.category && timeFits data.startTs && timeFits data.endTs

/-- Flush the new row: `none` when it is refused. -/
def insertAuction (sellerId : Uuid) (data : AuctionCreate) (state : AuctionState) (nowUtc : ℤ) :
    Option Auction :=
  if columnsFit data then
    match Numeric.ofNumber data.startingPrice.val, Numeric.ofNumber data.minIncrement.val,
        data.reservePrice.map fun r => Numeric.ofNumber r.val with
    | some startingPrice, some minIncrement, none =>
      some ⟨sellerId, cutText 255 data.title, data.description.map PyStr.text,
        cutText 100 data.category, startingPrice, none, minIncrement, data.startTs.micros,
        data.endTs.micros, state, none, none, nowUtc⟩
    | some startingPrice, some minIncrement, some (some reservePrice) =>
      some ⟨sellerId, cutText 255 data.title, data.description.map PyStr.text,
        cutText 100 data.category, startingPrice, some reservePrice, minIncrement,
        data.startTs.micros, data.endTs.micros, state, none, none, nowUtc⟩
    | _, _, _ => none
  else none

/-- `create_auction`, up to the flush and refresh of the new row. -/
def createAuction (users : List Uuid) (sellerId : Uuid) (data : AuctionCreate) (nowUtc : ℤ) :
    Except CreateError Auction :=
  if sellerId ∉ users then .error .sellerNotFound
  else if !data.startTs.aware then .error .naiveComparison
  else if data.startTs.micros < nowUtc - pastTolerance then .error .startTooFarInThePast
  else if !data.endTs.aware then .error .naiveComparison
  else if data.endTs.micros ≤ data.startTs.micros then .error .endNotAfterStart
  else
    match insertAuction sellerId data
        (if data.startTs.micros ≤ nowUtc then .active else .upcoming) nowUtc with
    | some row => .ok row
    | none => .error .refused

/-- `_init_redis_hash`: the `HSET` that opens an auction. -/
def initRedisHash (auction : Auction) (h : AuctionHash) : AuctionHash :=
  { h with
    state := some .active
    highestBid := some (.dec 0)
    highestBidder := some none
    endTs := some (unixSeconds auction.endTs)
    startTs := some (unixSeconds auction.startTs)
    sequenceNum := some 0
    extensionsUsed := some 0
    minIncrement := some (toDecimalStr (some (.decimal auction.minIncrement))) }

/-- What a hash holds of the row of its auction. -/
structure OfRow (auction : Auction) (h : AuctionHash) : Prop where
  /-- The end. -/
  endTs : ∀ endTs, h.endTs = some endTs → endTs = unixSeconds auction.endTs
  /-- The increment. -/
  minIncrement : ∀ inc, h.minIncrement = some inc →
    inc = toDecimalStr (some (.decimal auction.minIncrement))

theorem ofRow_init (auction : Auction) (h : AuctionHash) : OfRow auction (initRedisHash auction h) :=
  ⟨fun _ he => (Option.some.inj he).symm, fun _ hinc => (Option.some.inj hinc).symm⟩

/-- A hash that only its state was written to. -/
theorem OfRow.setState {auction : Auction} {data : Option AuctionHash}
    (h : ∀ h, data = some h → OfRow auction h) (state : AuctionState) :
    OfRow auction ((data.getD {}).setState state) := by
  cases data with
  | none => exact ⟨by simp [AuctionHash.setState], by simp [AuctionHash.setState]⟩
  | some h₀ => exact ⟨(h h₀ rfl).endTs, (h h₀ rfl).minIncrement⟩

theorem OfRow.of_same {auction auction' : Auction} {h : AuctionHash} (hrow : OfRow auction h)
    (hend : auction'.endTs = auction.endTs) (hinc : auction'.minIncrement = auction.minIncrement) :
    OfRow auction' h := ⟨hend ▸ hrow.endTs, hinc ▸ hrow.minIncrement⟩

/-- A price is a NaN or not negative. -/
def Numeric.NonNeg (d : Numeric) : Prop := ∀ c h, d = .dec c h → 0 ≤ c

/-- Such a price goes to Redis as `nan` or with its cents. -/
theorem Numeric.NonNeg.printed {d : Numeric} (h : Numeric.NonNeg d) :
    toDecimalStr (some (.decimal d)) = .nan ∨
      ∃ m, 0 ≤ m ∧ m < 10 ^ 12 ∧ toDecimalStr (some (.decimal d)) = .dec m := by
  cases d with
  | nan => exact Or.inl rfl
  | dec m hfits =>
    have hm := h m hfits rfl
    exact Or.inr ⟨m, hm, (abs_lt.mp hfits).2, toDecimalStr_cents hfits⟩

/-- A float that a validator `v <= 0` lets through is stored as a NaN or a price that is
not negative. -/
theorem nonNeg_of_notAtMostZero {v : PyFloat} (hv : notAtMostZero v) {d : Numeric}
    (h : Numeric.ofNumber v.val = some d) : Numeric.NonNeg d := by
  rintro c hc rfl
  unfold notAtMostZero at hv
  cases hval : v.val with
  | nan => rw [hval] at h; cases h
  | negInf => rw [hval] at h; cases h
  | posInf => rw [hval] at h; cases h
  | fin q =>
    rw [hval, Number.fin_le_fin, not_le] at hv
    rw [hval, Numeric.ofNumber] at h
    split_ifs at h with hfits
    have : roundAway (q * 100) = c := by simpa using h
    exact this ▸ roundAway_nonneg (by positivity)

/-- What a new row looks like. -/
structure NewRow (auction : Auction) : Prop where
  /-- It waits for its start, or is active. -/
  state : auction.state = .upcoming ∨ auction.state = .active
  /-- No bid. -/
  noBid : auction.highestBid = none
  /-- No winner. -/
  noWinner : auction.winnerId = none
  /-- It ends after it starts. -/
  lasts : auction.startTs < auction.endTs
  /-- The increment is not negative. -/
  increment : Numeric.NonNeg auction.minIncrement
  /-- The starting price is not negative. -/
  starting : Numeric.NonNeg auction.startingPrice

/-- What `insertAuction` takes from the request. -/
structure Inserted (data : AuctionCreate) (state : AuctionState) (auction : Auction) : Prop where
  /-- The state asked for. -/
  state : auction.state = state
  /-- No bid. -/
  noBid : auction.highestBid = none
  /-- No winner. -/
  noWinner : auction.winnerId = none
  /-- The start. -/
  startTs : auction.startTs = data.startTs.micros
  /-- The end. -/
  endTs : auction.endTs = data.endTs.micros
  /-- The starting price, rounded. -/
  starting : Numeric.ofNumber data.startingPrice.val = some auction.startingPrice
  /-- The increment, rounded. -/
  increment : Numeric.ofNumber data.minIncrement.val = some auction.minIncrement

theorem insertAuction_inserted {sellerId : Uuid} {data : AuctionCreate} {state : AuctionState}
    {nowUtc : ℤ} {auction : Auction} (h : insertAuction sellerId data state nowUtc = some auction) :
    Inserted data state auction := by
  unfold insertAuction at h
  split_ifs at h
  split at h
  · rename_i hs hm _
    cases h
    exact ⟨rfl, rfl, rfl, rfl, rfl, hs, hm⟩
  · rename_i hs hm _
    cases h
    exact ⟨rfl, rfl, rfl, rfl, rfl, hs, hm⟩
  · cases h

/-- The reserve price of a new row is the one of the request, rounded. -/
theorem insertAuction_reserve {sellerId : Uuid} {data : AuctionCreate} {state : AuctionState}
    {nowUtc : ℤ} {auction : Auction} (h : insertAuction sellerId data state nowUtc = some auction) :
    auction.reservePrice = data.reservePrice.bind fun r => Numeric.ofNumber r.val := by
  unfold insertAuction at h
  split_ifs at h
  split at h
  · rename_i hr
    cases h
    rw [Option.map_eq_none_iff.mp hr]
    rfl
  · rename_i hr
    cases h
    obtain ⟨r, hr, hd⟩ := Option.map_eq_some_iff.mp hr
    rw [hr]
    exact hd.symm
  · cases h

/-- What `create_auction` checked before it inserted the row. -/
structure Created (users : List Uuid) (sellerId : Uuid) (data : AuctionCreate) (nowUtc : ℤ)
    (auction : Auction) : Prop where
  /-- The seller exists. -/
  seller : sellerId ∈ users
  /-- The start is not too far in the past. -/
  recent : nowUtc - pastTolerance ≤ data.startTs.micros
  /-- The end comes after the start. -/
  ends : data.startTs.micros < data.endTs.micros
  /-- The row has the data of the request, and is active if its start has passed. -/
  inserted : Inserted data (if data.startTs.micros ≤ nowUtc then .active else .upcoming) auction

theorem createAuction_created {users : List Uuid} {sellerId : Uuid} {data : AuctionCreate}
    {nowUtc : ℤ} {auction : Auction} (h : createAuction users sellerId data nowUtc = .ok auction) :
    Created users sellerId data nowUtc auction := by
  unfold createAuction at h
  by_cases hseller : sellerId ∈ users
  · rw [if_neg (not_not.mpr hseller)] at h
    split at h
    · cases h
    · split at h
      · cases h
      · rename_i hpast
        split at h
        · cases h
        · split at h
          · cases h
          · rename_i hend
            split at h
            · rename_i row hrow
              cases h
              exact ⟨hseller, not_lt.mp hpast, not_le.mp hend, insertAuction_inserted hrow⟩
            · cases h
  · rw [if_pos hseller] at h
    cases h

theorem createAuction_reserve {users : List Uuid} {sellerId : Uuid} {data : AuctionCreate}
    {nowUtc : ℤ} {auction : Auction} (h : createAuction users sellerId data nowUtc = .ok auction) :
    auction.reservePrice = data.reservePrice.bind fun r => Numeric.ofNumber r.val := by
  unfold createAuction at h
  split_ifs at h
  all_goals
    split at h
    · rename_i hrow
      cases h
      exact insertAuction_reserve hrow
    · cases h

/-- **A new row.** -/
theorem createAuction_row {users : List Uuid} {sellerId : Uuid} {data : AuctionCreate} {nowUtc : ℤ}
    {auction : Auction} (h : createAuction users sellerId data nowUtc = .ok auction)
    (hstart : data.startingPricePositive) (hinc : data.minIncrementPositive) : NewRow auction := by
  obtain ⟨-, -, hends, hins⟩ := createAuction_created h
  refine ⟨?_, hins.noBid, hins.noWinner, ?_, ?_, ?_⟩
  · rw [hins.state]
    split_ifs
    · exact Or.inr rfl
    · exact Or.inl rfl
  · rw [hins.startTs, hins.endTs]
    exact hends
  · exact nonNeg_of_notAtMostZero hinc hins.increment
  · exact nonNeg_of_notAtMostZero hstart hins.starting

/-- A request: one minute for a camera, from `10.00` on, in steps of `1.00`. -/
def camera : AuctionCreate :=
  { title := .ofText "Camera".toList
    category := .ofText "Photography".toList
    startingPrice := .ofNumber (.fin 10)
    startTs := ⟨1000000000, true⟩
    endTs := ⟨1060000000, true⟩ }

/-- The row it makes for the seller `1` when it arrives at its start. -/
def cameraRow : Auction :=
  ⟨1, "Camera", none, "Photography", .dec 1000 (by decide), none, .dec 100 (by decide),
    1000000000, 1060000000, .active, none, none, 1000000000⟩

example : createAuction [1] 1 camera 1000000000 = .ok cameraRow := by decide +kernel

/-! ### Closing -/

/-- An auction object of a session: the row with the values its attributes have, and the
attribute `highest_bid`, which the program assigns a float. -/
structure AuctionObj where
  /-- The row; its `highestBid` is what the table holds. -/
  row : Auction
  /-- The attribute `highest_bid`. -/
  highestBid : Option PyValue
  deriving DecidableEq

/-- The object the session makes of a loaded row. -/
def AuctionObj.load (auction : Auction) : AuctionObj :=
  ⟨auction, auction.highestBid.map .decimal⟩

/-- `close_auction` up to its flush: `CLOSED`, and the leader of the hash, if there is one,
with the amount as a float. -/
def assignWinner (data : Option AuctionHash) (auction : Auction) : AuctionObj :=
  match data with
  | none => .load { auction with state := .closed }
  | some h =>
    match h.highestBidder with
    | some (some bidder) =>
      ⟨{ auction with state := .closed, winnerId := some bidder },
        some (.float (h.highestBid.getD (.dec 0)).toFloat)⟩
    | _ => .load { auction with state := .closed }

theorem assignWinner_leader {h : AuctionHash} {bidder : Uuid}
    (hb : h.highestBidder = some (some bidder)) (auction : Auction) :
    assignWinner (some h) auction = ⟨{ auction with state := .closed, winnerId := some bidder },
      some (.float (h.highestBid.getD (.dec 0)).toFloat)⟩ := by
  simp only [assignWinner, hb]

theorem assignWinner_nobody {data : Option AuctionHash}
    (h : ∀ h b, data = some h → h.highestBidder ≠ some (some b)) (auction : Auction) :
    assignWinner data auction = .load { auction with state := .closed } := by
  unfold assignWinner
  split
  · rfl
  · rename_i h₀
    split
    · rename_i b hb
      exact absurd hb (h h₀ b rfl)
    · rfl

/-- Only the leader of the hash matters, not its state. -/
theorem assignWinner_setState (data : Option AuctionHash) (state : AuctionState)
    (auction : Auction) :
    assignWinner (some ((data.getD {}).setState state)) auction = assignWinner data auction := by
  cases data <;> rfl

/-- Flush an object: `none` when PostgreSQL refuses it, for a winner who is no user or a
bid that does not fit its column. -/
def flushAuction (users : List Uuid) (obj : AuctionObj) : Option AuctionObj :=
  if obj.row.winnerId.all (· ∈ users) then
    match obj.highestBid with
    | none => some { obj with row := { obj.row with highestBid := none } }
    | some v => (Numeric.ofNumber v.value).map fun d =>
      { obj with row := { obj.row with highestBid := some d } }
  else none

/-- `_resolve_settlement_inner`. Python compares a float with a `Decimal` by their exact
values and raises when one of them is a NaN, which is `none` here. -/
def resolveSettlementInner (obj : AuctionObj) : Option AuctionObj :=
  if obj.row.state ≠ .closed then some obj
  else
    match obj.row.winnerId, obj.row.reservePrice, obj.highestBid with
    | none, _, _ => some { obj with row := { obj.row with state := .unsold } }
    | some _, some reserve, some bid =>
      if bid.value = .nan ∨ reserve.value = .nan then none
      else if reserve.value ≤ bid.value then
        some { obj with row := { obj.row with state := .sold } }
      else some { obj with row := { obj.row with state := .unsold, winnerId := none } }
    | some _, _, _ => some { obj with row := { obj.row with state := .sold } }

/-- **Settlement decides**: `SOLD` with the winner, or `UNSOLD` without one; nothing else
of the row changes. -/
theorem settle_cases {obj obj' : AuctionObj} (hobj : obj.row.state = .closed)
    (h : resolveSettlementInner obj = some obj') :
    (obj.row.winnerId ≠ none ∧ obj'.row = { obj.row with state := .sold }) ∨
      obj'.row = { obj.row with state := .unsold, winnerId := none } := by
  obtain ⟨row, bid⟩ := obj
  rw [resolveSettlementInner, if_neg (not_not.mpr hobj)] at h
  cases hw : row.winnerId with
  | none =>
    simp only [hw, Option.some.injEq] at h
    subst h
    right
    simp only [← hw]
  | some w =>
    simp only [hw] at h
    split at h
    · cases ‹some w = none›
    · split_ifs at h
      · cases h
        exact Or.inl ⟨by simp, by simp only [← hw]⟩
      · cases h
        exact Or.inr rfl
    · cases h
      exact Or.inl ⟨by simp, by simp only [← hw]⟩

/-! ### Reading -/

/-- `int(float(s))` of the seconds read from the hash. -/
def readSeconds (seconds : ℤ) : ℤ := truncate (double seconds)

/-- **The end time survives Redis.** -/
theorem readSeconds_unixSeconds (t : ℤ) : readSeconds (unixSeconds t) = unixSeconds t := by
  have hnext : unixSeconds t = ⌊double (t / 1000000)⌋ ∨ unixSeconds t = ⌈double (t / 1000000)⌉ := by
    unfold unixSeconds truncate
    split_ifs
    · exact Or.inl rfl
    · exact Or.inr rfl
  have hkept : double (unixSeconds t) = unixSeconds t :=
    binary64.round_next_int (double.idem _) hnext
  unfold readSeconds
  rw [hkept, truncate]
  split_ifs
  · exact Int.floor_intCast _
  · exact Int.ceil_intCast _

/-- The body of `GET /auctions/{id}`. -/
structure AuctionDetail where
  /-- The key. -/
  auctionId : Uuid
  /-- The title. -/
  title : String
  /-- The category. -/
  category : String
  /-- The starting price. -/
  startingPrice : DecStr
  /-- The current price; `none` is the text `0` of a hash without one. -/
  currentPrice : Option DecStr
  /-- The minimal increment. -/
  minIncrement : DecStr
  /-- How many bids were accepted. -/
  bidCount : ℕ
  /-- The state. -/
  state : AuctionState
  /-- When bidding starts. -/
  startTs : ℤ
  /-- When bidding ends. -/
  endTs : ℤ
  /-- The time left, in seconds. -/
  timeRemainingSeconds : ℤ
  /-- The winner. -/
  winnerId : Option Uuid
  /-- The reserve price. -/
  reservePrice : Option PyFloat
  deriving DecidableEq

/-- `select(Bid)` of the accepted bids of an auction. -/
def acceptedBids (pg : Pg) (auctionId : Uuid) : List Bid :=
  pg.bid.filter fun b => b.auctionId = auctionId ∧ b.status = .accepted

/-- Python's `auction.highest_bid or auction.starting_price`: a zero is false. -/
def highestBidOrStartingPrice (auction : Auction) : Numeric :=
  match auction.highestBid with
  | some d => if d.value = .fin 0 then auction.startingPrice else d
  | none => auction.startingPrice

/-- `get_auction_detail`. -/
def getAuctionDetail (pg : Pg) (redis : Redis) (auctionId : Uuid) (now : ℤ) :
    Option AuctionDetail :=
  (pg.auction auctionId).map fun auction =>
    let data := redis.hash auctionId
    let currentPrice := match data with
      | some h => h.highestBid
      | none => some (toDecimalStr (some (.decimal (highestBidOrStartingPrice auction))))
    let state := match data with
      | some h => h.state.getD auction.state
      | none => auction.state
    let endTsUnix := match data with
      | some h => readSeconds (h.endTs.getD 0)
      | none => unixSeconds auction.endTs
    { auctionId := auctionId
      title := auction.title
      category := auction.category
      startingPrice := toDecimalStr (some (.decimal auction.startingPrice))
      currentPrice := currentPrice
      minIncrement := toDecimalStr (some (.decimal auction.minIncrement))
      bidCount := (acceptedBids pg auctionId).length
      state := state
      startTs := auction.startTs
      endTs := auction.endTs
      timeRemainingSeconds := max 0 (endTsUnix - unixSeconds now)
      winnerId := auction.winnerId
      reservePrice := auction.reservePrice.map fun d => PyFloat.ofNumber d.value }

end OnlineAuction.Lifecycle
