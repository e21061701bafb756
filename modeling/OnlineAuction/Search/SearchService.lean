import OnlineAuction.Lifecycle.AuctionService

/-!
# Searching auctions

What `search_auctions` makes of a row that it has selected, and the price that its filters
`price_min` and `price_max` test. Both come from the row alone.

## What is proved

* `searchItem_currentPrice` — the price of an item is the price that the filters test.

## Honest scope

The times of an item are numbers here, and texts in the program.
-/

namespace OnlineAuction.Search

open OnlineAuction.Foundation OnlineAuction.Store OnlineAuction.Lifecycle

/-- `coalesce(highest_bid, starting_price)` in `_build_where`. -/
def filterPrice (auction : Auction) : Numeric := auction.highestBid.getD auction.startingPrice

/-- `SearchResultItem`. -/
structure SearchResultItem where
  /-- The key. -/
  auctionId : Uuid
  /-- The title. -/
  title : String
  /-- The category. -/
  category : String
  /-- The current price. -/
  currentPrice : DecStr
  /-- The state. -/
  state : AuctionState
  /-- When bidding starts. -/
  startTs : ℤ
  /-- When bidding ends. -/
  endTs : ℤ
  /-- How many bids were accepted. -/
  bidCount : ℕ
  deriving DecidableEq

/-- The item that `search_auctions` makes of a row. It counts no bids. -/
def searchItem (auctionId : Uuid) (a : Auction) : SearchResultItem where
  auctionId := auctionId
  title := a.title
  category := a.category
  currentPrice := match a.highestBid with
    | some d => fixed2 (.ofNumber d.value)
    | none => fixed2 (.ofNumber a.startingPrice.value)
  state := a.state
  startTs := a.startTs
  endTs := a.endTs
  bidCount := 0

/-- A price of the table goes through a float and two decimals unchanged. -/
theorem value_toDecimalStr (d : Numeric) :
    (toDecimalStr (some (.decimal d))).value = d.value := by
  cases d with
  | nan => rfl
  | dec c hfits =>
    rw [toDecimalStr_cents]
    rfl

/-- **The item and the filters** have one price. -/
theorem searchItem_currentPrice (auctionId : Uuid) (a : Auction) :
    (searchItem auctionId a).currentPrice.value = (filterPrice a).value := by
  have hitem : (searchItem auctionId a).currentPrice =
      toDecimalStr (some (.decimal (filterPrice a))) := by
    unfold searchItem filterPrice
    cases a.highestBid <;> rfl
  rw [hitem, value_toDecimalStr]

end OnlineAuction.Search
