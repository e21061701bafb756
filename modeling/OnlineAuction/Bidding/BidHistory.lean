import OnlineAuction.Foundation.Keyset
import OnlineAuction.Foundation.Runs
import OnlineAuction.Lifecycle.AuctionService

/-!
# The history of bids

`get_bid_history` (`bid_service.py`) lists the accepted bids of an auction page by page, newest
first. A reader who passes each page's `next_cursor` on walks through them, while new bids may be
committed.

## What is proved

* `getBidHistory_eq` — a page is a page of the accepted bids by their sequence numbers.
* `history_walk` — the pages of a walk are one descending list of accepted bids; at its end it has
  every bid that was committed before, once.
* `history_calls_le` — the walk ends: below a cursor there are at most so many calls more.

## Honest scope

Bids with one sequence number come in the order of the table.
-/

namespace OnlineAuction.Bidding

open OnlineAuction.Foundation OnlineAuction.Store OnlineAuction.Lifecycle

/-! ### One page -/

/-- `BidHistoryItem`. -/
structure BidHistoryItem where
  /-- The bid. -/
  bidId : Uuid
  /-- The bidder. -/
  bidderId : Uuid
  /-- The amount. -/
  amount : DecStr
  /-- The sequence number. -/
  sequenceNum : ℕ
  /-- When the row was made. -/
  createdTs : ℤ
  deriving DecidableEq

/-- `BidHistoryPage`. -/
structure BidHistoryPage where
  /-- The auction. -/
  auctionId : Uuid
  /-- The bids. -/
  bids : List BidHistoryItem
  /-- The cursor of the next page. -/
  nextCursor : Option ℤ
  deriving DecidableEq

/-- The item made of a row. -/
def historyItem (b : Bid) : BidHistoryItem :=
  ⟨b.bidId, b.bidderId, toDecimalStr (some (.decimal b.amount)), b.sequenceNum, b.createdTs⟩

/-- The column `sequence_num`. -/
def seqNum (b : Bid) : ℤ := b.sequenceNum

/-- The `where` of the statement. -/
def historyStmt (pg : Pg) (auctionId : Uuid) : Option ℤ → List Bid
  | some cursor => (acceptedBids pg auctionId).filter fun b => seqNum b < cursor
  | none => acceptedBids pg auctionId

/-- `get_bid_history`; one row too many says that there are more. -/
def getBidHistory (pg : Pg) (auctionId : Uuid) (cursor : Option ℤ) (limit : ℤ) :
    Option BidHistoryPage :=
  (pg.auction auctionId).map fun _ =>
    let sorted := (historyStmt pg auctionId cursor).insertionSort fun b b' => seqNum b' ≤ seqNum b
    let found := sorted.take (pageLimit limit + 1)
    let hasMore := decide (pageLimit limit < found.length)
    let bids := if hasMore then found.take (pageLimit limit) else found
    { auctionId := auctionId
      bids := bids.map historyItem
      nextCursor := if hasMore then bids.getLast?.map seqNum else none }

/-- **A page of the history** is a page of the accepted bids. -/
theorem getBidHistory_eq (pg : Pg) (auctionId : Uuid) (cursor : Option ℤ) (limit : ℤ) :
    getBidHistory pg auctionId cursor limit = (pg.auction auctionId).map fun _ =>
      let p := Keyset.page seqNum (acceptedBids pg auctionId) cursor (pageLimit limit)
      ⟨auctionId, p.1.map historyItem, p.2⟩ := by
  have hstmt : historyStmt pg auctionId cursor =
      (acceptedBids pg auctionId).filter fun b => Keyset.Below seqNum cursor b := by
    cases cursor <;> simp [historyStmt, Keyset.Below]
  have hfetch : ((historyStmt pg auctionId cursor).insertionSort
      fun b b' => seqNum b' ≤ seqNum b).take (pageLimit limit + 1) =
      Keyset.fetch seqNum (acceptedBids pg auctionId) cursor (pageLimit limit) := by
    rw [hstmt]
    rfl
  unfold getBidHistory Keyset.page Keyset.cut
  simp only [hfetch, decide_eq_true_eq]
  split_ifs <;> rfl

/-! ### A walk -/

/-- The accepted bids of the auction have different, positive sequence numbers. -/
def DistinctNums (pg : Pg) (auctionId : Uuid) : Prop :=
  ((acceptedBids pg auctionId).map seqNum).Nodup ∧ ∀ b ∈ acceptedBids pg auctionId, 0 < seqNum b

instance (pg : Pg) (auctionId : Uuid) : Decidable (DistinctNums pg auctionId) :=
  inferInstanceAs (Decidable (_ ∧ _))

/-- A reader of the history of one auction, beside the table. -/
structure HistoryWalk where
  /-- PostgreSQL. -/
  pg : Pg
  /-- How far the reader has come. -/
  place : Keyset.Place ℤ
  /-- The pages so far. -/
  items : List BidHistoryItem
  /-- How many pages were read. -/
  calls : ℕ

/-- Before the first page. -/
def HistoryWalk.start (pg : Pg) : HistoryWalk := ⟨pg, .start, [], 0⟩

/-- The steps of a walk. -/
inductive HistoryAct where
  /-- Bids are committed. -/
  | commit (bids : List Bid)
  /-- The next page is read. -/
  | call (limit : ℤ)

/-- One step: new bids leave the sequence numbers different, and the next page is read with the
cursor of the page before. -/
def historyStep (auctionId : Uuid) (w : HistoryWalk) : HistoryAct → Option HistoryWalk
  | .commit bids =>
    if DistinctNums { w.pg with bid := w.pg.bid ++ bids } auctionId then
      some { w with pg := { w.pg with bid := w.pg.bid ++ bids } }
    else none
  | .call limit =>
    if w.place = .done then none
    else (getBidHistory w.pg auctionId w.place.cursor limit).map fun page =>
      { w with
        place := .after page.nextCursor
        items := w.items ++ page.bids
        calls := w.calls + 1 }

/-- The walk has listed the bids it began with, down to its cursor. -/
structure Walked (auctionId : Uuid) (pg₀ : Pg) (w : HistoryWalk) : Prop where
  /-- The auction is there. -/
  auction : w.pg.auction auctionId ≠ none
  /-- The numbers are different. -/
  nums : DistinctNums w.pg auctionId
  /-- A cursor is the number of a bid. -/
  positive : ∀ c, w.place = .at c → 0 < c
  /-- What is listed. -/
  covered : ∃ listed, w.items = listed.map historyItem ∧
    Keyset.Covered seqNum (acceptedBids pg₀ auctionId) (acceptedBids w.pg auctionId) listed w.place

theorem walked_start {auctionId : Uuid} {pg : Pg} (hrow : pg.auction auctionId ≠ none)
    (hnums : DistinctNums pg auctionId) : Walked auctionId pg (.start pg) :=
  ⟨hrow, hnums, fun _ h => (by cases h), [], rfl, .begin hnums.1⟩

theorem acceptedBids_append (pg : Pg) (bids : List Bid) (auctionId : Uuid) :
    acceptedBids { pg with bid := pg.bid ++ bids } auctionId = acceptedBids pg auctionId ++
      bids.filter fun b => b.auctionId = auctionId ∧ b.status = .accepted :=
  List.filter_append ..

/-- What the next page leaves. -/
theorem historyStep_call {auctionId : Uuid} {w w' : HistoryWalk} {limit : ℤ}
    (h : historyStep auctionId w (.call limit) = some w') :
    w.place ≠ .done ∧ ∃ p, p = Keyset.page seqNum (acceptedBids w.pg auctionId) w.place.cursor
      (pageLimit limit) ∧
      w' = { w with
        place := .after p.2
        items := w.items ++ p.1.map historyItem
        calls := w.calls + 1 } := by
  simp only [historyStep] at h
  split_ifs at h with hplace
  obtain ⟨page, hpage, rfl⟩ := Option.map_eq_some_iff.mp h
  rw [getBidHistory_eq] at hpage
  obtain ⟨row, -, rfl⟩ := Option.map_eq_some_iff.mp hpage
  exact ⟨hplace, _, rfl, rfl⟩

/-- **One step of a walk.** -/
theorem walked_step {auctionId : Uuid} {pg₀ : Pg} {w w' : HistoryWalk} {act : HistoryAct}
    (hw : Walked auctionId pg₀ w) (h : historyStep auctionId w act = some w') :
    Walked auctionId pg₀ w' := by
  obtain ⟨listed, hitems, hcovered⟩ := hw.covered
  cases act with
  | commit bids =>
    simp only [historyStep] at h
    split_ifs at h with hnums
    cases h
    refine ⟨hw.auction, hnums, hw.positive, listed, hitems, hcovered.grow ?_ hnums.1⟩
    intro b hb
    rw [acceptedBids_append]
    exact List.mem_append_left _ hb
  | call limit =>
    obtain ⟨hplace, p, rfl, rfl⟩ := historyStep_call h
    refine ⟨hw.auction, hw.nums, ?_, _, ?_, hcovered.page hplace (pageLimit_pos limit)⟩
    · intro c hc
      obtain ⟨⟨b, hb, rfl⟩, -⟩ := Keyset.page_next_lt hw.nums.1 (pageLimit_pos limit)
        (Keyset.Place.after_eq_at.mp hc)
      exact hw.nums.2 b hb
    · rw [List.map_append, hitems]

/-- How many pages there may be from a place on. -/
def pagesLeft : Keyset.Place ℤ → ℕ
  | .at cursor => cursor.toNat
  | _ => 0

/-- Every page lowers the bound on the pages that are left. -/
theorem calls_step {auctionId : Uuid} {pg₀ : Pg} {w w' : HistoryWalk} {act : HistoryAct}
    (hw : Walked auctionId pg₀ w) (h : historyStep auctionId w act = some w')
    (hplace : w.place ≠ .start) :
    w'.place ≠ .start ∧ w'.calls + pagesLeft w'.place ≤ w.calls + pagesLeft w.place := by
  cases act with
  | commit bids =>
    simp only [historyStep] at h
    split_ifs at h
    cases h
    exact ⟨hplace, le_rfl⟩
  | call limit =>
    obtain ⟨hdone, p, hp, rfl⟩ := historyStep_call h
    refine ⟨Keyset.Place.after_ne_start _, ?_⟩
    obtain ⟨c, hc⟩ : ∃ c, w.place = .at c := by
      cases hw' : w.place with
      | start => exact absurd hw' hplace
      | «at» c => exact ⟨c, rfl⟩
      | done => exact absurd hw' hdone
    have hpos := hw.positive c hc
    show w.calls + 1 + pagesLeft (.after p.2) ≤ _
    cases hnext : p.2 with
    | none =>
      simp only [hc, pagesLeft, Keyset.Place.after]
      omega
    | some c' =>
      -- the cursor goes down, and it is the number of a bid
      rw [hp] at hnext
      have hlt := (Keyset.page_next_lt hw.nums.1 (pageLimit_pos limit) hnext).2 c (by rw [hc]; rfl)
      simp only [hc, pagesLeft, Keyset.Place.after]
      omega

/-- **The walk ends**: once a page was read, there are at most so many pages more as its cursor says,
whatever is committed meanwhile. -/
theorem history_calls_le {auctionId : Uuid} {pg₀ : Pg} {w w' : HistoryWalk}
    (hw : Walked auctionId pg₀ w) (hplace : w.place ≠ .start)
    (hlater : Reach (historyStep auctionId) (fun _ _ _ => True) w w') :
    w'.calls + pagesLeft w'.place ≤ w.calls + pagesLeft w.place := by
  have key := hlater.invariant_with (J := Walked auctionId pg₀)
    (I := fun w' => w'.place ≠ .start ∧ w'.calls + pagesLeft w'.place ≤ w.calls + pagesLeft w.place)
    (fun hw hstep _ => walked_step hw hstep) ?_ hw ⟨hplace, le_rfl⟩
  · exact key.2
  · intro u act v hu hle hstep _
    obtain ⟨hne, hstep⟩ := calls_step hu hstep hle.1
    exact ⟨hne, hstep.trans hle.2⟩

/-- The next page can always be read until the walk is done. -/
theorem historyStep_enabled {auctionId : Uuid} {pg₀ : Pg} {w : HistoryWalk}
    (hw : Walked auctionId pg₀ w) (hplace : w.place ≠ .done) (limit : ℤ) :
    ∃ w', historyStep auctionId w (.call limit) = some w' := by
  obtain ⟨row, hrow⟩ := Option.ne_none_iff_exists'.mp hw.auction
  rw [historyStep, if_neg hplace, getBidHistory_eq, hrow]
  exact ⟨_, rfl⟩

/-- **A walk through the history** lists accepted bids of the auction in strictly descending order; it
can go on until it is done, which it is after finitely many pages; and then it has listed every bid
that was committed before its first page exactly once. -/
theorem history_walk {auctionId : Uuid} {pg : Pg} (hrow : pg.auction auctionId ≠ none)
    (hnums : DistinctNums pg auctionId) {w : HistoryWalk}
    (hw : Reach (historyStep auctionId) (fun _ _ _ => True) (.start pg) w) :
    w.items.Pairwise (fun i j => j.sequenceNum < i.sequenceNum) ∧
    (∀ i ∈ w.items, ∃ b ∈ acceptedBids w.pg auctionId, i = historyItem b) ∧
    (w.place = .done → ∀ b ∈ acceptedBids pg auctionId, w.items.count (historyItem b) = 1) ∧
    (w.place ≠ .done → ∀ limit, ∃ w', historyStep auctionId w (.call limit) = some w') ∧
    (w.place ≠ .start → ∀ w', Reach (historyStep auctionId) (fun _ _ _ => True) w w' →
      w'.calls ≤ w.calls + pagesLeft w.place) := by
  have hwalked : Walked auctionId pg w :=
    hw.invariant (fun hw hstep _ => walked_step hw hstep) (walked_start hrow hnums)
  obtain ⟨listed, hitems, hcovered⟩ := hwalked.covered
  have hsorted : w.items.Pairwise fun i j => j.sequenceNum < i.sequenceNum := by
    rw [hitems, List.pairwise_map]
    exact hcovered.sorted.imp fun h => Int.ofNat_lt.mp h
  refine ⟨hsorted, ?_, ?_, historyStep_enabled hwalked, ?_⟩
  · intro i hi
    rw [hitems] at hi
    obtain ⟨b, hb, rfl⟩ := List.mem_map.mp hi
    exact ⟨b, hcovered.sound b hb, rfl⟩
  · intro hdone b hb
    have hnodup : w.items.Nodup := hsorted.imp fun h heq => absurd (heq ▸ h) (lt_irrefl _)
    apply List.count_eq_one_of_mem hnodup
    rw [hitems]
    exact List.mem_map_of_mem (hcovered.done hdone b hb)
  · intro hplace w' hlater
    have := history_calls_le hwalked hplace hlater
    omega

/-! ### Runs -/

/-- An accepted bid on the camera. -/
def cameraRowOf (seq : ℕ) : Bid :=
  ⟨100 + seq, 5, 7, .dec 2500 (by decide), false, seq, .accepted, 1000000000 + seq⟩

/-- The camera with three bids. -/
def threeBids : Pg :=
  ⟨[1, 7], fun a => if a = 5 then some cameraRow else none,
    [cameraRowOf 1, cameraRowOf 2, cameraRowOf 3], [], [], []⟩

/-- The three bids are read on two pages, between which a fourth is committed. -/
theorem history_walk_camera : ∃ w : HistoryWalk, w.place = .done ∧
    w.items.map (·.sequenceNum) = [3, 2, 1] ∧
    ∀ b ∈ acceptedBids threeBids 5, w.items.count (historyItem b) = 1 := by
  obtain ⟨w, hw, hp⟩ := exists_reach (historyStep 5) (fun _ _ _ => True)
    [.call 2, .commit [cameraRowOf 4], .call 50] (s := .start threeBids)
    (p := fun w => w.place = .done ∧ w.items.map (·.sequenceNum) = [3, 2, 1]) (by decide +kernel)
  obtain ⟨hdone, hseqs⟩ := of_decide_eq_true hp
  exact ⟨w, hdone, hseqs, (history_walk (by decide) (by decide) hw).2.2.1 hdone⟩

end OnlineAuction.Bidding
