import OnlineAuction.Foundation.Watch
import OnlineAuction.System.Amounts
import OnlineAuction.System.Outcomes

/-!
# Reading an auction while it is closed

`get_auction_detail` reads the row, then the bids, then the hash; it takes the winner from the row
and the state from the hash. A close writes the state to the hash before the commit of its poll
writes the winner to the row, and the commit may come after the closes of the whole batch.

Any number of calls of `get_auction_detail` observe the service, one read at a time.

## What is proved

* `read_step` — what a step of the service keeps for a call that has read its row (`Read`).
* `detail_consistent` — in every run in which no row is read while its hash is ahead of it, and no
  auction is sold in its hash while a call is between its reads, every answer has a winner exactly
  when it is sold.
-/

namespace OnlineAuction.System

open OnlineAuction.Foundation OnlineAuction.Store OnlineAuction.Lifecycle OnlineAuction.Bidding

/-! ### The reads -/

/-- What `get_auction_detail` makes of its reads. -/
def mergeDetail (auctionId : Uuid) (auction : Auction) (bidCount : ℕ) (data : Option AuctionHash)
    (now : ℤ) : AuctionDetail :=
  let currentPrice := match data with
    | some h => h.highestBid
    | none => some (toDecimalStr (some (.decimal (highestBidOrStartingPrice auction))))
  let state := match data with
    | some h => h.state.getD auction.state
    | none => auction.state
  let endTsUnix := match data with
    | some h => readSeconds (h.endTs.getD 0)
    | none => unixSeconds auction.endTs
  { auctionId := auctionId
    title := auction.title
    category := auction.category
    startingPrice := toDecimalStr (some (.decimal auction.startingPrice))
    currentPrice := currentPrice
    minIncrement := toDecimalStr (some (.decimal auction.minIncrement))
    bidCount := bidCount
    state := state
    startTs := auction.startTs
    endTs := auction.endTs
    timeRemainingSeconds := max 0 (endTsUnix - unixSeconds now)
    winnerId := auction.winnerId
    reservePrice := auction.reservePrice.map fun d => PyFloat.ofNumber d.value }

/-- Read at one instant, it is `getAuctionDetail`. -/
theorem getAuctionDetail_eq (pg : Pg) (redis : Redis) (auctionId : Uuid) (now : ℤ) :
    getAuctionDetail pg redis auctionId now = (pg.auction auctionId).map fun auction =>
      mergeDetail auctionId auction (acceptedBids pg auctionId).length (redis.hash auctionId) now :=
  rfl

/-- What a call of `get_auction_detail` awaits. -/
inductive DetailPc where
  /-- `db.get(Auction, auction_id)`. -/
  | row
  /-- `db.execute(select(Bid))`. -/
  | bids (auction : Auction)
  /-- `redis.hgetall`. -/
  | hash (auction : Auction) (bidCount : ℕ)
  /-- It has answered; `none` is `AUCTION_NOT_FOUND`. -/
  | done (detail : Option AuctionDetail)
  deriving DecidableEq

/-- A call of `get_auction_detail`. -/
structure DetailCall where
  /-- The auction. -/
  auctionId : Uuid
  /-- What it awaits. -/
  pc : DetailPc
  deriving DecidableEq

/-- One read of `get_auction_detail`. -/
def detailStep (s : Sys) (d : DetailCall) : Option DetailCall :=
  match d.pc with
  | .row =>
    match s.pg.auction d.auctionId with
    | none => some { d with pc := .done none }
    | some auction => some { d with pc := .bids auction }
  | .bids auction => some { d with pc := .hash auction (acceptedBids s.pg d.auctionId).length }
  | .hash auction bidCount => some { d with
      pc := .done (some (mergeDetail d.auctionId auction bidCount (s.redis.hash d.auctionId) s.now)) }
  | .done _ => none

/-- The service with calls of `get_auction_detail`, each for an auction. -/
def reading : Watch Sys DetailCall Act Uuid Unit where
  step := step
  enter := fun a => ⟨a, .row⟩
  hear := fun _ _ _ d => d
  own := fun s d _ => detailStep s d

/-- An answer tells a consistent outcome: a sold auction has a winner, and one that is not closed
or unsold has none. -/
structure Consistent (detail : AuctionDetail) : Prop where
  /-- A sold auction. -/
  sold : detail.state = .sold → detail.winnerId ≠ none
  /-- An auction that is not. -/
  other : detail.state = .upcoming ∨ detail.state = .active ∨ detail.state = .unsold →
    detail.winnerId = none

/-! ### Torn reads -/

/-- The row of a call that is between its reads. -/
def DetailPc.between : DetailPc → Option Auction
  | .bids auction | .hash auction _ => some auction
  | _ => none

/-- The hash says sold and the row has no winner, or the row has one and the hash says something
else. -/
def ahead (s : Sys) (a : Uuid) : Bool :=
  (s.pg.auction a).any fun row => (s.redis.hash a).any fun h => h.state.any fun state =>
    decide (state = .sold) ≠ row.winnerId.isSome

/-- The auction that a step sells in its hash. -/
def sells (s : Sys) : Act → Option Uuid
  | .closeStep false => s.closes.bind fun p => match p.pc with
    | .hset obj => if obj.row.state = .sold then p.todo.head?.map Prod.fst else none
    | _ => none
  | _ => none

/-- A step tears no read: no call reads a row while the hash is ahead of it, and no auction is sold
in its hash while a call is between its reads of it. -/
def untorn (w : Watched Sys DetailCall) : WatchAct Act Uuid Unit → Bool
  | .core act => (sells w.core act).all fun a =>
      w.observers.all fun d => decide (d.auctionId = a) → d.pc.between = none
  | .own k _ => w.observers[k]?.all fun d => decide (d.pc = .row) → !ahead w.core d.auctionId
  | .join _ => true

/-- What holds of the row that a call has read, until it reads the hash. -/
structure Read (s : Sys) (a : Uuid) (auction : Auction) : Prop where
  /-- The row is sold exactly with a winner, unless it is `CLOSED`. -/
  sound : auction.state = .closed ∨ (auction.state = .sold ↔ auction.winnerId ≠ none)
  /-- It is still the row, or was one without a winner. -/
  current : ∃ row, s.pg.auction a = some row ∧ (row = auction ∨ auction.winnerId = none)
  /-- The hash says sold exactly if it has a winner. -/
  agrees : ∀ h state, s.redis.hash a = some h → h.state = some state →
    (state = .sold ↔ auction.winnerId ≠ none)

/-- A row that is committed and not closed has no winner. -/
theorem winner_of_unclosed {s : Sys} (hinv : AuctionsInv s) {a : Uuid} {row : Auction}
    (hrow : s.pg.auction a = some row) (hstate : row.state = .upcoming ∨ row.state = .active) :
    row.winnerId = none := ((hinv.rows a row hrow).unclosed hstate).2

/-- A command of the close poll that raises writes nothing to Redis. -/
theorem closeStep_raised {users : List Uuid} {r r' : Redis} {p : ClosePoll} {p' : Option ClosePoll}
    (h : closeStep users true r p = some (r', p')) : r' = r := by
  unfold Lifecycle.closeStep at h
  split at h
  · cases h
  · split at h <;> simp only [if_true, Option.some.injEq, Prod.mk.injEq] at h <;> exact h.1.symm

section Step

variable {s t : Sys} {act : Act} {a : Uuid} {auction : Auction}

theorem current_step (hinv : AuctionsInv s) (h : SysStep s act t)
    (hr : ∃ row, s.pg.auction a = some row ∧ (row = auction ∨ auction.winnerId = none)) :
    ∃ row, t.pg.auction a = some row ∧ (row = auction ∨ auction.winnerId = none) := by
  obtain ⟨row, hrow, hsame⟩ := hr
  have hnone : row.state = .upcoming ∨ row.state = .active → auction.winnerId = none := by
    intro hstate
    rcases hsame with rfl | hw
    · exact winner_of_unclosed hinv hrow hstate
    · exact hw
  cases (h.row a).change hinv with
  | kept heq => exact ⟨row, heq.trans hrow, hsame⟩
  | stored _ hnew => cases hnew.symm.trans hrow
  | started _ hrow₀ hstate heq =>
    obtain rfl := Option.some.inj (hrow.symm.trans hrow₀)
    exact ⟨_, heq, Or.inr (hnone (Or.inl hstate))⟩
  | closed _ hrow₀ hstate _ heq =>
    obtain rfl := Option.some.inj (hrow.symm.trans hrow₀)
    exact ⟨_, heq, Or.inr (hnone (Or.inr hstate))⟩

/-- **A step of the service** that does not sell the auction keeps what holds of a row that was
read. -/
theorem read_step (hinv : AuctionsInv s) (h : SysStep s act t)
    (hsells : sells s act ≠ some a) (hr : Read s a auction) : Read t a auction := by
  refine ⟨hr.sound, current_step hinv h hr.current, ?_⟩
  intro h' state hh hstate
  obtain ⟨row, hrow, hsame⟩ := hr.current
  have hnone : row.state = .upcoming ∨ row.state = .active → auction.winnerId = none := by
    intro hstate
    rcases hsame with rfl | hw
    · exact winner_of_unclosed hinv hrow hstate
    · exact hw
  cases h.hash a with
  | kept hash => exact hr.agrees h' state (hash ▸ hh) hstate
  | opened _ src => cases (hinv.pending a _ src (by simp)).1.symm.trans hrow
  | started _ src hash =>
    obtain ⟨hrow', hupcoming⟩ := hinv.row_of_starts src
    obtain rfl := Option.some.inj (hrow.symm.trans hrow')
    rw [hash, Option.some.injEq] at hh
    subst hh
    cases hstate
    exact iff_of_false (by simp) (not_not.mpr (hnone (Or.inl hupcoming)))
  | booked _ _ _ _ _ hfound _ hash =>
    rw [hash, Option.some.injEq] at hh
    subst hh
    exact hr.agrees _ state hfound hstate
  | @closed p obj row' rest fault hact src hpc htodo hash =>
    subst hact
    obtain ⟨hrow', hactive⟩ := hinv.row_of_closes src htodo
    obtain rfl := Option.some.inj (hrow.symm.trans hrow')
    cases fault with
    | true =>
      cases h with
      | closed _ _ hstep =>
        rw [closeStep_raised hstep] at hh
        exact hr.agrees h' state hh hstate
    | false =>
      rw [hash, Option.some.injEq] at hh
      subst hh
      cases hstate
      refine iff_of_false ?_ (not_not.mpr (hnone (Or.inr hactive)))
      intro hsold
      apply hsells
      simp only [sells, src, Option.bind_some, hpc, hsold, if_true, htodo, List.head?_cons,
        Option.map_some]
  | lost _ hash => rw [hash] at hh; cases hh

/-- A row that is read while the hash is not ahead of it. -/
theorem read_begin (hinv : AuctionsInv s) (hout : OutcomesInv s)
    (hrow : s.pg.auction a = some auction) (hahead : ahead s a = false) : Read s a auction := by
  refine ⟨?_, ⟨auction, hrow, Or.inl rfl⟩, ?_⟩
  · by_cases hopen : auction.state = .upcoming ∨ auction.state = .active
    · right
      refine iff_of_false ?_ (not_not.mpr (winner_of_unclosed hinv hrow hopen))
      rcases hopen with h | h <;> simp [h]
    · obtain ⟨hupcoming, hactive⟩ := not_or.mp hopen
      refine (hout.rows a auction hrow hupcoming hactive).imp id ?_
      rintro (⟨hsold, hw⟩ | ⟨hunsold, hw⟩)
      · exact iff_of_true hsold hw
      · exact iff_of_false (by rw [hunsold]; simp) (not_not.mpr hw)
  · intro h state hh hstate
    simp only [ahead, hrow, hh, hstate, Option.any_some, decide_eq_false_iff_not, ne_eq,
      not_not] at hahead
    rw [← decide_eq_true_iff (p := state = .sold), hahead, Option.isSome_iff_ne_none]

/-- **The answer** to a call that has read so is consistent. -/
theorem Read.consistent (hr : Read s a auction) (bidCount : ℕ) (now : ℤ) :
    Consistent (mergeDetail a auction bidCount (s.redis.hash a) now) := by
  have key : ∀ state : AuctionState, state = .closed ∨ (state = .sold ↔ auction.winnerId ≠ none) →
      (state = .sold → auction.winnerId ≠ none) ∧
        (state = .upcoming ∨ state = .active ∨ state = .unsold → auction.winnerId = none) := by
    rintro state (rfl | hiff)
    · simp
    · refine ⟨hiff.mp, ?_⟩
      intro hstate
      by_contra hw
      rw [hiff.mpr hw] at hstate
      simp at hstate
  have hstate := key (mergeDetail a auction bidCount (s.redis.hash a) now).state ?_
  · exact ⟨hstate.1, hstate.2⟩
  cases hh : s.redis.hash a with
  | none => exact hr.sound
  | some h =>
    cases hs : h.state with
    | none =>
      simp only [mergeDetail, hs, Option.getD_none]
      exact hr.sound
    | some state =>
      simp only [mergeDetail, hs, Option.getD_some]
      exact Or.inr (hr.agrees h state hh hs)

end Step

/-! ### Every run -/

/-- What holds between the service and a call of `get_auction_detail`. -/
def DetailOk (s : Sys) (d : DetailCall) : Prop :=
  (∀ auction ∈ d.pc.between, Read s d.auctionId auction) ∧
    ∀ detail, d.pc = .done (some detail) → Consistent detail

theorem detail_own {s : Sys} {d d' : DetailCall} (hinv : AuctionsInv s) (hout : OutcomesInv s)
    (hd : DetailOk s d) (hstep : detailStep s d = some d')
    (hahead : d.pc = .row → ahead s d.auctionId = false) : DetailOk s d' := by
  obtain ⟨a, pc⟩ := d
  cases pc with
  | row =>
    simp only [detailStep] at hstep
    cases hrow : s.pg.auction a with
    | none =>
      rw [hrow] at hstep
      cases hstep
      exact ⟨by simp [DetailPc.between], by simp⟩
    | some auction =>
      rw [hrow] at hstep
      cases hstep
      refine ⟨?_, by simp⟩
      rintro auction ⟨⟩
      exact read_begin hinv hout hrow (hahead rfl)
  | bids auction =>
    cases hstep
    exact ⟨hd.1, by simp⟩
  | hash auction bidCount =>
    cases hstep
    refine ⟨by simp [DetailPc.between], ?_⟩
    rintro detail ⟨⟩
    exact (hd.1 auction rfl).consistent bidCount s.now
  | done detail => cases hstep

/-- **Every answer is consistent** in a run that tears no read. -/
theorem detail_consistent {now : ℤ} {users : List Uuid} {w : Watched Sys DetailCall}
    (hrun : Reach reading.next (fun w act _ => untorn w act = true) ⟨.initial now users, []⟩ w)
    {d : DetailCall} (hd : d ∈ w.observers) {detail : AuctionDetail}
    (hdone : d.pc = .done (some detail)) : Consistent detail := by
  have hall := Watch.invariant (W := reading) (I := fun s => AuctionsInv s ∧ OutcomesInv s)
    (P := DetailOk) ?_ ?_ ?_ hrun ⟨auctionsInv_initial now users, outcomesInv_initial now users⟩
    (by simp)
  · exact (hall.2 d hd).2 detail hdone
  · -- a step of the service
    rintro w act t ⟨hinv, hout⟩ hstep hok
    refine ⟨⟨auctionsInv_step hinv hstep, outcomesInv_step hinv hout (step_cases hstep)⟩, ?_⟩
    intro d hd hdok
    refine ⟨?_, hdok.2⟩
    intro auction (hbetween : d.pc.between = some auction)
    refine read_step hinv (step_cases hstep) ?_ (hdok.1 auction hbetween)
    intro hsells
    simp only [untorn, hsells, Option.all_some, List.all_eq_true, decide_eq_true_eq] at hok
    rw [hok d hd rfl] at hbetween
    cases hbetween
  · -- a new call
    intro s a _
    exact ⟨by simp [reading, DetailPc.between], by simp [reading]⟩
  · -- a read
    rintro w k b d d' w' ⟨hinv, hout⟩ hdok hk hstep hok
    refine detail_own hinv hout hdok hstep ?_
    intro hrow
    simpa [untorn, hk, hrow] using hok

/-! ### Runs -/

/-- What a call has answered. -/
def DetailPc.detail : DetailPc → Option AuctionDetail
  | .done detail => detail
  | _ => none

theorem DetailPc.done_of_detail {pc : DetailPc} {detail : AuctionDetail}
    (h : pc.detail = some detail) : pc = .done (some detail) := by
  cases pc with
  | done answer => exact congrArg DetailPc.done h
  | _ => cases h

/-- The camera with a bid of `25.00` is due, and the poll closes it up to its commit. -/
def closingCamera : List (WatchAct Act Uuid Unit) :=
  (cameraBid (.ofNumber (.fin 25)) ++ [Act.tick 60000000, .closeSelect [(5, cameraRow)]] ++
    List.replicate 4 (Act.closeStep false)).map .core

/-- The camera is read after that commit. -/
theorem detail_consistent_camera : ∃ w : Watched Sys DetailCall, ∃ d ∈ w.observers, ∃ detail,
    d.pc = .done (some detail) ∧ detail.state = .sold ∧ detail.winnerId = some 7 ∧
      Consistent detail := by
  obtain ⟨w, hw, hp⟩ := exists_reach reading.next (fun w act _ => untorn w act = true)
    (closingCamera ++ [.core (.closeCommit false), .join 5, .own 0 (), .own 0 (), .own 0 ()])
    (s := ⟨.initial 1000000000 [1, 7], []⟩)
    (p := fun w => w.observers.any fun d => d.pc.detail.any fun detail =>
      detail.state = .sold ∧ detail.winnerId = some 7) (by decide +kernel)
  obtain ⟨d, hd, hp⟩ := List.any_eq_true.mp hp
  obtain ⟨detail, hdetail, hstate⟩ := (Option.any_eq_true _ _).mp hp
  have hdone := DetailPc.done_of_detail hdetail
  have hstate := of_decide_eq_true hstate
  exact ⟨w, d, hd, detail, hdone, hstate.1, hstate.2, detail_consistent hw hd hdone⟩

/-- **Sold to nobody**: the camera is read before the commit of its close. -/
theorem camera_sold_to_nobody : ∃ w : Watched Sys DetailCall, ∃ d ∈ w.observers, ∃ detail,
    Reach reading.next (fun _ _ _ => True) ⟨.initial 1000000000 [1, 7], []⟩ w ∧
    d.pc = .done (some detail) ∧ detail.state = .sold ∧ detail.winnerId = none ∧
      ¬ Consistent detail := by
  obtain ⟨w, hw, hp⟩ := exists_reach reading.next (fun _ _ _ => True)
    (closingCamera ++ [.join 5, .own 0 (), .own 0 (), .own 0 ()])
    (s := ⟨.initial 1000000000 [1, 7], []⟩)
    (p := fun w => w.observers.any fun d => d.pc.detail.any fun detail =>
      detail.state = .sold ∧ detail.winnerId = none) (by decide +kernel)
  obtain ⟨d, hd, hp⟩ := List.any_eq_true.mp hp
  obtain ⟨detail, hdetail, hstate⟩ := (Option.any_eq_true _ _).mp hp
  have hdone := DetailPc.done_of_detail hdetail
  have hstate := of_decide_eq_true hstate
  exact ⟨w, d, hd, detail, hw, hdone, hstate.1, hstate.2, fun h => h.sold hstate.1 hstate.2⟩

end OnlineAuction.System
