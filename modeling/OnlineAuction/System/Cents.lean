import OnlineAuction.Bidding.BidHistory
import OnlineAuction.Lifecycle.Retry
import OnlineAuction.System.Amounts
import OnlineAuction.System.Calls

/-!
# One amount, rounded twice

The amount of a bid goes to Redis as a text with two decimals and to PostgreSQL as a number that its
column rounds. Python's format takes the even cent at a tie, PostgreSQL the one away from zero. What
the script compares, stores and answers comes of the first; the row and its history of the second.

## What is proved

* `oneAmount_iff_cents` — a printed amount is that of a row, of its item in the history and of a close
  that the bid wins exactly when the cents are the same.
* `oneAmount_iff` — in every reachable state an accepted bid has one amount unless it is half-way above
  an even number of cents.
* `camera_two_amounts` — a bid of `20.125` is answered with `20.12` and stored as `20.13`.
-/

namespace OnlineAuction.System

open OnlineAuction.Foundation OnlineAuction.Store OnlineAuction.Lifecycle OnlineAuction.Bidding

/-- The text that the script compared is the amount of the row, of its item in the history, and of
every close that finds the bid in the hash. -/
structure OneAmount (price : DecStr) (row : Bid) : Prop where
  /-- The row. -/
  stored : price.value = row.amount.value
  /-- The history. -/
  shown : (historyItem row).amount = price
  /-- The close. -/
  closed : ∀ users a auction r h out, r.hash a = some h →
    h.highestBidder = some (some row.bidderId) → h.highestBid = some price →
    (closeAuction users a auction r).2 = .changed out → out.highestBid = some row.amount

theorem oneAmount_iff_cents {row : Bid} {c d : ℤ} {hfits : |d| < 10 ^ 12}
    (hrow : row.amount = .dec d hfits) : OneAmount (.dec c) row ↔ c = d := by
  constructor
  · rintro ⟨hstored, -, -⟩
    rw [hrow] at hstored
    simp only [DecStr.value, Numeric.value, Number.fin.injEq] at hstored
    have : (c : ℚ) = d := by linarith
    exact_mod_cast this
  · rintro rfl
    refine ⟨by rw [hrow]; rfl, by rw [historyItem, hrow, toDecimalStr_cents], ?_⟩
    intro users a auction r h out hh hb hbid hout
    obtain ⟨n, hn, hout⟩ := closeAuction_leaderBid hh hb hout
    rw [hout, hrow, ← hn, hbid]
    exact numeric_cents hfits

/-- What is known of an accepted bid that is committed: the script compared and stored the text of the
amount, and the call answered it. -/
structure AcceptedFor (s : Sys) (row : Bid) (c : Call) (price : DecStr) : Prop where
  /-- The call has answered. -/
  answered : c.pc.placed = some ⟨.accepted, some price, row.sequenceNum⟩
  /-- The script accepted the text. -/
  booked : ∃ e ∈ s.accepted row.auctionId, e.argv.bidId = row.bidId ∧ e.argv.amount = price

theorem acceptedFor_of_reach {now : ℤ} {users : List Uuid} {s : Sys} (hs : Reachable now users s)
    {row : Bid} (hrow : row ∈ s.pg.bid) (hacc : row.status = .accepted) {c : Call}
    (hc : s.bids row.bidId = some c) : AcceptedFor s row c (fixed2 c.data.amount) := by
  have hcalls : CallsInv s := callsInv_of_reach hs
  obtain ⟨c', v, hc', hv, hof⟩ := hcalls.row_of_mem hrow
  obtain rfl := Option.some.inj (hc.symm.trans hc')
  have hverdict := Pc.verdict_of_placed hv
  have hvacc : v.status = .accepted := hof.status.symm.trans hacc
  have hprice := priceKnown_of_reach hs _ _ v hc hverdict hvacc
  rw [toDecimalStr_float] at hprice
  obtain ⟨e, he, hid, hseq⟩ := hcalls.accepted _ _ v hc hverdict hvacc
  constructor
  · rw [hv, ← hprice, hof.sequenceNum, ← hvacc]
  · refine ⟨e, hof.auctionId ▸ he, hid, ?_⟩
    obtain ⟨c', hc', hof'⟩ := hcalls.history _ e he
    rw [hid, hc, Option.some.injEq] at hc'
    rw [hof'.amount, ← hc', toDecimalStr_float]

/-- **When an accepted bid has one amount**: unless the float is half-way above an even number of
cents. -/
theorem oneAmount_iff {now : ℤ} {users : List Uuid} {s : Sys} (hs : Reachable now users s)
    {row : Bid} (hrow : row ∈ s.pg.bid) (hacc : row.status = .accepted) {c : Call}
    (hc : s.bids row.bidId = some c) {q : ℚ} (hq : c.data.amount.val = .fin q) :
    AcceptedFor s row c (fixed2 c.data.amount) ∧
      (OneAmount (fixed2 c.data.amount) row ↔ ¬ EvenTie (q * 100)) := by
  refine ⟨acceptedFor_of_reach hs hrow hacc hc, ?_⟩
  have hcalls : CallsInv s := callsInv_of_reach hs
  obtain ⟨c', v, hc', -, hof⟩ := hcalls.row_of_mem hrow
  obtain rfl := Option.some.inj (hc.symm.trans hc')
  have hpos : 0 < q := by
    have := hcalls.positive _ _ hc
    rw [BidRequest.amountPositive, notAtMostZero, hq, Number.fin_le_fin] at this
    exact not_le.mp this
  have hprinted : fixed2 c.data.amount = .dec (roundEven (q * 100)) := by simp only [fixed2, hq]
  have hamount := hof.amount
  rw [hq, Numeric.ofNumber] at hamount
  split_ifs at hamount with hfits
  rw [hprinted, oneAmount_iff_cents (Option.some.inj hamount).symm]
  exact roundEven_eq_roundAway_iff (by positivity)

/-! ### Runs -/

/-- A bid on the camera is evaluated, stored and committed. -/
def storeBid (amount : ℚ) : List Act :=
  cameraBid (.ofNumber (.fin amount)) ++ List.replicate 3 (.bidStep 100 false)

/-- A bid of `20.13` has one amount. -/
theorem oneAmount_camera : ∃ s : Sys, ∃ row ∈ s.pg.bid, Reachable 1000000000 [1, 7] s ∧
    row.amount = .dec 2013 (by decide) ∧ OneAmount (.dec 2013) row := by
  obtain ⟨s, hs, hp⟩ := exists_reach step (fun _ _ _ => True) (storeBid (2013 / 100))
    (s := .initial 1000000000 [1, 7])
    (p := fun s => s.pg.bid.any fun row => row.amount = .dec 2013 (by decide) ∧
      row.status = .accepted ∧ (s.bids row.bidId).any fun c =>
        c.data.amount = .ofNumber (.fin (2013 / 100))) (by decide +kernel)
  obtain ⟨row, hrow, hp⟩ := List.any_eq_true.mp hp
  obtain ⟨hamount, hacc, hp⟩ := of_decide_eq_true hp
  obtain ⟨c, hc, hp⟩ := (Option.any_eq_true _ _).mp hp
  have hdata := of_decide_eq_true hp
  have hone := (oneAmount_iff hs hrow hacc hc (q := double (2013 / 100)) (by rw [hdata]; rfl)).2.mpr
    (by decide +kernel)
  have hprinted : fixed2 c.data.amount = .dec 2013 := by
    rw [hdata]
    decide +kernel
  exact ⟨s, row, hrow, hs, hamount, hprinted ▸ hone⟩

/-- **Two amounts for one bid**: `20.125` is answered with `20.12` and stored as `20.13`. -/
theorem camera_two_amounts : ∃ s : Sys, ∃ row ∈ s.pg.bid, ∃ c : Call,
    Reach step (fun _ act _ => act.faultless = true) (.initial 1000000000 [1, 7]) s ∧
    s.bids row.bidId = some c ∧ c.data.amount.val = .fin (20125 / 1000) ∧
    c.pc.placed = some ⟨.accepted, some (.dec 2012), row.sequenceNum⟩ ∧
    s.redis.hget 5 (·.highestBid) = some (.dec 2012) ∧ row.amount = .dec 2013 (by decide) ∧
    (historyItem row).amount = .dec 2013 ∧ ¬ OneAmount (.dec 2012) row := by
  obtain ⟨s, hs, hp⟩ := exists_reach step (fun _ act _ => act.faultless = true)
    (storeBid (20125 / 1000)) (s := .initial 1000000000 [1, 7])
    (p := fun s => s.redis.hget 5 (·.highestBid) = some (.dec 2012) ∧ s.pg.bid.any fun row =>
      row.amount = .dec 2013 (by decide) ∧ (historyItem row).amount = .dec 2013 ∧
      (s.bids row.bidId).any fun c => c.data.amount.val = .fin (20125 / 1000) ∧
        c.pc.placed = some ⟨.accepted, some (.dec 2012), row.sequenceNum⟩) (by decide +kernel)
  obtain ⟨hbid, hp⟩ := of_decide_eq_true hp
  obtain ⟨row, hrow, hp⟩ := List.any_eq_true.mp hp
  obtain ⟨hamount, hitem, hp⟩ := of_decide_eq_true hp
  obtain ⟨c, hc, hp⟩ := (Option.any_eq_true _ _).mp hp
  obtain ⟨hval, hplaced⟩ := of_decide_eq_true hp
  refine ⟨s, row, hrow, c, hs, hc, hval, hplaced, hbid, hamount, hitem, ?_⟩
  rw [oneAmount_iff_cents hamount]
  decide

end OnlineAuction.System
