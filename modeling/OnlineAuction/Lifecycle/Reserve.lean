import OnlineAuction.Lifecycle.Retry

/-!
# The reserve

`close_auction` reads the highest bid as a binary64 number and compares it with the reserve, which is
an exact decimal. A top bid that equals the reserve is compared with what it was rounded from.

## What is proved

* `le_double_cents_iff` — the rounded bid reaches a reserve of whole cents exactly when the bid does,
  unless the two are equal and the bid is rounded down.
* `closeAuction_leader` — what a close makes of an auction with a reserve, a leader and a top bid.
* `closedAtReserve_iff` — when it sells exactly the auctions whose top bid reaches the reserve.
* `camera_below_reserve` — a bid of `19.99` does not reach a reserve of `19.99`.
-/

namespace OnlineAuction.Lifecycle

open OnlineAuction.Foundation OnlineAuction.Store

/-- The top bid is the reserve, and binary64 rounds it down. -/
def RoundedDown (h r : ℤ) : Prop := h = r ∧ double (h / 100) < h / 100

instance (h r : ℤ) : Decidable (RoundedDown h r) := inferInstanceAs (Decidable (_ ∧ _))

/-- **The comparison with the reserve.** -/
theorem le_double_cents_iff {h r : ℤ} (hh : |h| < 10 ^ 12) :
    (r / 100 : ℚ) ≤ double (h / 100) ↔ r ≤ h ∧ ¬ RoundedDown h r := by
  obtain ⟨h₁, h₂⟩ := abs_lt.mp (abs_double_cents_sub_lt hh)
  unfold RoundedDown
  rcases lt_trichotomy r h with hlt | rfl | hgt
  · -- a cent is much more than the error
    have hcent : (r : ℚ) + 1 ≤ h := by exact_mod_cast hlt
    exact iff_of_true (by linarith) ⟨hlt.le, fun heq => absurd heq.1 hlt.ne'⟩
  · rw [← not_lt]
    simp
  · have hcent : (h : ℚ) + 1 ≤ r := by exact_mod_cast hgt
    exact iff_of_false (by linarith) fun hle => absurd hle.1 (not_le.mpr hgt)

/-- An auction with a reserve of `r` cents, whose hash has a leader and a top bid of `h` cents. -/
structure AtReserve (row : Auction) (data : Option AuctionHash) (bidder : Uuid) (h r : ℤ) :
    Prop where
  /-- The reserve. -/
  reserve : ∃ hfits, row.reservePrice = some (.dec r hfits)
  /-- The leader and the top bid. -/
  leader : ∃ hash, data = some hash ∧ hash.highestBidder = some (some bidder) ∧
    hash.highestBid = some (.dec h)
  /-- The top bid fits its column. -/
  fits : |h| < 10 ^ 12

/-- **A close with a leader**: the flush is refused when the leader is no user; otherwise the rounded
bid is compared with the reserve. -/
theorem closeAuction_leader {users : List Uuid} {a : Uuid} {row : Auction} {R : Redis}
    {bidder : Uuid} {h r : ℤ} (hat : AtReserve row (R.hash a) bidder h r) :
    (bidder ∉ users → (closeAuction users a row R).2 = .broken) ∧
    (bidder ∈ users → ∃ out, (closeAuction users a row R).2 = .changed out ∧
      if (r / 100 : ℚ) ≤ double (h / 100) then out.state = .sold ∧ out.winnerId = some bidder
      else out.state = .unsold ∧ out.winnerId = none) := by
  obtain ⟨hr, hreserve⟩ := hat.reserve
  obtain ⟨hash, hdata, hb, hbid⟩ := hat.leader
  have hassign := assignWinner_leader hb row
  rw [hbid, Option.getD_some] at hassign
  constructor
  · intro hno
    have hflush : flushAuction users (assignWinner (R.hash a) row) = none := by
      rw [hdata, hassign, flushAuction]
      simp [hno]
    simp only [closeAuction, hflush]
  · intro hmem
    obtain ⟨obj, hobj⟩ : ∃ obj : AuctionObj, obj = ⟨{ row with
        state := .closed, winnerId := some bidder, highestBid := some (.dec h hat.fits) },
        some (.float (.ofNumber (.fin (h / 100))))⟩ := ⟨_, rfl⟩
    have hflush : flushAuction users (assignWinner (R.hash a) row) = some obj := by
      rw [hdata, hassign, flushAuction]
      simp only [Option.all_some, hmem, decide_true, if_true, PyValue.value]
      show Option.map _ (Numeric.ofNumber (.fin (double (h / 100)))) = _
      rw [numeric_cents hat.fits, hobj]
      rfl
    have hsettle : resolveSettlementInner obj =
        if (r / 100 : ℚ) ≤ double (h / 100) then
          some { obj with row := { obj.row with state := .sold } }
        else some { obj with row := { obj.row with state := .unsold, winnerId := none } } := by
      rw [hobj, resolveSettlementInner]
      simp only [hreserve, ne_eq, not_true_eq_false, if_false, PyValue.value, PyFloat.ofNumber,
        Number.round_fin, Numeric.value, reduceCtorEq, or_self, Number.fin_le_fin]
    split_ifs at hsettle ⊢ with hle
    · refine ⟨{ obj.row with state := .sold }, ?_, rfl, by rw [hobj]⟩
      simp only [closeAuction, hflush, hsettle]
    · refine ⟨{ obj.row with state := .unsold, winnerId := none }, ?_, rfl, rfl⟩
      simp only [closeAuction, hflush, hsettle]

/-- The close settles by exact comparison: it sells to the bidder when the top bid reaches the
reserve, and leaves the auction `UNSOLD` otherwise. -/
def ClosedAtReserve (bidder : Uuid) (h r : ℤ) (outcome : CloseOutcome) : Prop :=
  ∃ row, outcome = .changed row ∧
    if r ≤ h then row.state = .sold ∧ row.winnerId = some bidder
    else row.state = .unsold ∧ row.winnerId = none

/-- **When a close keeps to the reserve**: the leader is a user, and the top bid is not the reserve
rounded down. -/
theorem closedAtReserve_iff {users : List Uuid} {a : Uuid} {row : Auction} {R : Redis}
    {bidder : Uuid} {h r : ℤ} (hat : AtReserve row (R.hash a) bidder h r) :
    ClosedAtReserve bidder h r (closeAuction users a row R).2 ↔
      bidder ∈ users ∧ ¬ RoundedDown h r := by
  obtain ⟨hbroken, hchanged⟩ := @closeAuction_leader users a row R bidder h r hat
  by_cases hmem : bidder ∈ users
  · obtain ⟨out, hout, hif⟩ := hchanged hmem
    rw [hout]
    simp only [le_double_cents_iff hat.fits] at hif
    constructor
    · rintro ⟨row', heq, hexact⟩
      cases heq
      refine ⟨hmem, fun hdown => ?_⟩
      -- the bid is the reserve, and the auction is not sold
      rw [if_neg fun hle => hle.2 hdown] at hif
      rw [if_pos hdown.1.ge] at hexact
      have := hif.1.symm.trans hexact.1
      cases this
    · rintro ⟨-, hdown⟩
      refine ⟨out, rfl, ?_⟩
      simpa only [hdown, not_false_eq_true, and_true] using hif
  · rw [hbroken hmem]
    refine iff_of_false ?_ fun h => hmem h.1
    rintro ⟨row', heq, -⟩
    cases heq

/-! ### Runs -/

/-- The camera with a reserve of `19.99`. -/
def reservedRow : Auction := { cameraRow with reservePrice := some (.dec 1999 (by decide)) }

/-- Its hash after a top bid of `h` cents by the bidder `7`. -/
def topBid (h : ℤ) : Redis :=
  Redis.empty.hset 5 fun hash => { initRedisHash reservedRow hash with
    highestBid := some (.dec h), highestBidder := some (some 7) }

theorem atReserve_topBid {h : ℤ} (hh : |h| < 10 ^ 12) :
    AtReserve reservedRow ((topBid h).hash 5) 7 h 1999 where
  reserve := ⟨_, rfl⟩
  leader := ⟨_, Redis.hset_hash_self _ _ _, rfl, rfl⟩
  fits := hh

/-- A top bid of `20.00` sells the camera. -/
theorem closedAtReserve_camera :
    ClosedAtReserve 7 2000 1999 (closeAuction [1, 7] 5 reservedRow (topBid 2000)).2 :=
  (closedAtReserve_iff (atReserve_topBid (by decide))).mpr ⟨by decide, by decide⟩

/-- **A top bid that equals the reserve does not sell**: `19.99` is rounded down. -/
theorem camera_below_reserve :
    AtReserve reservedRow ((topBid 1999).hash 5) 7 1999 1999 ∧
    ((closeAuction [1, 7] 5 reservedRow (topBid 1999)).2 = .changed { reservedRow with
      state := .unsold, highestBid := some (.dec 1999 (by decide)) }) ∧
    ¬ ClosedAtReserve 7 1999 1999 (closeAuction [1, 7] 5 reservedRow (topBid 1999)).2 := by
  have hout : (closeAuction [1, 7] 5 reservedRow (topBid 1999)).2 = .changed { reservedRow with
      state := .unsold, highestBid := some (.dec 1999 (by decide)) } := by decide +kernel
  refine ⟨atReserve_topBid (by decide), hout, ?_⟩
  rintro ⟨row, heq, hexact⟩
  rw [hout] at heq
  cases heq
  rw [if_pos le_rfl] at hexact
  cases hexact.1

end OnlineAuction.Lifecycle
