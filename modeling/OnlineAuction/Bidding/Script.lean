import OnlineAuction.Store.Records

/-!
# The script `place_bid.lua`

The script that evaluates a bid inside Redis (`redis_client.py`, `register_scripts`). It
runs atomically, so it is a function of the contents of Redis; it is not rolled back
when it fails, so a failing run too returns the contents it leaves. Lua's numbers round
as the parameter `R` says: `double` is the real machine, `Rounding.exact` reads the
two-decimal strings as exact numbers.

## What is proved

* `placeBidLua_cases` — the whole script in one case analysis: it accepts, and then the
  checks passed (`Admissible`) and the hash is exactly `bookBid`, or it leaves every
  hash as it is.
* `placeBidLua_bidResult_of_ne` — it sets the dedup key of its own bid only.
* `placeBidLua_accepts_iff` — it accepts a bid id without a dedup key exactly when the
  hash is there and the checks pass.
-/

namespace OnlineAuction.Bidding

open OnlineAuction.Foundation OnlineAuction.Store

/-- The arguments `ARGV[1]` to `ARGV[5]`. `KEYS[2]` is `bid_result:{bid_id}`. -/
structure Argv where
  /-- `bid_id`. -/
  bidId : Uuid
  /-- `bidder_id`. -/
  bidderId : Uuid
  /-- The amount, with two decimals. -/
  amount : DecStr
  /-- The caller's clock, in seconds. -/
  nowTs : ℤ
  /-- The time to live of the dedup key, in seconds. -/
  ttl : ℤ
  deriving DecidableEq

/-- What a run that ends normally returns. -/
inductive Reply where
  /-- `{1, ARGV[3], seq, HGET end_ts}`: a bid accepted now. -/
  | accepted (price : DecStr) (seq : ℕ) (endTs : Option ℤ)
  /-- `{1, HGET highest_bid, HGET sequence_num}`: a bid accepted before. -/
  | replayed (price : Option DecStr) (seq : Option ℕ)
  /-- `{0, reason}`: a bid rejected, now or before. -/
  | rejected (reason : Reason)
  deriving DecidableEq

/-- How a run fails. -/
inductive LuaError where
  /-- A comparison with a missing field. -/
  | compareNil
  /-- Arithmetic on a missing field. -/
  | arithmeticNil
  /-- `SET ... EX` with a time to live that is not positive. -/
  | invalidExpire
  deriving DecidableEq

/-- `SET KEYS[2] status EX ttl`, then return. -/
def markAndReturn (r : Redis) (argv : Argv) (status : BidStatus) (reply : Reply) :
    Redis × Except LuaError Reply :=
  if 0 < argv.ttl then (r.setResult argv.bidId status, .ok reply) else (r, .error .invalidExpire)

/-- The number the script takes for the current price: `tonumber(... or 0)`. -/
def currentPrice (R : Rounding) (highestBid : Option DecStr) : Number :=
  match highestBid with
  | some s => tonumber R s
  | none => .fin 0

/-- Step 4 of the script: `HSET` of the bid and `HINCRBY` of the sequence number. -/
def bookBid (argv : Argv) (h : AuctionHash) : AuctionHash :=
  { h with highestBid := some argv.amount, highestBidder := some (some argv.bidderId),
           lastBidTs := some argv.nowTs, sequenceNum := some (h.sequenceNum.getD 0 + 1) }

/-- The script. -/
def placeBidLua (R : Rounding) (auctionId : Uuid) (argv : Argv) (r : Redis) :
    Redis × Except LuaError Reply :=
  match r.bidResult argv.bidId with
  -- 0. a bid that was already processed
  | some .accepted =>
    (r, .ok (.replayed (r.hget auctionId (·.highestBid)) (r.hget auctionId (·.sequenceNum))))
  | some (.rejected reason) => (r, .ok (.rejected reason))
  | none =>
    -- 1. state
    if r.hget auctionId (·.state) ≠ some .active then
      markAndReturn r argv (.rejected .auctionNotActive) (.rejected .auctionNotActive)
    else
      -- 2. time
      match r.hget auctionId (·.endTs) with
      | none => (r, .error .compareNil)
      | some endTs =>
        if endTs ≤ argv.nowTs then
          markAndReturn r argv (.rejected .auctionEnded) (.rejected .auctionEnded)
        else
          -- 3. amount
          match r.hget auctionId (·.minIncrement) with
          | none => (r, .error .arithmeticNil)
          | some minIncrement =>
            let current := currentPrice R (r.hget auctionId (·.highestBid))
            let minBid := current.add R (tonumber R minIncrement)
            let amount := tonumber R argv.amount
            if r.hget auctionId (·.highestBidder) = some (some argv.bidderId) ∧ amount ≤ current then
              markAndReturn r argv (.rejected .selfOutbid) (.rejected .selfOutbid)
            else if amount < minBid then
              markAndReturn r argv (.rejected .bidTooLow) (.rejected .bidTooLow)
            else
              -- 4. accept
              let r' := r.hset auctionId (bookBid argv)
              markAndReturn r' argv .accepted (.accepted argv.amount
                ((r'.hget auctionId (·.sequenceNum)).getD 0) (r'.hget auctionId (·.endTs)))

/-- The checks 1 to 3 of the script pass on the hash `h`. -/
structure Admissible (R : Rounding) (h : AuctionHash) (argv : Argv) (endTs : ℤ)
    (minIncrement : DecStr) : Prop where
  /-- The auction is active. -/
  state : h.state = some .active
  /-- The end it has. -/
  hasEnd : h.endTs = some endTs
  /-- It has not ended by the caller's clock. -/
  notEnded : argv.nowTs < endTs
  /-- The increment it has. -/
  hasIncrement : h.minIncrement = some minIncrement
  /-- The bidder does not lead, or offers more. -/
  notSelf : ¬ (h.highestBidder = some (some argv.bidderId) ∧
    tonumber R argv.amount ≤ currentPrice R h.highestBid)
  /-- The amount is not below the price plus the increment. -/
  enough : ¬ tonumber R argv.amount <
    (currentPrice R h.highestBid).add R (tonumber R minIncrement)

/-- The checks pass. -/
def Admits (R : Rounding) (h : AuctionHash) (argv : Argv) : Prop :=
  ∃ endTs minIncrement, Admissible R h argv endTs minIncrement

instance (R : Rounding) (h : AuctionHash) (argv : Argv) : Decidable (Admits R h argv) :=
  decidable_of_iff (h.state = some .active ∧
    ∃ endTs ∈ h.endTs, argv.nowTs < endTs ∧ ∃ minIncrement ∈ h.minIncrement,
      ¬ (h.highestBidder = some (some argv.bidderId) ∧
        tonumber R argv.amount ≤ currentPrice R h.highestBid) ∧
      ¬ tonumber R argv.amount < (currentPrice R h.highestBid).add R (tonumber R minIncrement))
    ⟨fun ⟨h₁, e, h₂, h₃, m, h₄, h₅, h₆⟩ => ⟨e, m, h₁, h₂, h₃, h₄, h₅, h₆⟩,
      fun ⟨e, m, h⟩ => ⟨h.state, e, h.hasEnd, h.notEnded, m, h.hasIncrement, h.notSelf, h.enough⟩⟩

theorem markAndReturn_of_pos {r : Redis} {argv : Argv} (h : 0 < argv.ttl) (status : BidStatus)
    (reply : Reply) :
    markAndReturn r argv status reply = (r.setResult argv.bidId status, .ok reply) := if_pos h

/-- An acceptance: what it found, what it left and what it answered. -/
structure Accepts (R : Rounding) (auctionId : Uuid) (argv : Argv) (r r' : Redis)
    (h : AuctionHash) : Prop where
  /-- The bid id had no dedup key. -/
  fresh : r.bidResult argv.bidId = none
  /-- The hash was there. -/
  hash : r.hash auctionId = some h
  /-- The checks passed. -/
  admits : Admits R h argv
  /-- The bid is booked and the dedup key set. -/
  left : r' = (r.hset auctionId (bookBid argv)).setResult argv.bidId .accepted

/-- A run that does not accept leaves every hash as it is. -/
structure Declines (argv : Argv) (r r' : Redis) (res : Except LuaError Reply) : Prop where
  /-- No hash changes. -/
  hash : r'.hash = r.hash
  /-- The stream and the channels do not change. -/
  rest : r'.stream = r.stream ∧ r'.fanout = r.fanout
  /-- No dedup key of another bid changes. -/
  keys : ∀ b, b ≠ argv.bidId → r'.bidResult b = r.bidResult b
  /-- It did not answer with an acceptance. -/
  reply : ∀ price seq endTs, res ≠ .ok (.accepted price seq endTs)
  /-- A bid without a dedup key is not answered with a replay. -/
  fresh : r.bidResult argv.bidId = none → ∀ price seq, res ≠ .ok (.replayed price seq)

theorem declines_mark {r : Redis} {argv : Argv} {status : BidStatus} {reason : Reason} :
    Declines argv r (markAndReturn r argv status (.rejected reason)).1
      (markAndReturn r argv status (.rejected reason)).2 := by
  unfold markAndReturn
  split_ifs
  · exact ⟨rfl, ⟨rfl, rfl⟩, fun b hb => Function.update_of_ne hb _ _, by simp, by simp⟩
  · exact ⟨rfl, ⟨rfl, rfl⟩, fun _ _ => rfl, by simp, by simp⟩

/-- A run that leaves everything as it is. -/
theorem declines_same {r : Redis} {argv : Argv} {res : Except LuaError Reply}
    (hreply : ∀ price seq endTs, res ≠ .ok (.accepted price seq endTs))
    (hfresh : r.bidResult argv.bidId = none → ∀ price seq, res ≠ .ok (.replayed price seq)) :
    Declines argv r r res := ⟨rfl, ⟨rfl, rfl⟩, fun _ _ => rfl, hreply, hfresh⟩

theorem hget_of_hash {r : Redis} {a : Uuid} {h : AuctionHash} (hr : r.hash a = some h) {α : Type}
    (f : AuctionHash → Option α) : r.hget a f = f h := by rw [Redis.hget, hr]; rfl

/-- **The script, by cases**: with a positive time to live it accepts, answering the
amount and the next sequence number, or it leaves every hash as it is. -/
theorem placeBidLua_cases (R : Rounding) (auctionId : Uuid) {argv : Argv} (r : Redis)
    (httl : 0 < argv.ttl) :
    (∃ h, Accepts R auctionId argv r (placeBidLua R auctionId argv r).1 h ∧
      (placeBidLua R auctionId argv r).2 =
        .ok (.accepted argv.amount (h.sequenceNum.getD 0 + 1) h.endTs)) ∨
    Declines argv r (placeBidLua R auctionId argv r).1 (placeBidLua R auctionId argv r).2 := by
  cases hres : r.bidResult argv.bidId with
  | some status =>
    right
    cases status with
    | accepted => simp only [placeBidLua, hres]; exact declines_same (by simp) (by simp [hres])
    | rejected reason => simp only [placeBidLua, hres]; exact declines_same (by simp) (by simp)
  | none =>
    by_cases hstate : r.hget auctionId (·.state) = some .active
    · obtain ⟨h, hh⟩ : ∃ h, r.hash auctionId = some h := by
        cases hh : r.hash auctionId with
        | none => rw [Redis.hget, hh] at hstate; cases hstate
        | some h => exact ⟨h, rfl⟩
      simp only [placeBidLua, hres, hget_of_hash hh] at hstate ⊢
      rw [if_neg (not_not.mpr hstate)]
      cases hend : h.endTs with
      | none => exact Or.inr (declines_same (by simp) (by simp))
      | some endTs =>
        by_cases htime : endTs ≤ argv.nowTs
        · simp only [if_pos htime]; exact Or.inr declines_mark
        · simp only [if_neg htime]
          cases hinc : h.minIncrement with
          | none => exact Or.inr (declines_same (by simp) (by simp))
          | some minIncrement =>
            simp only
            split_ifs with hself hlow
            · exact Or.inr declines_mark
            · exact Or.inr declines_mark
            · refine Or.inl ⟨h, ⟨hres, hh, ⟨endTs, minIncrement, hstate, hend,
                not_le.mp htime, hinc, hself, hlow⟩, ?_⟩, ?_⟩
              · rw [markAndReturn_of_pos httl]
              · rw [markAndReturn_of_pos httl]
                simp [Redis.hget, hh, bookBid, hend]
    · simp only [placeBidLua, hres, ne_eq, hstate, not_false_eq_true, if_true]
      exact Or.inr declines_mark

/-- **When the script accepts**: the bid id has no dedup key, the hash is there and the
checks pass. -/
theorem placeBidLua_of_admits {R : Rounding} {auctionId : Uuid} {argv : Argv} {r : Redis}
    (httl : 0 < argv.ttl) {h : AuctionHash} (hfresh : r.bidResult argv.bidId = none)
    (hh : r.hash auctionId = some h) (hadm : Admits R h argv) :
    placeBidLua R auctionId argv r = ((r.hset auctionId (bookBid argv)).setResult argv.bidId .accepted,
      .ok (.accepted argv.amount (h.sequenceNum.getD 0 + 1) h.endTs)) := by
  obtain ⟨endTs, minIncrement, hstate, hend, htime, hinc, hself, hlow⟩ := hadm
  unfold placeBidLua
  simp only [hfresh, hget_of_hash hh, hstate, hend, hinc]
  rw [if_neg (by simp), if_neg (not_le.mpr htime), if_neg hself, if_neg hlow,
    markAndReturn_of_pos httl]
  simp [Redis.hget, hh, bookBid, hend]

/-- The script sets the dedup key of its own bid only. -/
theorem placeBidLua_bidResult_of_ne {R : Rounding} {auctionId : Uuid} {argv : Argv} {r : Redis}
    (httl : 0 < argv.ttl) {b : Uuid} (hb : b ≠ argv.bidId) :
    (placeBidLua R auctionId argv r).1.bidResult b = r.bidResult b := by
  rcases placeBidLua_cases R auctionId r httl with ⟨h, hA, -⟩ | hD
  · rw [hA.left]
    exact Function.update_of_ne hb _ _
  · exact hD.keys b hb

/-- Whether the script answers with an acceptance. -/
def Reply.isAccepted : Except LuaError Reply → Bool
  | .ok (.accepted _ _ _) => true
  | _ => false

theorem placeBidLua_accepts_iff {R : Rounding} {auctionId : Uuid} {argv : Argv} {r : Redis}
    (httl : 0 < argv.ttl) (hfresh : r.bidResult argv.bidId = none) :
    Reply.isAccepted (placeBidLua R auctionId argv r).2 = true ↔
      ∃ h, r.hash auctionId = some h ∧ Admits R h argv := by
  constructor
  · intro hacc
    rcases placeBidLua_cases R auctionId r httl with ⟨h, hA, -⟩ | hD
    · exact ⟨h, hA.hash, hA.admits⟩
    · exfalso
      revert hacc
      have hrep := hD.reply
      generalize (placeBidLua R auctionId argv r).2 = res at hrep
      cases res with
      | error e => simp [Reply.isAccepted]
      | ok reply => cases reply <;> simp_all [Reply.isAccepted]
  · rintro ⟨h, hh, hadm⟩
    rw [placeBidLua_of_admits httl hfresh hh hadm]
    rfl

end OnlineAuction.Bidding
