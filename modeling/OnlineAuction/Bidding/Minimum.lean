import OnlineAuction.Bidding.Script
import OnlineAuction.Foundation.Neighbours
import OnlineAuction.Lifecycle.AuctionService

/-!
# The advertised minimum

The least bid that an auction takes is its price plus its increment. The script adds the two as
binary64 numbers and rounds the sum, so a bid of exactly this minimum is compared with a number that
may lie above it.

## What is proved

* `minBid_lt_iff` — a bid of whole cents other than the minimum falls on the right side of the
  rounded sum; the minimum itself falls below it when the two rounding errors carry the sum past the
  middle between the nearest binary64 number and the next.
* `decides_iff` — when the script decides a bid as exact decimal arithmetic would.
* `dimes_too_low` — it rejects a bid of `0.30` against a price of `0.20` and an increment of `0.10`.
-/

namespace OnlineAuction.Bidding

open OnlineAuction.Foundation OnlineAuction.Store OnlineAuction.Lifecycle

/-! ### The rounded sum -/

/-- The rounded sum of two amounts of whole cents is less than a ten-thousandth off the exact sum. -/
theorem abs_double_add_sub_lt {c m : ℤ} (hc : |c| < 10 ^ 12) (hm : |m| < 10 ^ 12) :
    |double (double (c / 100) + double (m / 100)) - (c + m) / 100| < 1 / 10000 := by
  obtain ⟨c₁, c₂⟩ := abs_lt.mp (abs_double_cents_sub_lt hc)
  obtain ⟨m₁, m₂⟩ := abs_lt.mp (abs_double_cents_sub_lt hm)
  obtain ⟨c₃, c₄⟩ := abs_lt.mp (abs_cents_lt hc)
  obtain ⟨m₃, m₄⟩ := abs_lt.mp (abs_cents_lt hm)
  have hsum : |double (c / 100) + double (m / 100)| < 2 ^ (36 : ℤ) := by
    norm_num at c₃ c₄ m₃ m₄ ⊢
    rw [abs_lt]
    constructor <;> linarith
  have hround : |double (double (c / 100) + double (m / 100)) -
      (double (c / 100) + double (m / 100))| ≤ 2 ^ (36 - 53 : ℤ) / 2 :=
    binary64.abs_round_sub_le_of_lt (by decide) hsum
  norm_num at hround
  obtain ⟨s₁, s₂⟩ := abs_le.mp hround
  rw [abs_lt]
  constructor <;> linarith

/-- The bid is the exact minimum, and the rounding errors carry the sum past it. -/
def RoundedAway (c m b : ℤ) : Prop :=
  b = c + m ∧ binary64.PastMiddle (double (b / 100)) (double (c / 100) + double (m / 100))

instance (c m b : ℤ) : Decidable (RoundedAway c m b) := inferInstanceAs (Decidable (_ ∧ _))

/-- **The rounded comparison**: a bid is below the rounded sum when it is below the exact sum, or is
that sum and rounded away. -/
theorem minBid_lt_iff {c m b : ℤ} (hc : |c| < 10 ^ 12) (hm : |m| < 10 ^ 12) (hb : |b| < 10 ^ 12) :
    double (b / 100) < double (double (c / 100) + double (m / 100)) ↔
      b < c + m ∨ RoundedAway c m b := by
  obtain ⟨s₁, s₂⟩ := abs_lt.mp (abs_double_add_sub_lt hc hm)
  obtain ⟨b₁, b₂⟩ := abs_lt.mp (abs_double_cents_sub_lt hb)
  unfold RoundedAway
  rcases lt_trichotomy b (c + m) with hlt | heq | hgt
  · -- a cent is much more than the errors
    have hcent : (b : ℚ) + 1 ≤ c + m := by exact_mod_cast hlt
    exact iff_of_true (by linarith) (Or.inl hlt)
  · have hkept : binary64.round (double (b / 100)) = double (b / 100) := double.idem _
    rw [show double (double (c / 100) + double (m / 100)) =
      binary64.round (double (c / 100) + double (m / 100)) from rfl, binary64.lt_round_iff hkept]
    exact ⟨fun h => Or.inr ⟨heq, h⟩, fun h => (h.resolve_left (by omega)).2⟩
  · have hcent : (c : ℚ) + m + 1 ≤ b := by exact_mod_cast hgt
    refine iff_of_false (by linarith) ?_
    rintro (h | ⟨h, -⟩) <;> omega

/-! ### The script -/

/-- A fresh bid of `b` cents on an active hash that has not ended, whose price is `c` cents and whose
increment is `m` cents, by a bidder who does not lead. -/
structure Challenge (h : AuctionHash) (argv : Argv) (c m b : ℤ) : Prop where
  /-- The auction is active. -/
  state : h.state = some .active
  /-- It has not ended. -/
  notEnded : ∃ endTs, h.endTs = some endTs ∧ argv.nowTs < endTs
  /-- The price. -/
  price : h.highestBid = some (.dec c)
  /-- The increment. -/
  increment : h.minIncrement = some (.dec m)
  /-- The amount. -/
  amount : argv.amount = .dec b
  /-- The bidder does not lead. -/
  notLeader : h.highestBidder ≠ some (some argv.bidderId)

/-- The script accepts, or answers `BID_TOO_LOW`, by the rounded comparison alone. -/
theorem placeBidLua_of_challenge {a : Uuid} {argv : Argv} {r : Redis} {h : AuctionHash} {c m b : ℤ}
    (httl : 0 < argv.ttl) (hfresh : r.bidResult argv.bidId = none) (hh : r.hash a = some h)
    (hch : Challenge h argv c m b) :
    (placeBidLua double a argv r).2 =
      if double (b / 100) < double (double (c / 100) + double (m / 100)) then
        .ok (.rejected .bidTooLow)
      else .ok (.accepted argv.amount (h.sequenceNum.getD 0 + 1) h.endTs) := by
  obtain ⟨endTs, hend, htime⟩ := hch.notEnded
  have hlt : tonumber double argv.amount < (currentPrice double h.highestBid).add double
      (tonumber double (.dec m)) ↔
        double (b / 100) < double (double (c / 100) + double (m / 100)) := by
    rw [hch.amount, hch.price]
    exact Number.fin_lt_fin
  split_ifs with hlow
  · unfold placeBidLua
    simp only [hfresh, hget_of_hash hh, hch.state, hend, hch.increment]
    rw [if_neg (by simp), if_neg (not_le.mpr htime), if_neg (fun hself => hch.notLeader hself.1),
      if_pos (hlt.mpr hlow), markAndReturn_of_pos httl]
  · have hadm : Admits double h argv := ⟨endTs, .dec m, hch.state, hend, htime, hch.increment,
      fun hself => hch.notLeader hself.1, fun hbelow => hlow (hlt.mp hbelow)⟩
    rw [placeBidLua_of_admits httl hfresh hh hadm]

/-- The script decides as exact arithmetic does: it accepts a bid of price plus increment at least,
and answers `BID_TOO_LOW` to any other. -/
structure Decides (c m b : ℤ) (res : Except LuaError Reply) : Prop where
  /-- When it accepts. -/
  accepts : Reply.isAccepted res = true ↔ c + m ≤ b
  /-- What it answers otherwise. -/
  tooLow : ¬ c + m ≤ b → res = .ok (.rejected .bidTooLow)

/-- **When the script is exact**: unless the bid is the exact minimum and rounded away. -/
theorem decides_iff {a : Uuid} {argv : Argv} {r : Redis} {h : AuctionHash} {c m b : ℤ}
    (httl : 0 < argv.ttl) (hfresh : r.bidResult argv.bidId = none) (hh : r.hash a = some h)
    (hch : Challenge h argv c m b) (hc : |c| < 10 ^ 12) (hm : |m| < 10 ^ 12) (hb : |b| < 10 ^ 12) :
    Decides c m b (placeBidLua double a argv r).2 ↔ ¬ RoundedAway c m b := by
  rw [placeBidLua_of_challenge httl hfresh hh hch]
  have hiff := minBid_lt_iff hc hm hb
  constructor
  · rintro ⟨hacc, -⟩ haway
    rw [if_pos (hiff.mpr (Or.inr haway))] at hacc
    have := hacc.mpr haway.1.ge
    cases this
  · intro haway
    by_cases hlow : b < c + m
    · rw [if_pos (hiff.mpr (Or.inl hlow))]
      refine ⟨iff_of_false (by simp [Reply.isAccepted]) (not_le.mpr hlow), fun _ => rfl⟩
    · rw [if_neg fun h => (hiff.mp h).elim hlow haway]
      exact ⟨iff_of_true rfl (not_lt.mp hlow), fun h => absurd (not_lt.mp hlow) h⟩

/-! ### Runs -/

/-- An auction whose increment is `0.10`, after a bid of `0.20` by `7`. -/
def dimes : Redis :=
  (placeBidLua double 5 ⟨1, 7, .dec 20, 1010, 3600⟩ (Redis.empty.hset 5
    (initRedisHash { cameraRow with minIncrement := .dec 10 (by decide) }))).1

/-- The hash it has then. -/
def dimesHash : AuctionHash :=
  bookBid ⟨1, 7, .dec 20, 1010, 3600⟩
    (initRedisHash { cameraRow with minIncrement := .dec 10 (by decide) } {})

theorem dimes_hash : dimes.hash 5 = some dimesHash := by decide +kernel

/-- A bid of `8` there. -/
def dimesBid (b : ℤ) : Argv := ⟨2, 8, .dec b, 1020, 3600⟩

theorem challenge_dimes (b : ℤ) : Challenge dimesHash (dimesBid b) 20 10 b where
  state := rfl
  notEnded := ⟨1060, by decide +kernel, show (1020 : ℤ) < 1060 by decide⟩
  price := rfl
  increment := by decide +kernel
  amount := rfl
  notLeader := show some (some 7) ≠ some (some 8) by decide

/-- A bid of `0.31` is decided as it should be. -/
theorem decides_dimes : Decides 20 10 31 (placeBidLua double 5 (dimesBid 31) dimes).2 :=
  (decides_iff (by decide) (show dimes.bidResult 2 = none by decide +kernel) dimes_hash
    (challenge_dimes 31) (by decide) (by decide) (by decide)).mpr (by decide +kernel)

/-- **The exact minimum is too low**: `0.20` and `0.10` add up to more than `0.30`. -/
theorem dimes_too_low : Challenge dimesHash (dimesBid 30) 20 10 30 ∧ dimes.hash 5 = some dimesHash ∧
    (placeBidLua double 5 (dimesBid 30) dimes).2 = .ok (.rejected .bidTooLow) ∧
    ¬ Decides 20 10 30 (placeBidLua double 5 (dimesBid 30) dimes).2 := by
  have hres : (placeBidLua double 5 (dimesBid 30) dimes).2 = .ok (.rejected .bidTooLow) := by
    decide +kernel
  refine ⟨challenge_dimes 30, dimes_hash, hres, ?_⟩
  rintro ⟨hacc, -⟩
  rw [hres] at hacc
  cases hacc.mpr (by decide)

end OnlineAuction.Bidding
