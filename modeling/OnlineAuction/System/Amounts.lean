import OnlineAuction.System.Machine

/-!
# The amounts a hash can hold

A validator `v <= 0` that raises lets a NaN pass, and so does the script's `amount < min_bid`.

## What is proved

* `nan_admits` — a NaN is accepted on every active auction that has not ended.
* `highestBid_inRange` — as long as no such amount, and none above the limit of the column,
  comes to the script of an active auction, every highest bid is a price within the column
  and no other amount is accepted.
-/

namespace OnlineAuction.System

open OnlineAuction.Foundation OnlineAuction.Store OnlineAuction.Lifecycle OnlineAuction.Bidding

/-- `9999999999.99`, in cents. -/
def maxCents : ℤ := 999999999999

/-- A finite number between `0` and `9999999999.99`. -/
def inRange (x : Number) : Bool :=
  match x with
  | .fin q => 0 ≤ q ∧ q ≤ maxCents / 100
  | _ => false

/-- The script finds the hash active and not ended. -/
def openFor (h : AuctionHash) (argv : Argv) : Bool :=
  h.state = some .active ∧ h.endTs.any (argv.nowTs < ·)

/-- The amount is below the price plus the increment, without which the script raises. -/
def belowMinimum (h : AuctionHash) (argv : Argv) : Bool :=
  h.minIncrement.all fun inc =>
    tonumber double argv.amount < (currentPrice double h.highestBid).add double (tonumber double inc)

/-- A step does not run the script of an open auction with an amount that is out of range,
unless the amount is below the minimum. -/
def amountsBounded (s : Sys) (act : Act) : Bool :=
  (scriptRun s act).all fun (c, argv) =>
    (s.redis.hash c.auctionId).all fun h =>
      openFor h argv → inRange c.data.amount.val ∨ belowMinimum h argv

/-- An open hash accepts a NaN. -/
theorem nan_admits {h : AuctionHash} {argv : Argv} (hopen : openFor h argv = true)
    (hinc : h.minIncrement.isSome) (hnan : argv.amount = .nan) : Admits double h argv := by
  obtain ⟨hstate, hend⟩ := of_decide_eq_true hopen
  obtain ⟨endTs, hendTs, hlt⟩ := (Option.any_eq_true _ _).mp hend
  obtain ⟨inc, hinc⟩ := Option.isSome_iff_exists.mp hinc
  refine ⟨endTs, inc, hstate, hendTs, of_decide_eq_true hlt, hinc, ?_, ?_⟩
  · rintro ⟨-, hle⟩
    rw [hnan] at hle
    exact Number.not_nan_le _ hle
  · rw [hnan]
    exact Number.not_nan_lt _

/-- A float in range prints as a price within the column. -/
theorem fixed2_inRange {x : PyFloat} (h : inRange x.val = true) :
    ∃ n, toDecimalStr (some (.float x)) = .dec n ∧ 0 ≤ n ∧ n ≤ maxCents := by
  rw [toDecimalStr_float, fixed2]
  cases hx : x.val with
  | fin q =>
    rw [hx] at h
    obtain ⟨h₀, h₁⟩ := of_decide_eq_true h
    refine ⟨_, rfl, ?_, ?_⟩
    · have := roundEven_mono (q := 0) (r := q * 100) (by positivity)
      have h0 := roundEven_intCast 0
      rw [Int.cast_zero] at h0
      rwa [h0] at this
    · rw [← roundEven_intCast maxCents]
      exact roundEven_mono (by linarith)
  | _ => rw [hx] at h; cases h

/-- An amount that the script of a bounded step accepts is in range. -/
theorem inRange_of_admits {s : Sys} {b : Uuid} {c : Call} {endTs : ℤ} {h : AuctionHash}
    (hok : amountsBounded s (.bidStep b false) = true) (hc : s.bids b = some c)
    (hpc : c.pc = .evalsha endTs) (hh : s.redis.hash c.auctionId = some h)
    (hadm : Admits double h (c.argv b endTs)) : inRange c.data.amount.val = true := by
  obtain ⟨endTs', inc, hstate, hend, htime, hinc, -, hlow⟩ := hadm
  rw [amountsBounded, scriptRun_of_evalsha hc hpc] at hok
  simp only [Option.all_some, hh, decide_eq_true_eq] at hok
  have hopen : openFor h (c.argv b endTs) = true :=
    decide_eq_true ⟨hstate, by rw [hend]; exact decide_eq_true htime⟩
  refine (hok hopen).resolve_right fun hbelow => hlow ?_
  rw [belowMinimum, hinc] at hbelow
  exact of_decide_eq_true hbelow

/-- The hashes hold prices within the column, and only such amounts were accepted. -/
structure AmountsInRange (s : Sys) : Prop where
  /-- The highest bids. -/
  highest : ∀ a h d, s.redis.hash a = some h → h.highestBid = some d →
    ∃ n, d = .dec n ∧ 0 ≤ n ∧ n ≤ maxCents
  /-- The amounts of the requests that were accepted. -/
  accepted : ∀ a, ∀ e ∈ s.accepted a, ∃ c, s.bids e.argv.bidId = some c ∧
    inRange c.data.amount.val = true

theorem amountsInRange_step {s t : Sys} {act : Act} (hs : AmountsInRange s)
    (hstep : step s act = some t) (hok : amountsBounded s act = true) : AmountsInRange t := by
  have hmove := step_cases hstep
  have hkept : ∀ a, ∀ e ∈ s.accepted a, ∃ c, t.bids e.argv.bidId = some c ∧
      inRange c.data.amount.val = true := by
    intro a e he
    obtain ⟨c, hc, hr⟩ := hs.accepted a e he
    obtain ⟨c', hc', hsame⟩ := hmove.call hc
    exact ⟨c', hc', hsame.data ▸ hr⟩
  constructor
  · intro a h d hh hd
    cases hmove.hash a with
    | kept hash log => exact hs.highest a h d (hash ▸ hh) hd
    | opened hact src hash log =>
      rw [hash] at hh
      cases hh
      cases hd
      exact ⟨0, rfl, le_rfl, by decide⟩
    | started hact src hash log =>
      rw [hash] at hh
      cases hh
      cases hd
      exact ⟨0, rfl, le_rfl, by decide⟩
    | booked hact src hpc hauction hfresh hfound hadmits hash log =>
      subst hauction
      rw [hash] at hh
      cases hh
      cases hd
      exact fixed2_inRange (inRange_of_admits (hact ▸ hok) src hpc hfound hadmits)
    | closed hact src hpc htodo hash log =>
      rw [hash] at hh
      cases hh
      cases hold : s.redis.hash a with
      | none => rw [hold] at hd; cases hd
      | some h => rw [hold] at hd; exact hs.highest a h d hold hd
    | lost hact hash log => rw [hash] at hh; cases hh
  · intro a e he
    cases hmove.hash a with
    | booked hact src hpc hauction hfresh hfound hadmits hash log =>
      subst hauction
      rw [log] at he
      rcases List.mem_append.mp he with he | he
      · exact hkept _ e he
      · obtain ⟨c', hc', hsame⟩ := hmove.call src
        rw [List.mem_singleton.mp he]
        refine ⟨c', hc', ?_⟩
        rw [hsame.data]
        exact inRange_of_admits (hact ▸ hok) src hpc hfound hadmits
    | kept hash log => exact hkept a e (log ▸ he)
    | opened hact src hash log => exact hkept a e (log ▸ he)
    | started hact src hash log => exact hkept a e (log ▸ he)
    | closed hact src hpc htodo hash log => exact hkept a e (log ▸ he)
    | lost hact hash log => exact hkept a e (log ▸ he)

/-- **Prices stay within the column** in every run whose steps are bounded. -/
theorem highestBid_inRange {now : ℤ} {users : List Uuid} {s : Sys}
    (hrun : Reach step (fun s act _ => amountsBounded s act = true) (.initial now users) s) :
    AmountsInRange s :=
  hrun.invariant (fun hs hstep hok => amountsInRange_step hs hstep hok)
    ⟨(fun _ _ _ hh => by cases hh), by simp [Sys.initial]⟩

/-! ### A run -/

/-- The camera is created for the seller `1`, and a bid of `7` is evaluated. -/
def cameraBid (amount : PyFloat) : List Act :=
  [.create 5 1 camera, .createStep 5 false, .createStep 5 false,
    .bid 100 5 7 { amount := amount }, .bidStep 100 false, .bidStep 100 false, .bidStep 100 false]

theorem highestBid_inRange_camera : ∃ s : Sys,
    s.redis.hget 5 (·.highestBid) = some (.dec 2500) ∧ AmountsInRange s := by
  obtain ⟨s, hs, hbid⟩ := exists_reach step
    (fun s act _ => amountsBounded s act = true) (cameraBid (.ofNumber (.fin 25)))
    (s := .initial 1000000000 [1, 7])
    (p := fun s => s.redis.hget 5 (·.highestBid) = some (.dec 2500)) (by decide +kernel)
  exact ⟨s, of_decide_eq_true hbid, highestBid_inRange hs⟩

/-- **A NaN is accepted**, and then it is the highest bid of the camera. -/
theorem camera_accepts_nan : (BidRequest.mk (.ofNumber .nan) false none).amountPositive ∧
    ∃ s, Reachable 1000000000 [1, 7] s ∧
      s.redis.hget 5 (·.highestBid) = some .nan ∧
      (s.accepted 5).map (·.argv.amount) = [.nan] ∧ ¬ AmountsInRange s := by
  refine ⟨by decide +kernel, ?_⟩
  obtain ⟨s, hs, hp⟩ := exists_reach step (fun _ _ _ => True)
    (cameraBid (.ofNumber .nan)) (s := .initial 1000000000 [1, 7])
    (p := fun s => s.redis.hget 5 (·.highestBid) = some .nan ∧
      (s.accepted 5).map (·.argv.amount) = [.nan]) (by decide +kernel)
  obtain ⟨hbid, hacc⟩ := of_decide_eq_true hp
  refine ⟨s, hs, hbid, hacc, ?_⟩
  intro hrange
  obtain ⟨h, hh, hd⟩ := Option.bind_eq_some_iff.mp hbid
  obtain ⟨n, hn, -⟩ := hrange.highest 5 h _ hh hd
  cases hn

end OnlineAuction.System
