import OnlineAuction.System.Deadline

/-!
# The end in whole seconds

The end of an auction and the clock of a bid are cut to whole seconds, each for itself, before the
script compares them. So an auction takes bids until the whole second of its end begins, and not
until the end itself; the time that is left is counted in the same seconds.

## What is proved

* `placeBidLua_ended_iff` — of an active auction, a new bid is rejected with `AUCTION_ENDED` exactly
  when it fails the time check.
* `seconds_deadline` — in every reachable state the time check passes exactly before the second of
  the end, so before every whole second up to the end, and exactly when time is left.
* `camera_ended_early` — an auction that ends half a second after a whole one rejects a bid before
  its end.

## Honest scope

A timestamp is a binary64 number: after the second `2 ^ 34`, in the year 2514, it may round the last
microsecond of a second up, and before 1970 `int` rounds it up.
-/

namespace OnlineAuction.System

open OnlineAuction.Foundation OnlineAuction.Store OnlineAuction.Lifecycle OnlineAuction.Bidding

/-- The time check of the script. -/
def PassesTime (h : AuctionHash) (nowTs : ℤ) : Prop := ∃ endTs ∈ h.endTs, nowTs < endTs

instance (h : AuctionHash) (nowTs : ℤ) : Decidable (PassesTime h nowTs) :=
  inferInstanceAs (Decidable (∃ endTs ∈ h.endTs, nowTs < endTs))

/-- **Rejected as ended**: a new bid on an active auction that has an end. -/
theorem placeBidLua_ended_iff {a : Uuid} {argv : Argv} {r : Redis} {h : AuctionHash}
    (httl : 0 < argv.ttl) (hfresh : r.bidResult argv.bidId = none) (hh : r.hash a = some h)
    (hstate : h.state = some .active) (hend : h.endTs ≠ none) :
    (placeBidLua double a argv r).2 = .ok (.rejected .auctionEnded) ↔ ¬ PassesTime h argv.nowTs := by
  obtain ⟨endTs, hend⟩ := Option.ne_none_iff_exists'.mp hend
  have hpass : PassesTime h argv.nowTs ↔ argv.nowTs < endTs := by simp [PassesTime, hend]
  rw [hpass, not_lt]
  simp only [placeBidLua, hfresh, hget_of_hash hh, hstate, hend]
  rw [if_neg (by simp)]
  constructor
  · intro hended
    by_contra htime
    rw [if_neg htime] at hended
    cases hinc : h.minIncrement with
    | none =>
      rw [hinc] at hended
      cases hended
    | some minIncrement =>
      simp only [hinc, markAndReturn_of_pos httl] at hended
      split_ifs at hended <;> cases hended
  · intro htime
    rw [if_pos htime, markAndReturn_of_pos httl]

/-- A whole second is kept. -/
theorem unixSeconds_whole {n : ℤ} (hn : |n| ≤ 2 ^ 52) : unixSeconds (n * 1000000) = n := by
  have hdiv : ((n * 1000000 : ℤ) : ℚ) / 1000000 = n := by
    push_cast
    exact mul_div_cancel_right₀ _ (by norm_num)
  have hkept : double (n : ℚ) = n := binary64.round_intCast (by decide) hn
  rw [unixSeconds, hdiv, hkept, truncate]
  split_ifs
  · exact Int.floor_intCast n
  · exact Int.ceil_intCast n

/-- Before a whole second the clock shows an earlier one. -/
theorem unixSeconds_lt_of_lt {t n : ℤ} (h₀ : 0 ≤ t) (ht : t < n * 1000000) (hn : n ≤ 2 ^ 34) :
    unixSeconds t < unixSeconds (n * 1000000) := by
  have hpos : 0 < n := by omega
  rw [unixSeconds_whole (by rw [abs_of_pos hpos]; omega), unixSeconds_eq_floor h₀ (by omega),
    Int.floor_lt, div_lt_iff₀ (by norm_num)]
  exact_mod_cast ht

/-- **The deadline of an active auction**, for bids taken and run at the instant `t`: a new bid is
rejected with `AUCTION_ENDED` exactly when it fails the time check; the check passes exactly before
the second of the end, so before every whole second up to the end; and it passes exactly when the
detail view shows that time is left. -/
theorem seconds_deadline {now : ℤ} {users : List Uuid} {s : Sys} (hs : Reachable now users s)
    {a : Uuid} {row : Auction} {h : AuctionHash} (hrow : Listed s a row)
    (hh : s.redis.hash a = some h) (hstate : h.state = some .active) (t : ℤ) :
    (∀ (b : Uuid) (c : Call) (endTs : ℤ), c.nowTs = t → s.redis.bidResult b = none →
      ((placeBidLua double a (c.argv b endTs) s.redis).2 = .ok (.rejected .auctionEnded) ↔
        ¬ PassesTime h (unixSeconds t))) ∧
    (PassesTime h (unixSeconds t) ↔ unixSeconds t < unixSeconds row.endTs) ∧
    (∀ n, n ≤ 2 ^ 34 → n * 1000000 ≤ row.endTs → 0 ≤ t → t < n * 1000000 →
      PassesTime h (unixSeconds t)) ∧
    ∀ detail, getAuctionDetail s.pg s.redis a t = some detail →
      (0 < detail.timeRemainingSeconds ↔ PassesTime h (unixSeconds t)) := by
  have hend := endTs_of_active hs hrow hh hstate
  have hpass : PassesTime h (unixSeconds t) ↔ unixSeconds t < unixSeconds row.endTs := by
    simp [PassesTime, hend]
  refine ⟨?_, hpass, ?_, ?_⟩
  · rintro b c endTs rfl hfresh
    have httl : 0 < (c.argv b endTs).ttl := ttl_pos _ _
    exact placeBidLua_ended_iff httl hfresh hh hstate (by simp [hend])
  · intro n hn hle h₀ hlt
    rw [hpass]
    exact (unixSeconds_lt_of_lt h₀ hlt hn).trans_le (unixSeconds_mono hle)
  · intro detail hdetail
    obtain ⟨row', -, rfl⟩ := Option.map_eq_some_iff.mp hdetail
    rw [hpass]
    simp only [hh, hend, Option.getD_some, readSeconds_unixSeconds]
    omega

/-! ### Runs -/

/-- A camera whose auction ends half a second after a whole one. -/
def halfSecondCamera : AuctionCreate := { camera with endTs := ⟨1060500000, true⟩ }

/-- It is created, and a bid is made at the given instant and waits for its script. -/
def bidAt (micros : ℕ) : List Act :=
  [.create 5 1 halfSecondCamera, .createStep 5 false, .createStep 5 false, .tick micros,
    .bid 100 5 7 { amount := .ofNumber (.fin 25) }, .bidStep 100 false, .bidStep 100 false]

/-- A bid a second and a half before the end passes the time check. -/
theorem seconds_deadline_camera : ∃ s : Sys, ∃ row h, Reachable 1000000000 [1, 7] s ∧
    s.now = 1059000000 ∧ Listed s 5 row ∧ row.endTs = 1060500000 ∧
    PassesTime h (unixSeconds 1059000000) := by
  obtain ⟨s, hs, hp⟩ := exists_reach step (fun _ _ _ => True) (bidAt 59000000)
    (s := .initial 1000000000 [1, 7])
    (p := fun s => s.now = 1059000000 ∧ (s.pg.auction 5).any fun row => row.endTs = 1060500000 ∧
      (s.redis.hash 5).any fun h => h.state = some .active) (by decide +kernel)
  obtain ⟨hnow, hp⟩ := of_decide_eq_true hp
  obtain ⟨row, hrow, hp⟩ := (Option.any_eq_true _ _).mp hp
  obtain ⟨hend, hp⟩ := of_decide_eq_true hp
  obtain ⟨h, hh, hp⟩ := (Option.any_eq_true _ _).mp hp
  have hstate := of_decide_eq_true hp
  refine ⟨s, row, h, hs, hnow, Or.inl hrow, hend, ?_⟩
  rw [(seconds_deadline hs (Or.inl hrow) hh hstate 1059000000).2.1, hend]
  decide +kernel

/-- **Ended before the end**: a bid taken and run 0.3 seconds before the end is rejected with
`AUCTION_ENDED`. -/
theorem camera_ended_early : ∃ s : Sys, ∃ row h c endTs,
    Reach step (fun _ act _ => act.faultless = true) (.initial 1000000000 [1, 7]) s ∧
    s.pg.auction 5 = some row ∧ s.redis.hash 5 = some h ∧ h.state = some .active ∧
    s.bids 100 = some c ∧ c.auctionId = 5 ∧ c.pc = .evalsha endTs ∧ c.nowTs = s.now ∧
    row.startTs ≤ s.now ∧ s.now < row.endTs ∧
    (placeBidLua double 5 (c.argv 100 endTs) s.redis).2 = .ok (.rejected .auctionEnded) := by
  obtain ⟨s, hs, hp⟩ := exists_reach step (fun _ act _ => act.faultless = true) (bidAt 60200000)
    (s := .initial 1000000000 [1, 7])
    (p := fun s => (s.pg.auction 5).any fun row => row.startTs ≤ s.now ∧ s.now < row.endTs ∧
      (s.redis.hash 5).any fun h => h.state = some .active ∧
      (s.bids 100).any fun c => c.auctionId = 5 ∧ c.pc = .evalsha 1060500000 ∧ c.nowTs = s.now ∧
        (placeBidLua double 5 (c.argv 100 1060500000) s.redis).2 =
          .ok (.rejected .auctionEnded)) (by decide +kernel)
  obtain ⟨row, hrow, hp⟩ := (Option.any_eq_true _ _).mp hp
  obtain ⟨hstart, hbefore, hp⟩ := of_decide_eq_true hp
  obtain ⟨h, hh, hp⟩ := (Option.any_eq_true _ _).mp hp
  obtain ⟨hstate, hp⟩ := of_decide_eq_true hp
  obtain ⟨c, hc, hp⟩ := (Option.any_eq_true _ _).mp hp
  obtain ⟨hauction, hpc, hnow, hended⟩ := of_decide_eq_true hp
  exact ⟨s, row, h, c, _, hs, hrow, hh, hstate, hc, hauction, hpc, hnow, hstart, hbefore, hended⟩

end OnlineAuction.System
