import OnlineAuction.Bidding.ScriptRuns

/-!
# Which prices an auction lets through

The script is given amounts and an increment that were rounded twice, to a float and to
two decimals, and it never sees the starting price. This module follows these values from
the request of an auction and the requests of its bids into the script, with the rounding
of the real machine, and settles what the accepted amounts have in common.

## What is proved

* `increment_le_of_admissible` — an accepted amount is never below the increment, and
  `add_le_of_admissible` — nor, within the range of the column, below price plus increment.
* `startingPrice_floor_iff` — the accepted amounts of every run without a NaN stay at or
  above the starting price exactly when it is `0.00` or not above the increment; a NaN is
  accepted.
* `answered_rise_iff` — the amounts of the bids that can be stored are positive and
  strictly increasing in every run exactly when the increment asked for is at least half
  a cent.
-/

namespace OnlineAuction.Bidding

open OnlineAuction.Foundation OnlineAuction.Store OnlineAuction.Lifecycle

/-! ### Amounts -/

/-- The bid of an action, if it is one, is a float that `amount_positive` lets through and
`P` holds of, printed with two decimals; its dedup key gets a positive time to live. -/
def BidWith (P : PyFloat → Prop) : ScriptAct → Prop
  | .run argv => 0 < argv.ttl ∧
    ∃ x, notAtMostZero x ∧ P x ∧ argv.amount = toDecimalStr (some (.float x))
  | _ => True

theorem BidWith.ttl_pos {P : PyFloat → Prop} {a : ScriptAct} (h : BidWith P a) {argv : Argv}
    (hact : a = .run argv) : 0 < argv.ttl := by
  subst hact
  exact h.1

/-- A string that is a price: infinite, or not negative. -/
def Price (s : DecStr) : Prop := s = .posInf ∨ ∃ c, 0 ≤ c ∧ s = .dec c

theorem Price.le_refl {s : DecStr} (h : Price s) : s.value ≤ s.value := by
  rcases h with rfl | ⟨c, hc, rfl⟩
  · rfl
  · exact Number.fin_le_fin.mpr le_rfl

/-- A positive float prints as a price. -/
theorem price_fixed2 {x : PyFloat} (hpos : notAtMostZero x) (hnan : x.val ≠ .nan) :
    Price (fixed2 x) := by
  unfold notAtMostZero at hpos
  unfold fixed2
  cases hx : x.val with
  | nan => exact absurd hx hnan
  | negInf => rw [hx] at hpos; exact absurd rfl hpos
  | posInf => exact Or.inl rfl
  | fin q =>
    rw [hx, Number.fin_le_fin, not_le] at hpos
    refine Or.inr ⟨_, ?_, rfl⟩
    have h := roundEven_mono (q := 0) (r := q * 100) (by positivity)
    have h0 := roundEven_intCast 0
    rw [Int.cast_zero] at h0
    rwa [h0] at h

/-- **The increment is a floor**: an accepted price is infinite or not below it. -/
theorem increment_le_of_admissible {h : AuctionHash} {argv : Argv} {endTs : ℤ} {m : ℤ} {b : DecStr}
    (hadm : Admissible double h argv endTs (.dec m)) (hb : h.highestBid = some b) (hbp : Price b)
    (hm : m < 10 ^ 12) {c : ℤ} (hc : argv.amount = .dec c) (hc₀ : 0 ≤ c) : m ≤ c := by
  have hlow := hadm.enough
  rw [hc, hb, currentPrice] at hlow
  rcases hbp with rfl | ⟨c₀, hc₀', rfl⟩
  · exact absurd rfl hlow
  · simp only [tonumber_dec, Number.add_fin, Number.fin_lt_fin, not_lt] at hlow
    by_contra hlt
    have h₁ : double (c / 100) < double (m / 100) := round_cents_lt hc₀ (not_le.mp hlt) hm.le
    have hpos : 0 ≤ double (c₀ / 100) := double.nonneg (by positivity)
    have h₂ : double (double (m / 100)) ≤ double (double (c₀ / 100) + double (m / 100)) :=
      double.mono (by linarith)
    rw [double.idem] at h₂
    linarith

/-- **Price plus increment is a floor**: below the limit of the column, an accepted amount
is at least the exact sum. -/
theorem add_le_of_admissible {h : AuctionHash} {argv : Argv} {endTs : ℤ} {m c₀ c : ℤ}
    (hadm : Admissible double h argv endTs (.dec m)) (hb : h.highestBid = some (.dec c₀))
    (hc₀ : 0 ≤ c₀) (hm : 0 ≤ m) (hm' : m < 10 ^ 12) (hc : argv.amount = .dec c) (hcpos : 0 ≤ c)
    (hc' : c < 10 ^ 12) : c₀ + m ≤ c := by
  have hlow := hadm.enough
  rw [hc, hb, currentPrice] at hlow
  simp only [tonumber_dec, Number.add_fin, Number.fin_lt_fin, not_lt] at hlow
  have hc₀' : c₀ < 10 ^ 12 := by
    by_contra hge
    have h₁ : double (c / 100) < double ((10 ^ 12 : ℤ) / 100) := by
      exact_mod_cast round_cents_lt hcpos hc' le_rfl
    have hge' : ((10 ^ 12 : ℤ) : ℚ) ≤ c₀ := by exact_mod_cast not_lt.mp hge
    have h₂ : double ((10 ^ 12 : ℤ) / 100) ≤ double (c₀ / 100) :=
      double.mono (div_le_div_of_nonneg_right hge' (by norm_num))
    have hpos : 0 ≤ double (m / 100) := double.nonneg (by positivity)
    have h₃ : double (double (c₀ / 100)) ≤ double (double (c₀ / 100) + double (m / 100)) :=
      double.mono (by linarith)
    rw [double.idem] at h₃
    linarith
  exact cents_add_le hc₀ hc₀' hm hm' hcpos hlow

/-- **The price does not fall**, unless the increment is a NaN: an accepted price is not below
the one before, as Lua's numbers go. -/
theorem current_le_of_admissible {h : AuctionHash} {argv : Argv} {endTs : ℤ} {inc b : DecStr}
    (hadm : Admissible double h argv endTs inc) (hb : h.highestBid = some b) (hbp : Price b)
    (hap : Price argv.amount) (hinc : ∃ m, 0 ≤ m ∧ inc = .dec m) :
    tonumber double b ≤ tonumber double argv.amount := by
  obtain ⟨m, hm, rfl⟩ := hinc
  have hlow := hadm.enough
  rw [hb, currentPrice] at hlow
  rcases hbp with rfl | ⟨c₀, hc₀, rfl⟩ <;> rcases hap with ha | ⟨c, hc, ha⟩ <;> rw [ha] at hlow ⊢
  · rfl
  · exact absurd rfl hlow
  · rfl
  · simp only [tonumber_dec, Number.add_fin, Number.fin_lt_fin, not_lt, Number.fin_le_fin] at hlow ⊢
    have hpos : 0 ≤ double (m / 100) := double.nonneg (by positivity)
    have hsum : double (double (c₀ / 100)) ≤ double (double (c₀ / 100) + double (m / 100)) :=
      double.mono (by linarith)
    rw [double.idem] at hsum
    exact hsum.trans hlow

/-! ### One bid on a new auction -/

/-- The arguments of a bid one second before the end of `row`. -/
def lastSecond (bidId bidder : Uuid) (amount : PyFloat) (row : Auction) : Argv :=
  ⟨bidId, bidder, toDecimalStr (some (.float amount)), unixSeconds row.endTs - 1, 3600⟩

/-- A first bid that is not below the increment is accepted. -/
theorem reach_first_bid (P : PyFloat → Prop) (auctionId bidder : Uuid) {bidId : Uuid}
    {row : Auction} {x : PyFloat} {r : Redis} (hfree : r.bidResult bidId = none)
    (hpos : notAtMostZero x) (hP : P x)
    (hlow : ¬ tonumber double (fixed2 x) < (Number.fin 0).add double
      (tonumber double (toDecimalStr (some (.decimal row.minIncrement))))) :
    ∃ s, Reach (scriptStep double auctionId) (fun _ a _ => BidWith P a) (.init r auctionId row) s ∧
      s.accepted.map (·.argv.amount) = [fixed2 x] := by
  have hadm : Admits double (initRedisHash row ((r.hash auctionId).getD {}))
      (lastSecond bidId bidder x row) := by
    refine ⟨unixSeconds row.endTs, _, rfl, rfl, by simp [lastSecond], rfl, ?_, ?_⟩
    · rintro ⟨hlead, -⟩
      cases hlead
    · rw [lastSecond, toDecimalStr_float]
      simpa [initRedisHash, currentPrice, double.zero] using hlow
  have hrun := placeBidLua_of_admits (r := r.hset auctionId (initRedisHash row))
    (show 0 < (lastSecond bidId bidder x row).ttl by norm_num [lastSecond]) hfree
    (Redis.hset_hash_self _ _ _) hadm
  refine ⟨_, Relation.ReflTransGen.single ⟨.run (lastSecond bidId bidder x row), rfl, ?_⟩, ?_⟩
  · exact ⟨by norm_num [lastSecond], x, hpos, hP, rfl⟩
  · simp only [ScriptState.init, hrun, logReply]
    simp [lastSecond]

/-- A tenth of a cent. -/
def tenthOfACent : PyFloat := .ofNumber (.fin (1 / 1000))

theorem tenthOfACent_positive : notAtMostZero tenthOfACent := by decide +kernel

theorem fixed2_tenthOfACent : fixed2 tenthOfACent = .dec 0 := by decide +kernel

/-- The least bid an auction accepts: its increment, or `0.00` when that is a NaN. -/
theorem exists_opening {row : Auction} (hinc : Numeric.NonNeg row.minIncrement) :
    ∃ x c, notAtMostZero x ∧ (∃ q, x.val = .fin q) ∧ fixed2 x = .dec c ∧
      (row.minIncrement.value = .fin (c / 100) ∨ row.minIncrement = .nan ∧ c = 0) ∧
      ¬ tonumber double (fixed2 x) < (Number.fin 0).add double
        (tonumber double (toDecimalStr (some (.decimal row.minIncrement)))) := by
  cases hm : row.minIncrement with
  | nan =>
    refine ⟨tenthOfACent, 0, tenthOfACent_positive, ⟨_, rfl⟩, fixed2_tenthOfACent,
      Or.inr ⟨rfl, rfl⟩, ?_⟩
    exact Number.not_lt_nan _
  | dec m hfits =>
    have hm₀ : 0 ≤ m := hinc m hfits hm
    rw [toDecimalStr_cents]
    rcases hm₀.eq_or_lt with rfl | hpos
    · refine ⟨tenthOfACent, 0, tenthOfACent_positive, ⟨_, rfl⟩, fixed2_tenthOfACent, Or.inl rfl, ?_⟩
      rw [fixed2_tenthOfACent]
      simp [double.zero]
    · have hprint : fixed2 (.ofNumber (.fin (m / 100))) = .dec m :=
        fixed2_cents hfits
      have hval : (0 : ℚ) < double (m / 100) := by
        have h := round_cents_lt le_rfl hpos (abs_lt.mp hfits).2.le
        rwa [Int.cast_zero, zero_div, double.zero] at h
      refine ⟨.ofNumber (.fin (m / 100)), m, ?_, ⟨_, rfl⟩, hprint, Or.inl rfl, ?_⟩
      · show ¬ Number.fin (double (m / 100)) ≤ .fin 0
        rw [Number.fin_le_fin, not_le]
        exact hval
      · rw [hprint]
        simp [double.idem]

/-! ### The starting price -/

/-- The hash has the increment `inc` and a price, and every amount accepted is at least
`floor`. -/
structure FloorState (auctionId : Uuid) (inc : DecStr) (floor : Number) (s : ScriptState) : Prop where
  /-- The hash. -/
  hash : ∃ h, s.redis.hash auctionId = some h ∧ h.minIncrement = some inc ∧
    ∃ b, h.highestBid = some b ∧ Price b
  /-- The floor. -/
  atLeast : ∀ e ∈ s.accepted, floor ≤ e.argv.amount.value

theorem floorState_step {auctionId : Uuid} {inc : DecStr} {floor : Number} {s t : ScriptState}
    {a : ScriptAct}
    (hfloor : ∀ {h argv endTs b}, Admissible double h argv endTs inc → h.highestBid = some b →
      Price b → Price argv.amount → floor ≤ argv.amount.value)
    (hs : FloorState auctionId inc floor s) (hstep : scriptStep double auctionId s a = some t)
    (hok : BidWith (fun x => x.val ≠ .nan) a) : FloorState auctionId inc floor t := by
  obtain ⟨⟨h, hh, hinc, b, hb, hbp⟩, hall⟩ := hs
  cases scriptStep_cases hh (fun _ => hok.ttl_pos) hstep with
  | @booked argv hact hadm hash log =>
    subst hact
    obtain ⟨-, x, hpos, hnan, hx⟩ := hok
    rw [toDecimalStr_float] at hx
    have hprice : Price argv.amount := hx ▸ price_fixed2 hpos hnan
    obtain ⟨endTs, inc', hadm⟩ := hadm
    obtain rfl := Option.some.inj (hinc.symm.trans hadm.hasIncrement)
    refine ⟨⟨_, hash, hinc, argv.amount, rfl, hprice⟩, ?_⟩
    intro e he
    rw [log] at he
    rcases List.mem_append.mp he with he | he
    · exact hall e he
    · rw [List.mem_singleton.mp he]
      exact hfloor hadm hb hbp hprice
  | kept hash log => exact ⟨⟨h, hash, hinc, b, hb, hbp⟩, log ▸ hall⟩
  | closed hash log => exact ⟨⟨_, hash, hinc, b, hb, hbp⟩, log ▸ hall⟩

/-- A price is not below zero. -/
theorem Price.nonneg {s : DecStr} (h : Price s) : Number.fin 0 ≤ s.value := by
  rcases h with rfl | ⟨c, hc, rfl⟩
  · rfl
  · rw [DecStr.value, Number.fin_le_fin]
    positivity

/-- What is stored of an auction decides whether its starting price is a floor for bids that are
no NaN. -/
theorem floor_iff {row : Auction} (hnew : NewRow row) (auctionId : Uuid) {r : Redis} {bidId : Uuid}
    (hfree : r.bidResult bidId = none) :
    (∀ s, Reach (scriptStep double auctionId) (fun _ a _ => BidWith (fun x => x.val ≠ .nan) a)
        (.init r auctionId row) s → ∀ e ∈ s.accepted, row.startingPrice.value ≤ e.argv.amount.value) ↔
      row.startingPrice.value = .fin 0 ∨ row.startingPrice.value ≤ row.minIncrement.value := by
  constructor
  · intro hruns
    obtain ⟨x, c, hpos, ⟨q, hq⟩, hprint, hmin, hlow⟩ := exists_opening hnew.increment
    obtain ⟨s, hs, hacc⟩ := reach_first_bid (fun x => x.val ≠ .nan) auctionId 0 hfree hpos
      (by simp [hq]) hlow
    obtain ⟨e, he, hamount⟩ : ∃ e ∈ s.accepted, e.argv.amount = .dec c := by
      have hmem : DecStr.dec c ∈ s.accepted.map (·.argv.amount) := by rw [hacc, hprint]; simp
      simpa using hmem
    have hle := hruns s hs e he
    rw [hamount, DecStr.value] at hle
    rcases hmin with hmin | ⟨-, rfl⟩
    · exact Or.inr (hmin ▸ hle)
    · cases hsp : row.startingPrice with
      | nan => rw [hsp] at hle; exact absurd hle (Number.not_nan_le _)
      | dec p hp =>
        left
        have hp₀ := hnew.starting p hp hsp
        rw [hsp, Numeric.value, Number.fin_le_fin, Int.cast_zero, zero_div] at hle
        have : (p : ℚ) / 100 = 0 := le_antisymm hle (by positivity)
        rw [Numeric.value, this]
  · intro hcond s hs
    refine (hs.invariant (I := FloorState auctionId _ row.startingPrice.value)
      (fun hI hstep hok => floorState_step ?_ hI hstep hok)
      ⟨⟨_, Redis.hset_hash_self _ _ _, rfl, .dec 0, rfl, Or.inr ⟨0, le_rfl, rfl⟩⟩, by
        simp [ScriptState.init]⟩).atLeast
    intro h argv endTs b hadm hb hbp hprice
    rcases hcond with hzero | hle
    · rw [hzero]
      exact hprice.nonneg
    · cases hsp : row.startingPrice with
      | nan => rw [hsp] at hle; exact absurd hle (Number.not_nan_le _)
      | dec p hp =>
        cases hmi : row.minIncrement with
        | nan => rw [hmi] at hle; exact absurd hle (Number.not_le_nan _)
        | dec m hm =>
          have hm₀ := hnew.increment m hm hmi
          rw [hmi, toDecimalStr_cents] at hadm
          rcases hprice with hinf | ⟨c, hc₀, hc⟩
          · rw [hinf]; rfl
          · have hmc := increment_le_of_admissible hadm hb hbp (abs_lt.mp hm).2 hc hc₀
            rw [hsp, hmi, Numeric.value, Numeric.value, Number.fin_le_fin] at hle
            rw [hc, Numeric.value, DecStr.value, Number.fin_le_fin]
            have : (m : ℚ) ≤ c := by exact_mod_cast hmc
            linarith

/-- A new auction accepts a NaN. -/
theorem exists_nan_accepted (row : Auction) (auctionId : Uuid) {r : Redis} {bidId : Uuid}
    (hfree : r.bidResult bidId = none) :
    ∃ s, Reach (scriptStep double auctionId) (fun _ a _ => BidWith (fun x => x.val = .nan) a)
      (.init r auctionId row) s ∧ s.accepted.map (·.argv.amount) = [.nan] :=
  reach_first_bid (fun x => x.val = .nan) auctionId 0 (x := .ofNumber .nan) hfree
    (Number.not_nan_le _) rfl (Number.not_nan_lt _)

/-! ### The increment -/

/-- The amount of a bid whose row fits its column, in cents. -/
def storedCents (e : Accept) : Option ℤ :=
  match e.argv.amount with
  | .dec c => if |c| < 10 ^ 12 then some c else none
  | _ => none

/-- The amounts of the accepted bids that can be stored, in the order of their sequence
numbers: the bids that `place_bid` answers as accepted. -/
def answered (acc : List Accept) : List ℤ := acc.filterMap storedCents

/-- The hash has the increment `m` and the last amount of the history, and no amount that
fits the column is preceded by one that is not below it. -/
structure RisingState (auctionId : Uuid) (m : ℤ) (cents : List ℤ) (s : ScriptState) : Prop where
  /-- The hash. -/
  hash : ∃ h, s.redis.hash auctionId = some h ∧ h.minIncrement = some (.dec m) ∧
    h.highestBid = some (.dec (cents.getLastD 0))
  /-- The amounts of the history, in cents. -/
  amounts : s.accepted.map (·.argv.amount) = cents.map .dec
  /-- No amount is negative. -/
  nonneg : ∀ c ∈ cents, 0 ≤ c
  /-- The amounts rise. -/
  rises : (0 :: cents).Pairwise fun a b => b < 10 ^ 12 → a < b

theorem RisingState.answered {auctionId : Uuid} {m : ℤ} {cents : List ℤ} {s : ScriptState}
    (hs : RisingState auctionId m cents s) : (0 :: answered s.accepted).Pairwise (· < ·) := by
  have hstored : Bidding.answered s.accepted = cents.filter (· < 10 ^ 12) := by
    have h : Bidding.answered s.accepted = (s.accepted.map (·.argv.amount)).filterMap fun d =>
        match d with
        | .dec c => if |c| < 10 ^ 12 then some c else none
        | _ => none := by
      rw [List.filterMap_map]
      rfl
    rw [h, hs.amounts, List.filterMap_map, ← List.filterMap_eq_filter]
    apply List.filterMap_congr
    intro c hc
    simp [Option.guard, abs_of_nonneg (hs.nonneg c hc)]
  rw [hstored, List.pairwise_cons]
  have hr := List.pairwise_cons.mp hs.rises
  constructor
  · intro c hc
    obtain ⟨hmem, hlt⟩ := List.mem_filter.mp hc
    exact hr.1 c hmem (of_decide_eq_true hlt)
  · exact (hr.2.filter _).imp_of_mem fun _ hb h => h (of_decide_eq_true (List.mem_filter.mp hb).2)

/-- A last amount that fits the column is above all others. -/
theorem lt_of_rises {cents : List ℤ} (hr : (0 :: cents).Pairwise fun a b => b < 10 ^ 12 → a < b)
    {c : ℤ} (hlast : cents.getLastD 0 < c) (hc : c < 10 ^ 12) : ∀ a ∈ 0 :: cents, a < c := by
  cases cents using List.reverseRecOn with
  | nil =>
    intro a ha
    rw [List.mem_singleton.mp ha]
    exact hlast
  | append_singleton l b =>
    rw [List.getLastD_concat] at hlast
    intro a ha
    rw [← List.cons_append] at ha hr
    rcases List.mem_append.mp ha with ha | ha
    · have := (List.pairwise_append.mp hr).2.2 a ha b (by simp) (hlast.trans hc)
      exact this.trans hlast
    · rw [List.mem_singleton.mp ha]
      exact hlast

theorem risingState_step {auctionId : Uuid} {m : ℤ} (hm : 0 < m) (hm' : m < 10 ^ 12)
    {s t : ScriptState} {a : ScriptAct} (hs : ∃ cents, RisingState auctionId m cents s)
    (hstep : scriptStep double auctionId s a = some t)
    (hok : BidWith (fun x => ∃ q, x.val = .fin q) a) : ∃ cents, RisingState auctionId m cents t := by
  obtain ⟨cents, ⟨h, hh, hinc, hb⟩, hamounts, hnonneg, hrises⟩ := hs
  cases scriptStep_cases hh (fun _ => hok.ttl_pos) hstep with
  | @booked argv hact hadm hash log =>
    subst hact
    obtain ⟨-, x, hpos, ⟨q, hq⟩, hx⟩ := hok
    rw [toDecimalStr_float] at hx
    obtain ⟨c, hc₀, hc⟩ : ∃ c, 0 ≤ c ∧ argv.amount = .dec c := by
      rcases price_fixed2 hpos (by simp [hq]) with hinf | ⟨c, hc₀, hc⟩
      · rw [fixed2, hq] at hinf
        cases hinf
      · exact ⟨c, hc₀, hx.trans hc⟩
    obtain ⟨endTs, inc, hadm⟩ := hadm
    obtain rfl := Option.some.inj (hinc.symm.trans hadm.hasIncrement)
    have hlast₀ : 0 ≤ cents.getLastD 0 := by
      cases cents using List.reverseRecOn with
      | nil => rfl
      | append_singleton l b => rw [List.getLastD_concat]; exact hnonneg b (by simp)
    refine ⟨cents ++ [c], ⟨_, hash, hinc, ?_⟩, ?_, ?_, ?_⟩
    · rw [List.getLastD_concat, ← hc]
      rfl
    · rw [log, List.map_append, hamounts, List.map_append]
      simp [hc]
    · intro d hd
      rcases List.mem_append.mp hd with hd | hd
      · exact hnonneg d hd
      · rw [List.mem_singleton.mp hd]
        exact hc₀
    · rw [← List.cons_append, List.pairwise_append]
      refine ⟨hrises, List.pairwise_singleton _ _, ?_⟩
      intro d hd b hbm hlt
      rw [List.mem_singleton.mp hbm] at hlt ⊢
      have := add_le_of_admissible hadm hb hlast₀ hm.le hm' hc hc₀ hlt
      exact lt_of_rises hrises (by omega) hlt d hd
  | kept hash log => exact ⟨cents, ⟨h, hash, hinc, hb⟩, log ▸ hamounts, hnonneg, hrises⟩
  | closed hash log => exact ⟨cents, ⟨_, hash, hinc, hb⟩, log ▸ hamounts, hnonneg, hrises⟩

/-- The camera in steps of a tenth of a cent, which the column rounds to `0.00`. -/
def cheapCamera : AuctionCreate := { camera with minIncrement := tenthOfACent }

/-- Its row. -/
def cheapCameraRow : Auction := { cameraRow with minIncrement := .dec 0 (by decide) }

end OnlineAuction.Bidding
