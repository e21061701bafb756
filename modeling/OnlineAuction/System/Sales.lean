import OnlineAuction.System.Amounts
import OnlineAuction.System.Auctions
import OnlineAuction.System.Calls

/-!
# Nobody else is sold to

Whatever fails, crashes or is lost on the way: an auction that is `SOLD` was sold to a registered user
for the amount of a bid of his that the script accepted on this auction, not below the reserve, and the
sale stands. A lost or reopened hash, a late bid or an interrupted close may sell to a bidder who was
outbid, or not at all, but never to one who has not bid, and never for another's amount.

## What is proved

* `salesInv_step` — every step keeps that a winner has made an accepted bid (`SaleOk`) and that a hash
  names a leader with his own amount (`Led`).
* `sold_to_bidder` — a sale in any reachable state.
-/

namespace OnlineAuction.System

open OnlineAuction.Foundation OnlineAuction.Store OnlineAuction.Lifecycle OnlineAuction.Bidding

/-! ### What a sale is -/

/-- The leader of a hash has made an accepted bid, whose amount is the highest bid. -/
def Led (log : List Accept) (h : AuctionHash) : Prop :=
  ∀ b, h.highestBidder = some (some b) →
    ∃ e ∈ log, e.argv.bidderId = b ∧ h.highestBid = some e.argv.amount

/-- The row has the bidder of an accepted bid as its winner, and his amount, read as a float. -/
structure WonBy (users : List Uuid) (e : Accept) (row : Auction) : Prop where
  /-- The winner. -/
  winner : row.winnerId = some e.argv.bidderId
  /-- He is a user. -/
  user : e.argv.bidderId ∈ users
  /-- The highest bid. -/
  price : ∃ d, row.highestBid = some d ∧ Numeric.ofNumber e.argv.amount.toFloat.val = some d

/-- The amount, as a float, is not below the reserve. -/
def Reaches (e : Accept) (row : Auction) : Prop :=
  ∀ reserve, row.reservePrice = some reserve → reserve.value ≤ e.argv.amount.toFloat.val

/-- The winner of a row, if it has one. -/
structure SaleOk (users : List Uuid) (log : List Accept) (row : Auction) : Prop where
  /-- He has made an accepted bid, which reaches the reserve if the row is sold. -/
  won : ∀ w, row.winnerId = some w → ∃ e ∈ log, WonBy users e row ∧ (row.state = .sold → Reaches e row)
  /-- A sold row has one. -/
  sold : row.state = .sold → row.winnerId ≠ none

theorem SaleOk.of_none {users : List Uuid} {log : List Accept} {row : Auction}
    (hwinner : row.winnerId = none) (hstate : row.state ≠ .sold) : SaleOk users log row :=
  ⟨fun _ hw => by rw [hwinner] at hw; (cases hw), fun hsold => absurd hsold hstate⟩

/-- More users and more bids do no harm. -/
theorem SaleOk.mono {users users' : List Uuid} {log log' : List Accept} {row : Auction}
    (h : SaleOk users log row) (husers : users ⊆ users') (hlog : log ⊆ log') : SaleOk users' log' row where
  won := fun w hw => by
    obtain ⟨e, he, hwon, hreaches⟩ := h.won w hw
    exact ⟨e, hlog he, ⟨hwon.winner, husers hwon.user, hwon.price⟩, hreaches⟩
  sold := h.sold

/-! ### One close -/

/-- An object whose winner was assigned: there is none, or the leader with his amount. -/
inductive Assigned (log : List Accept) (obj : AuctionObj) : Prop where
  /-- Nobody leads. -/
  | nobody (hstate : obj.row.state = .closed) (hwinner : obj.row.winnerId = none)
  /-- The leader. -/
  | leader {e : Accept} (hmem : e ∈ log) (hstate : obj.row.state = .closed)
    (hwinner : obj.row.winnerId = some e.argv.bidderId)
    (hbid : obj.highestBid = some (.float e.argv.amount.toFloat))

/-- It is flushed: the leader is a user, and his amount fits. -/
inductive Flushed (users : List Uuid) (log : List Accept) (obj : AuctionObj) : Prop where
  /-- Nobody leads. -/
  | nobody (hstate : obj.row.state = .closed) (hwinner : obj.row.winnerId = none)
  /-- The leader. -/
  | leader {e : Accept} (hmem : e ∈ log) (hstate : obj.row.state = .closed) (hwon : WonBy users e obj.row)
    (hbid : obj.highestBid = some (.float e.argv.amount.toFloat))

theorem assigned_of_led {log : List Accept} {data : Option AuctionHash}
    (hled : ∀ h, data = some h → Led log h) {row : Auction} (hwinner : row.winnerId = none) :
    Assigned log (assignWinner data row) := by
  by_cases hnobody : ∀ h b, data = some h → h.highestBidder ≠ some (some b)
  · rw [assignWinner_nobody hnobody]
    exact .nobody rfl hwinner
  · push Not at hnobody
    obtain ⟨h, b, rfl, hb⟩ := hnobody
    obtain ⟨e, he, rfl, hbid⟩ := hled h rfl b hb
    rw [assignWinner_leader hb, hbid, Option.getD_some]
    exact .leader he rfl rfl rfl

theorem Assigned.flush {users : List Uuid} {log : List Accept} {obj obj' : AuctionObj}
    (h : Assigned log obj) (hflush : flushAuction users obj = some obj') : Flushed users log obj' := by
  unfold flushAuction at hflush
  split_ifs at hflush with husers
  cases h with
  | nobody hstate hwinner =>
    split at hflush
    · cases hflush
      exact .nobody hstate hwinner
    · obtain ⟨d, -, rfl⟩ := Option.map_eq_some_iff.mp hflush
      exact .nobody hstate hwinner
  | @leader e hmem hstate hwinner hbid =>
    rw [hwinner, Option.all_some, decide_eq_true_eq] at husers
    simp only [hbid] at hflush
    obtain ⟨d, hd, rfl⟩ := Option.map_eq_some_iff.mp hflush
    exact .leader hmem hstate ⟨hwinner, husers, d, rfl, hd⟩ rfl

/-- Without a settlement nothing is sold. -/
theorem Flushed.unsettled {users : List Uuid} {log : List Accept} {obj : AuctionObj}
    (h : Flushed users log obj) : SaleOk users log obj.row := by
  cases h with
  | nobody hstate hwinner => exact .of_none hwinner (by simp [hstate])
  | leader hmem hstate hwon =>
    exact ⟨fun _ _ => ⟨_, hmem, hwon, by simp [hstate]⟩, by simp [hstate]⟩

/-- What is sold has reached the reserve. -/
theorem reserve_le_of_sold {obj obj' : AuctionObj} {x : PyFloat} (hstate : obj.row.state = .closed)
    (hbid : obj.highestBid = some (.float x)) (h : resolveSettlementInner obj = some obj')
    (hsold : obj'.row.state = .sold) {reserve : Numeric} (hr : obj.row.reservePrice = some reserve) :
    reserve.value ≤ x.val := by
  rw [resolveSettlementInner, if_neg (not_not.mpr hstate), hbid, hr] at h
  cases hw : obj.row.winnerId with
  | none =>
    simp only [hw, Option.some.injEq] at h
    rw [← h] at hsold
    cases hsold
  | some w =>
    simp only [hw] at h
    split_ifs at h with hnan hle
    · exact hle
    · rw [← Option.some.inj h] at hsold
      cases hsold

/-- **Settling** sells to the leader when his amount reaches the reserve, and to nobody else. -/
theorem Flushed.settle {users : List Uuid} {log : List Accept} {obj obj' : AuctionObj}
    (h : Flushed users log obj) (hsettle : resolveSettlementInner obj = some obj') :
    SaleOk users log obj'.row := by
  cases h with
  | nobody hstate hwinner =>
    rcases settle_cases hstate hsettle with ⟨hne, -⟩ | hrow
    · exact absurd hwinner hne
    · rw [hrow]
      exact .of_none rfl (by simp)
  | @leader e hmem hstate hwon hbid =>
    rcases settle_cases hstate hsettle with ⟨-, hrow⟩ | hrow
    · have hreaches : Reaches e obj.row := fun reserve hr =>
        reserve_le_of_sold hstate hbid hsettle (by rw [hrow]) hr
      rw [hrow]
      exact ⟨fun _ _ => ⟨e, hmem, ⟨hwon.winner, hwon.user, hwon.price⟩, fun _ => hreaches⟩,
        fun _ => by simp [hwon.winner]⟩
    · rw [hrow]
      exact .of_none rfl (by simp)

/-! ### Every step -/

/-- The close poll sells to nobody else. -/
def Selling (s : Sys) (p : ClosePoll) : Prop :=
  ClosesHold
    (fun todo obj => ∀ b ∈ todo.head?, b.2.winnerId = none → Assigned (s.accepted b.1) obj)
    (fun todo obj => ∀ b ∈ todo.head?, SaleOk s.pg.users (s.accepted b.1) obj.row)
    (fun b => SaleOk s.pg.users (s.accepted b.1) b.2) p

/-- What every run keeps. -/
structure SalesInv (s : Sys) : Prop where
  /-- The auctions. -/
  auctions : AuctionsInv s
  /-- The hashes. -/
  led : ∀ a h, s.redis.hash a = some h → Led (s.accepted a) h
  /-- The rows. -/
  rows : ∀ a row, s.pg.auction a = some row → SaleOk s.pg.users (s.accepted a) row
  /-- The close poll. -/
  closes : ∀ p, s.closes = some p → Selling s p

section Step

variable {s t : Sys} {act : Act}

theorem Led.mono {log log' : List Accept} {h : AuctionHash} (hled : Led log h) (hlog : log ⊆ log') :
    Led log' h := fun b hb => by
  obtain ⟨e, he, hof⟩ := hled b hb
  exact ⟨e, hlog he, hof⟩

theorem Assigned.mono {log log' : List Accept} {obj : AuctionObj} (h : Assigned log obj)
    (hlog : log ⊆ log') : Assigned log' obj := by
  cases h with
  | nobody hstate hwinner => exact .nobody hstate hwinner
  | leader hmem hstate hwinner hbid => exact .leader (hlog hmem) hstate hwinner hbid

theorem Selling.mono (h : SysStep s act t) {p : ClosePoll} (hp : Selling s p) : Selling t p where
  flush := fun obj hpc b hb hw => (hp.flush obj hpc b hb hw).mono (h.log b.1).subset
  hset := fun obj hpc b hb => (hp.hset obj hpc b hb).mono h.users (h.log b.1).subset
  dirty := fun b hb => (hp.dirty b hb).mono h.users (h.log b.1).subset

theorem led_step (hs : SalesInv s) (h : SysStep s act t) {a : Uuid} {h' : AuctionHash}
    (hh : t.redis.hash a = some h') : Led (t.accepted a) h' := by
  cases h.hash a with
  | kept hash log => exact log ▸ hs.led a h' (hash ▸ hh)
  | opened _ _ hash | started _ _ hash =>
    rw [hash, Option.some.injEq] at hh
    subst hh
    exact fun b hb => by cases hb
  | booked _ _ _ _ _ _ _ hash log =>
    rw [hash, Option.some.injEq] at hh
    subst hh
    rw [log]
    -- the bid that was just booked leads
    exact fun b hb => ⟨_, List.mem_append_right _ (List.mem_singleton_self _),
      Option.some.inj (Option.some.inj hb), rfl⟩
  | closed _ _ _ _ hash log =>
    rw [hash, Option.some.injEq] at hh
    subst hh
    rw [log]
    cases hold : s.redis.hash a with
    | none => exact fun b hb => by cases hb
    | some h₀ => exact hs.led a h₀ hold
  | lost _ hash => rw [hash] at hh; cases hh

theorem row_sale_step (hs : SalesInv s) (h : SysStep s act t) {a : Uuid} {row : Auction}
    (hrow : t.pg.auction a = some row) : SaleOk t.pg.users (t.accepted a) row := by
  cases (h.row a).change hs.auctions with
  | kept heq => exact (hs.rows a row (heq ▸ hrow)).mono h.users (h.log a).subset
  | stored _ _ _ hnew heq =>
    obtain rfl := Option.some.inj (heq.symm.trans hrow)
    refine .of_none hnew.noWinner ?_
    rcases hnew.state with hstate | hstate <;> simp [hstate]
  | started _ hrow₀ hstate heq =>
    obtain rfl := Option.some.inj (heq.symm.trans hrow)
    exact .of_none ((hs.auctions.rows a _ hrow₀).unclosed (Or.inl hstate)).2 (by simp)
  | closed _ _ _ _ heq src hmem =>
    obtain rfl := Option.some.inj (heq.symm.trans hrow)
    exact ((hs.closes _ src).dirty _ hmem).mono h.users (h.log a).subset

theorem selling_step (hs : SalesInv s) (h : SysStep s act t) {p : ClosePoll}
    (hp : t.closes = some p) : Selling t p := by
  refine Selling.mono h (hs.auctions.closesHold h hs.closes ?_ ?_ ?_ hp)
  · rintro a row rest b ⟨⟩ hwinner
    exact assigned_of_led (hs.led a) hwinner
  · intro a row rest obj obj' hrow hstate hassigned hflush
    have hwinner := ((hs.auctions.rows a row hrow).unclosed (Or.inr hstate)).2
    have hflushed := (hassigned (a, row) rfl hwinner).flush hflush
    refine ⟨fun _ => hflushed.unsettled, ?_⟩
    rintro obj'' hsettle b ⟨⟩
    exact hflushed.settle hsettle
  · intro a row rest obj hsale
    exact hsale (a, row) rfl

/-- **Every step**, whatever fails. -/
theorem salesInv_step (hs : SalesInv s) (hstep : step s act = some t) : SalesInv t where
  auctions := auctionsInv_step hs.auctions hstep
  led := fun _ _ => led_step hs (step_cases hstep)
  rows := fun _ _ => row_sale_step hs (step_cases hstep)
  closes := fun _ => selling_step hs (step_cases hstep)

end Step

theorem salesInv_initial (now : ℤ) (users : List Uuid) : SalesInv (.initial now users) where
  auctions := auctionsInv_initial now users
  led := fun _ _ hh => by cases hh
  rows := fun _ _ hrow => by cases hrow
  closes := fun _ hp => by cases hp

theorem salesInv_of_reach {ok : Sys → Act → Sys → Prop} {now : ℤ} {users : List Uuid} {s : Sys}
    (hs : Reach step ok (.initial now users) s) : SalesInv s :=
  hs.invariant (fun hs hstep _ => salesInv_step hs hstep) (salesInv_initial now users)

/-- **A sale** in a reachable state, whatever has failed, crashed or was lost: some call of `place_bid`
was made for the winner on this auction and accepted by the script; he is a user; the highest bid is
the amount of this bid, which reaches the reserve; and the row stays as it is for ever. -/
theorem sold_to_bidder {now : ℤ} {users : List Uuid} {s : Sys} (hs : Reachable now users s) {a : Uuid}
    {row : Auction} (hrow : s.pg.auction a = some row) (hsold : row.state = .sold) :
    (∃ e ∈ s.accepted a, WonBy s.pg.users e row ∧ Reaches e row ∧
      ∃ c, s.bids e.argv.bidId = some c ∧ AcceptOf a c e) ∧
    ∀ t, Reach step (fun _ _ _ => True) s t → t.pg.auction a = some row := by
  have hinv : SalesInv s := salesInv_of_reach hs
  have hsale := hinv.rows a row hrow
  obtain ⟨w, hw⟩ := Option.ne_none_iff_exists'.mp (hsale.sold hsold)
  obtain ⟨e, he, hwon, hreaches⟩ := hsale.won w hw
  exact ⟨⟨e, he, hwon, hreaches hsold, (callsInv_of_reach hs).history a e he⟩, fun t ht =>
    row_final hinv.auctions ht hrow (by simp [hsold]) (by simp [hsold])⟩

/-! ### A run -/

/-- The process crashes when the script has accepted a bid on the camera, and then the camera is closed. -/
def cameraCrash : List Act :=
  cameraBid (.ofNumber (.fin 25)) ++ [.crash, .tick 60000000, .closeSelect [(5, cameraRow)]] ++
    List.replicate 4 (.closeStep false) ++ [.closeCommit false]

/-- It is sold to a bidder whose call was lost. -/
theorem sold_to_bidder_camera : ∃ s : Sys, ∃ row, s.pg.auction 5 = some row ∧ row.state = .sold ∧
    row.winnerId = some 7 ∧ s.pg.bid = [] ∧
    (∃ e ∈ s.accepted 5, WonBy s.pg.users e row ∧ Reaches e row ∧
      ∃ c, s.bids e.argv.bidId = some c ∧ AcceptOf 5 c e) := by
  obtain ⟨s, hs, hp⟩ := exists_reach step (fun _ _ _ => True) cameraCrash
    (s := .initial 1000000000 [1, 7])
    (p := fun s => s.pg.bid = [] ∧ (s.pg.auction 5).any fun row =>
      row.state = .sold ∧ row.winnerId = some 7) (by decide +kernel)
  obtain ⟨hbids, hp⟩ := of_decide_eq_true hp
  obtain ⟨row, hrow, hp⟩ := (Option.any_eq_true _ _).mp hp
  obtain ⟨hsold, hwinner⟩ := of_decide_eq_true hp
  exact ⟨s, row, hrow, hsold, hwinner, hbids, (sold_to_bidder hs hrow hsold).1⟩

end OnlineAuction.System
