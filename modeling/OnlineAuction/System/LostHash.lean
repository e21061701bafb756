import OnlineAuction.Lifecycle.Retry
import OnlineAuction.System.Amounts
import OnlineAuction.System.Auctions
import OnlineAuction.System.Calls

/-!
# Closing an auction whose hash was lost

When Redis comes back without its data, the hash of an active auction is missing.
`close_auction` then closes with what the row has, and the row of an active auction has neither
bid nor winner: these are written at the close. The accepted bids are in the table `bid`, which
the close does not read.

## What is proved

* `leader_step` and `bidders_step` — the leader of a hash has a bid in its history, and a row of
  the table `bid` has a user as its bidder.
* `lostHash_same_iff` — the close settles an auction whose hash was lost as it would have settled
  it from the hash exactly when the hash had no leader; it is then `UNSOLD`.
-/

namespace OnlineAuction.System

open OnlineAuction.Foundation OnlineAuction.Store OnlineAuction.Lifecycle OnlineAuction.Bidding

/-! ### Leaders and bidders -/

/-- The leader of a hash has a bid in the history of its auction. -/
def LeadersBid (s : Sys) : Prop :=
  ∀ a h b, s.redis.hash a = some h → h.highestBidder = some (some b) →
    ∃ e ∈ s.accepted a, e.argv.bidderId = b

theorem leader_step {s t : Sys} {act : Act} (hs : LeadersBid s) (h : SysStep s act t) :
    LeadersBid t := by
  intro a h' b hh hb
  cases h.hash a with
  | kept hash log => exact log ▸ hs a h' b (hash ▸ hh) hb
  | opened _ _ hash => rw [hash] at hh; cases hh; cases hb
  | started _ _ hash => rw [hash] at hh; cases hh; cases hb
  | booked _ _ _ _ _ _ _ hash log =>
    rw [hash] at hh
    cases hh
    cases hb
    rw [log]
    exact ⟨_, List.mem_append_right _ (List.mem_singleton_self _), rfl⟩
  | closed _ _ _ _ hash log =>
    rw [hash] at hh
    cases hh
    rw [log]
    cases hold : s.redis.hash a with
    | none => rw [hold] at hb; cases hb
    | some h₀ => rw [hold] at hb; exact hs a h₀ b hold hb
  | lost _ hash => rw [hash] at hh; cases hh

/-- The bidders of the rows of bids, committed or not, are users. -/
def BiddersKnown (pg : Pg) : Prop := ∀ row ∈ pg.bid ++ pg.bidOpen, row.bidderId ∈ pg.users

theorem CallStep.bidders {b : Uuid} {c : Call} {w w' : World} {pc : Pc} (h : CallStep b c w w' pc)
    (hw : BiddersKnown w.pg) : BiddersKnown w'.pg := by
  cases h with
  | flushed hpc hamount huser =>
    intro row hrow
    rw [← List.append_assoc] at hrow
    rcases List.mem_append.mp hrow with hrow | hrow
    · exact hw row hrow
    · rw [List.mem_singleton.mp hrow]
      exact huser
  | committed =>
    intro row hrow
    apply hw row
    simp only [Pg.commitBid, Pg.rollbackBid, List.mem_append, List.mem_filter] at hrow ⊢
    rcases hrow with (hrow | hrow) | hrow
    · exact Or.inl hrow
    · exact Or.inr hrow.1
    · exact Or.inr hrow.1
  | raised =>
    intro row hrow
    apply hw row
    simp only [Pg.rollbackBid, List.mem_append, List.mem_filter] at hrow ⊢
    exact hrow.imp id And.left
  | _ => exact hw

theorem bidders_step {s t : Sys} {act : Act} (hs : BiddersKnown s.pg) (h : SysStep s act t) :
    BiddersKnown t.pg := by
  cases h with
  | registered => exact fun row hrow => List.mem_cons_of_mem _ (hs row hrow)
  | moved _ _ hmove => exact CallStep.bidders hmove hs
  | @startEnded fault => cases fault <;> exact hs
  | @closeEnded fault => cases fault <;> exact hs
  | crashed =>
    intro row hrow
    rw [show s.pg.rollbackAll.bid ++ s.pg.rollbackAll.bidOpen = s.pg.bid from
      List.append_nil _] at hrow
    exact hs row (List.mem_append_left _ hrow)
  | _ => exact hs

theorem leaders_of_reach {now : ℤ} {users : List Uuid} {s : Sys} (hs : Reachable now users s) :
    LeadersBid s ∧ BiddersKnown s.pg :=
  hs.invariant (I := fun s => LeadersBid s ∧ BiddersKnown s.pg)
    (fun hs hstep _ => ⟨leader_step hs.1 (step_cases hstep), bidders_step hs.2 (step_cases hstep)⟩)
    ⟨(fun _ _ _ hh => by cases hh), by simp [BiddersKnown, Sys.initial]⟩

/-- When the accepted bids of an auction are committed, its leader is a user. -/
theorem leader_mem_users {now : ℤ} {users : List Uuid} {s : Sys} (hs : Reachable now users s)
    {a : Uuid} (hstored : ∀ e ∈ s.accepted a, ∃ row ∈ s.pg.bid, row.bidId = e.argv.bidId)
    {h : AuctionHash} {b : Uuid} (hh : s.redis.hash a = some h)
    (hb : h.highestBidder = some (some b)) : b ∈ s.pg.users := by
  obtain ⟨hleaders, hbidders⟩ := leaders_of_reach hs
  have hcalls : CallsInv s := callsInv_of_reach hs
  obtain ⟨e, he, rfl⟩ := hleaders a h b hh hb
  obtain ⟨c, hc, hacc⟩ := hcalls.history a e he
  obtain ⟨row, hrow, hid⟩ := hstored e he
  obtain ⟨c', v, hc', -, hof⟩ := hcalls.row_of_mem hrow
  rw [hid, hc, Option.some.injEq] at hc'
  subst hc'
  rw [hacc.bidderId, ← hof.bidderId]
  exact hbidders row (List.mem_append_left _ hrow)

/-! ### The two closes -/

/-- What a close writes: the state, the winner and the highest bid. -/
def settlement (row : Auction) : AuctionState × Option Uuid × Option Numeric :=
  (row.state, row.winnerId, row.highestBid)

/-- **Closing without the hash**: an active auction whose accepted bids are committed is closed
twice, from its hash and without it, by attempts that come to their commits. The two write the same
settlement exactly when the hash has no leader, and without the hash the auction is `UNSOLD`. -/
theorem lostHash_same_iff {now : ℤ} {users : List Uuid} {s : Sys} (hs : Reachable now users s)
    {a : Uuid} {row : Auction} (hrow : s.pg.auction a = some row) (hstate : row.state = .active)
    (hstored : ∀ e ∈ s.accepted a, ∃ bid ∈ s.pg.bid, bid.bidId = e.argv.bidId) {r r' : Redis}
    (hkept : r.hash a = s.redis.hash a) (hlost : r'.hash a = (s.redis.loseHash a).hash a)
    {r₁ r₂ : Redis} {now₁ now₂ : ℤ} {pc₁ pc₂ : ClosePc} {dirty₁ dirty₂ : List (Uuid × Auction)}
    (hclose : Attempt s.pg.users a row r (r₁, some ⟨now₁, [], pc₁, dirty₁⟩))
    (hclose' : Attempt s.pg.users a row r' (r₂, some ⟨now₂, [], pc₂, dirty₂⟩)) (pg : Pg) :
    ∃ row₁ row₂, (pg.writeAuctions dirty₁).auction a = some row₁ ∧
      (pg.writeAuctions dirty₂).auction a = some row₂ ∧
      (settlement row₁ = settlement row₂ ↔ ¬ HasLeader (s.redis.hash a)) ∧
      settlement row₂ = (.unsold, none, none) := by
  have hinv : AuctionsInv s := auctionsInv_of_reach hs
  obtain ⟨hbid, hwinner⟩ := (hinv.rows a row hrow).unclosed (Or.inr hstate)
  have hmissing : r'.hash a = none := hlost.trans (Function.update_self _ _ _)
  have hnobody : ¬ HasLeader (r'.hash a) := by
    rintro ⟨h, b, hh, -⟩
    rw [hmissing] at hh
    cases hh
  have hunled : ∀ data, ¬ HasLeader data → (assignWinner data row).row.winnerId = none := by
    intro data hdata
    rw [assignWinner_nobody fun h b hd hb => hdata ⟨h, b, hd, hb⟩]
    exact hwinner
  -- both attempts write what an uninterrupted close writes
  have hknown : (assignWinner (r.hash a) row).row.winnerId.all (· ∈ s.pg.users) = true := by
    rw [hkept]
    by_cases hlead : HasLeader (s.redis.hash a)
    · obtain ⟨h, b, hh, hb⟩ := hlead
      rw [hh, assignWinner_leader hb]
      exact decide_eq_true (leader_mem_users hs hstored hh hb)
    · rw [hunled _ hlead]
      rfl
  have hend : ∀ h e, r.hash a = some h → h.endTs = some e → e = unixSeconds row.endTs :=
    fun h e hh he => (hinv.hashes a row h hrow (hkept ▸ hh)).endTs e he
  obtain ⟨row₁, hout₁, hrow₁, -⟩ := (underway_attempt hend hknown (Or.inl rfl) hclose).commits
  obtain ⟨row₂, hout₂, hrow₂, -⟩ := (underway_attempt (r := r') (by simp [hmissing])
    (by rw [hunled _ hnobody]; rfl) (Or.inl rfl) hclose').commits
  rw [closeAuction_nobody hnobody hwinner, CloseOutcome.changed.injEq] at hout₂
  subst hout₂
  refine ⟨row₁, _, hrow₁ pg, hrow₂ pg, ?_, by rw [settlement, hbid, hwinner]⟩
  rw [← hkept]
  constructor
  · intro hsame hlead
    refine closeAuction_bid hlead hout₁ ?_
    have := congrArg (·.2.2) hsame
    exact Eq.trans this hbid
  · intro hlead
    rw [closeAuction_nobody hlead hwinner, CloseOutcome.changed.injEq] at hout₁
    rw [← hout₁]

/-! ### Runs -/

/-- A bid of `25.00` on the camera is accepted and committed, and then a minute passes. -/
def storedBid : List Act :=
  cameraBid (.ofNumber (.fin 25)) ++ List.replicate 3 (.bidStep 100 false) ++ [.tick 60000000]

/-- That camera is settled otherwise without its hash. -/
theorem lostHash_same_camera : ∃ s row₁ row₂, Reachable 1000000000 [1, 7] s ∧
    (∃ dirty₁ dirty₂, (s.pg.writeAuctions dirty₁).auction 5 = some row₁ ∧
      (s.pg.writeAuctions dirty₂).auction 5 = some row₂) ∧
    settlement row₁ ≠ settlement row₂ ∧ settlement row₂ = (.unsold, none, none) := by
  obtain ⟨s, hs, hp⟩ := exists_reach step (fun _ _ _ => True) storedBid
    (s := .initial 1000000000 [1, 7])
    (p := fun s => s.pg.auction 5 = some cameraRow ∧
      (∀ e ∈ s.accepted 5, ∃ bid ∈ s.pg.bid, bid.bidId = e.argv.bidId) ∧
      s.redis.hget 5 (·.highestBidder) = some (some 7) ∧
      (closeAll s.pg.users 1060000000 (fun _ => none) [(5, cameraRow)] s.redis []).2.isSome ∧
      (closeAll s.pg.users 1060000000 (fun _ => none) [(5, cameraRow)]
        (s.redis.loseHash 5) []).2.isSome) (by decide +kernel)
  obtain ⟨hrow, hstored, hbidder, hdone, hdone'⟩ := of_decide_eq_true hp
  obtain ⟨dirty₁, hdirty₁⟩ := Option.isSome_iff_exists.mp hdone
  obtain ⟨dirty₂, hdirty₂⟩ := Option.isSome_iff_exists.mp hdone'
  have hattempt := fun r => @attempt_of_closeAll s.pg.users 5 cameraRow 1060000000
    [(5, cameraRow)] (by decide) (by simp) (by decide) r
  have hclose := hattempt s.redis
  have hclose' := hattempt (s.redis.loseHash 5)
  rw [hdirty₁] at hclose
  rw [hdirty₂] at hclose'
  obtain ⟨row₁, row₂, hrow₁, hrow₂, hiff, hnone⟩ :=
    lostHash_same_iff hs hrow rfl hstored rfl rfl hclose hclose' s.pg
  obtain ⟨h, hh, hb⟩ := Option.bind_eq_some_iff.mp hbidder
  exact ⟨s, row₁, row₂, hs, ⟨dirty₁, dirty₂, hrow₁, hrow₂⟩,
    fun hsame => hiff.mp hsame ⟨h, 7, hh, hb⟩, hnone⟩

/-- **A sold auction is closed as unsold**: the close sells the camera to `7` for `25.00`; when its
hash is lost before, the close leaves it `UNSOLD`, with the accepted bid in the table. -/
theorem camera_lost_unsold : ∃ s : Sys,
    Reach step (fun _ act _ => act.faultless = true) (.initial 1000000000 [1, 7]) s ∧
    (s.pg.bid.map fun bid => (bid.bidId, bid.status, bid.amount.value)) =
      [(100, .accepted, .fin (2500 / 100))] ∧
    ((pollDueCloses s.now (fun _ => none) [(5, cameraRow)] s.redis s.pg).2.auction 5).map
      settlement = some (.sold, some 7, some (.dec 2500 (by decide))) ∧
    ((pollDueCloses s.now (fun _ => none) [(5, cameraRow)] (s.redis.loseHash 5) s.pg).2.auction
      5).map settlement = some (.unsold, none, none) := by
  obtain ⟨s, hs, hp⟩ := exists_reach step (fun _ act _ => act.faultless = true) storedBid
    (s := .initial 1000000000 [1, 7])
    (p := fun s => (s.pg.bid.map fun bid => (bid.bidId, bid.status, bid.amount.value)) =
        [(100, .accepted, .fin (2500 / 100))] ∧
      ((pollDueCloses s.now (fun _ => none) [(5, cameraRow)] s.redis s.pg).2.auction 5).map
        settlement = some (.sold, some 7, some (.dec 2500 (by decide))) ∧
      ((pollDueCloses s.now (fun _ => none) [(5, cameraRow)] (s.redis.loseHash 5) s.pg).2.auction
        5).map settlement = some (.unsold, none, none)) (by decide +kernel)
  exact ⟨s, hs, of_decide_eq_true hp⟩

end OnlineAuction.System
