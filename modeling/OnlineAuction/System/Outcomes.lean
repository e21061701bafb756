import OnlineAuction.System.Auctions

/-!
# The outcome of a close

What `close_auction` makes of a row: between its flush and its settlement the row is `CLOSED`,
after it `SOLD` with a winner or `UNSOLD` without one. When settling raises, or a command between
the two, the poll commits the row `CLOSED`.

## What is proved

* `settle_decided` — a settled row is decided.
* `outcomesInv_of_reach` — in every run a committed row waits, is active, is `CLOSED` or decided.
-/

namespace OnlineAuction.System

open OnlineAuction.Foundation OnlineAuction.Store OnlineAuction.Lifecycle OnlineAuction.Bidding

/-- The row is sold to a winner, or unsold. -/
def Decided (row : Auction) : Prop :=
  row.state = .sold ∧ row.winnerId ≠ none ∨ row.state = .unsold ∧ row.winnerId = none

theorem settle_decided {obj obj' : AuctionObj} (hclosed : obj.row.state = .closed)
    (h : resolveSettlementInner obj = some obj') : Decided obj'.row := by
  rcases settle_cases hclosed h with ⟨hw, heq⟩ | heq <;> rw [heq]
  · exact Or.inl ⟨rfl, hw⟩
  · exact Or.inr ⟨rfl, rfl⟩

/-- What a close makes of rows. -/
structure OutcomesInv (s : Sys) : Prop where
  /-- The object to be flushed is closed. -/
  flush : ∀ p obj, s.closes = some p → p.pc = .flush obj → obj.row.state = .closed
  /-- The object whose state goes to the hash is decided. -/
  hset : ∀ p obj, s.closes = some p → p.pc = .hset obj → Decided obj.row
  /-- So is every object of the session that did not raise. -/
  dirty : ∀ p, s.closes = some p → ∀ b ∈ p.dirty, b.2.state = .closed ∨ Decided b.2
  /-- So is every closed row of the table. -/
  rows : ∀ a row, s.pg.auction a = some row → row.state ≠ .upcoming → row.state ≠ .active →
    row.state = .closed ∨ Decided row

/-- **What a close makes of rows**, step after step. -/
theorem outcomesInv_step {s t : Sys} {act : Act} (hinv : AuctionsInv s) (hs : OutcomesInv s)
    (h : SysStep s act t) : OutcomesInv t := by
  have hpoll : ∀ p, t.closes = some p → ClosesHold (fun _ obj => obj.row.state = .closed)
      (fun _ obj => Decided obj.row) (fun b => b.2.state = .closed ∨ Decided b.2) p := by
    refine fun p => hinv.closesHold h (fun p hp => ⟨fun obj => hs.flush p obj hp,
      fun obj => hs.hset p obj hp, hs.dirty p hp⟩) ?_ ?_ ?_
    · intro a row rest
      exact assignWinner_state _ _
    · intro a row rest obj obj' _ _ hclosed hflush
      have hclosed' : obj'.row.state = .closed := (flushAuction_row hflush).1 ▸ hclosed
      exact ⟨fun _ => Or.inl hclosed', fun _ hsettle => settle_decided hclosed' hsettle⟩
    · intro a row rest obj hdecided
      exact Or.inr hdecided
  refine ⟨fun p obj hp => (hpoll p hp).flush obj, fun p obj hp => (hpoll p hp).hset obj,
    fun p hp => (hpoll p hp).dirty, ?_⟩
  intro a row hrow hupcoming hactive
  rcases ((h.row a).change hinv).of_closed hrow hupcoming hactive with
    hold | ⟨row₀, p, -, -, -, src, hmem⟩
  · exact hs.rows a row hold hupcoming hactive
  · exact hs.dirty _ src _ hmem

theorem outcomesInv_initial (now : ℤ) (users : List Uuid) : OutcomesInv (.initial now users) := by
  refine ⟨?_, ?_, ?_, ?_⟩ <;> simp [Sys.initial]

theorem outcomesInv_of_reach {ok : Sys → Act → Sys → Prop} {now : ℤ} {users : List Uuid} {s : Sys}
    (hrun : Reach step ok (.initial now users) s) : OutcomesInv s :=
  hrun.invariant_with (fun hs hstep _ => auctionsInv_step hs hstep)
    (fun hinv hs hstep _ => outcomesInv_step hinv hs (step_cases hstep))
    (auctionsInv_initial now users) (outcomesInv_initial now users)

end OnlineAuction.System
