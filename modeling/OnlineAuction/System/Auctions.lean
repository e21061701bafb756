import OnlineAuction.System.Machine
import OnlineAuction.Lifecycle.PollFaults

/-!
# What holds of the auctions in every run

The rows, the polls and the calls of `create_auction` in every state that the service can
reach, whatever raises, crashes or is lost.

## What is proved

* `AuctionsInv` and `auctionsInv_of_reach` — a row is written once, started and closed in
  this order; a poll holds the rows as they are in the table; a hash holds the end and the
  increment of its row.
* `RowMove.change` — how a step changes a row: it stores a new one, starts one that waits, or
  closes one that is active.
* `RowChange.fixed` — the other fields of a row never change.
* `extendedEnd_of_due` — the end of an auction that is due was not moved.
* `AuctionsInv.closesHold` — what is claimed of the objects and rows of a close poll holds after
  each of its commands when assigning, flushing, settling and writing the hash keep it.
-/

namespace OnlineAuction.System

open OnlineAuction.Foundation OnlineAuction.Store OnlineAuction.Lifecycle OnlineAuction.Bidding

/-! ### The invariant -/

/-- `row'` is `row` after a close: its state is another, and so may be the winner and the
highest bid. -/
structure Closing (row row' : Auction) : Prop where
  /-- Nothing else changed. -/
  same : row' = { row with
    state := row'.state, highestBid := row'.highestBid, winnerId := row'.winnerId }
  /-- It neither waits nor is active. -/
  state : row'.state ≠ .upcoming ∧ row'.state ≠ .active

/-- The row of an auction that was created and maybe started or closed. -/
structure RowOk (row : Auction) : Prop where
  /-- Until it is closed it has no bid and no winner. -/
  unclosed : row.state = .upcoming ∨ row.state = .active →
    row.highestBid = none ∧ row.winnerId = none
  /-- The increment is not negative. -/
  increment : Numeric.NonNeg row.minIncrement

/-- What a start poll holds. -/
structure StartsOk (pg : Pg) (p : StartPoll) : Prop where
  /-- No auction twice. -/
  nodup : ((p.todo ++ p.dirty).map Prod.fst).Nodup
  /-- The auctions to be started wait, and the rows are those of the table. -/
  todo : ∀ b ∈ p.todo, pg.auction b.1 = some b.2 ∧ b.2.state = .upcoming
  /-- The auctions started wait in the table, and are active in the session. -/
  dirty : ∀ b ∈ p.dirty, ∃ row, pg.auction b.1 = some row ∧ row.state = .upcoming ∧
    b.2 = { row with state := .active }

/-- What a close poll holds. -/
structure ClosesOk (pg : Pg) (p : ClosePoll) : Prop where
  /-- No auction twice. -/
  nodup : ((p.todo ++ p.dirty).map Prod.fst).Nodup
  /-- The auctions to be closed are active and due, and the rows are those of the table. -/
  todo : ∀ b ∈ p.todo, pg.auction b.1 = some b.2 ∧ b.2.state = .active ∧ b.2.endTs ≤ p.nowUtc
  /-- The object at hand is its row after a close. -/
  obj : ∀ obj, p.pc = .flush obj ∨ p.pc = .hset obj → ∀ b ∈ p.todo.head?, Closing b.2 obj.row
  /-- The auctions closed are active in the table, and closed in the session. -/
  dirty : ∀ b ∈ p.dirty, ∃ row, pg.auction b.1 = some row ∧ row.state = .active ∧ Closing row b.2

/-- What holds of the auctions. -/
structure AuctionsInv (s : Sys) : Prop where
  /-- A key that was never used has no row and no hash. -/
  fresh : ∀ a, s.creates a = none → s.pg.auction a = none ∧ s.redis.hash a = none
  /-- A row that is not committed yet. -/
  pending : ∀ a c, s.creates a = some c → c.pc ≠ .ended → s.pg.auction a = none ∧ NewRow c.row ∧
    ∀ h, s.redis.hash a = some h → OfRow c.row h
  /-- Bids are accepted on committed auctions only. -/
  accepted : ∀ a, s.pg.auction a = none → s.accepted a = []
  /-- A call goes on when its auction is committed. -/
  loaded : ∀ b c, s.bids b = some c → c.pc.loaded = true → s.pg.auction c.auctionId ≠ none
  /-- The rows. -/
  rows : ∀ a row, s.pg.auction a = some row → RowOk row
  /-- The end and the increment in the hash are those of the row. -/
  hashes : ∀ a row h, s.pg.auction a = some row → s.redis.hash a = some h → OfRow row h
  /-- The start poll. -/
  starts : ∀ p, s.starts = some p → StartsOk s.pg p
  /-- The close poll. -/
  closes : ∀ p, s.closes = some p → ClosesOk s.pg p

/-! ### How rows change -/

/-- How a step changes the row of the auction `a`. -/
inductive RowChange (s : Sys) (act : Act) (t : Sys) (a : Uuid) : Prop where
  /-- It does not. -/
  | kept (row : t.pg.auction a = s.pg.auction a)
  /-- A new row is stored. -/
  | stored {row : Auction} (hact : act = .createStep a false) (hnone : s.pg.auction a = none)
    (src : s.creates a = some ⟨row, .commit⟩) (hnew : NewRow row) (row : t.pg.auction a = some row)
  /-- An auction that waits is started. -/
  | started {row : Auction} (hact : act = .startCommit false) (hrow : s.pg.auction a = some row)
    (hstate : row.state = .upcoming) (row : t.pg.auction a = some { row with state := .active })
  /-- An active auction is closed. -/
  | closed {row row' : Auction} (hact : act = .closeCommit false) (hrow : s.pg.auction a = some row)
    (hstate : row.state = .active) (hclosing : Closing row row') (row : t.pg.auction a = some row')
    {p : ClosePoll} (src : s.closes = some p) (hmem : (a, row') ∈ p.dirty)

/-- **How a step changes a row.** -/
theorem RowMove.change {s t : Sys} {act : Act} {a : Uuid} (hs : AuctionsInv s)
    (h : RowMove s act t a) : RowChange s act t a := by
  cases h with
  | kept row => exact .kept row
  | stored hact src row =>
    obtain ⟨hnone, hnew, -⟩ := hs.pending a _ src (by simp)
    exact .stored hact hnone src hnew row
  | started hact src hmem row =>
    obtain ⟨b, hb, rfl⟩ := List.mem_map.mp hmem
    have hp := hs.starts _ src
    obtain ⟨row₀, hrow, hstate, heq⟩ := hp.dirty b hb
    refine .started hact hrow hstate (row.trans ?_)
    rw [Pg.setRows_of_mem (by simpa using hp.nodup) (show (b.1, b.2) ∈ _ from hb), heq]
  | closed hact src hmem row =>
    obtain ⟨b, hb, rfl⟩ := List.mem_map.mp hmem
    have hp := hs.closes _ src
    obtain ⟨row₀, hrow, hstate, hclosing⟩ := hp.dirty b hb
    refine .closed hact hrow hstate hclosing (row.trans ?_) src hb
    exact Pg.setRows_of_mem (by simpa using hp.nodup) hb _

/-- **What is fixed in a row**: a step may change its state, its highest bid and its winner, and
nothing else. -/
theorem RowChange.fixed {s t : Sys} {act : Act} {a : Uuid} (h : RowChange s act t a) {β : Type}
    {f : Auction → β} (hf : ∀ (row : Auction) (state : AuctionState) (highestBid : Option Numeric)
      (winnerId : Option Uuid),
      f { row with state := state, highestBid := highestBid, winnerId := winnerId } = f row)
    {row : Auction} (hrow : s.pg.auction a = some row) :
    (t.pg.auction a).map f = some (f row) := by
  cases h with
  | kept heq => rw [heq, hrow, Option.map_some]
  | stored _ hnone => cases hrow.symm.trans hnone
  | started _ hrow₀ _ heq =>
    obtain rfl := Option.some.inj (hrow.symm.trans hrow₀)
    rw [heq, Option.map_some]
    exact congrArg some (hf _ _ _ _)
  | closed _ hrow₀ _ hclosing heq =>
    obtain rfl := Option.some.inj (hrow.symm.trans hrow₀)
    rw [heq, Option.map_some, hclosing.same, hf]

/-- A committed row stays. -/
theorem RowChange.isSome {s t : Sys} {act : Act} {a : Uuid} (h : RowChange s act t a)
    (hrow : s.pg.auction a ≠ none) : t.pg.auction a ≠ none := by
  obtain ⟨row, hrow⟩ := Option.ne_none_iff_exists'.mp hrow
  have hfixed := h.fixed (f := fun _ => ()) (fun _ _ _ _ => rfl) hrow
  intro hnone
  rw [hnone] at hfixed
  cases hfixed

/-- A row that waits is changed by the commit of the start poll only. -/
theorem RowChange.upcoming {s t : Sys} {act : Act} {a : Uuid} (h : RowChange s act t a)
    (hact : act ≠ .startCommit false) {row : Auction} (hrow : s.pg.auction a = some row)
    (hstate : row.state = .upcoming) : t.pg.auction a = some row := by
  cases h with
  | kept h => rw [h, hrow]
  | stored _ hnone => rw [hrow] at hnone; cases hnone
  | started h => exact absurd h hact
  | closed _ hrow' hstate' =>
    obtain rfl := Option.some.inj (hrow.symm.trans hrow')
    rw [hstate] at hstate'
    cases hstate'

/-- An active row is changed by the commit of the close poll only. -/
theorem RowChange.active {s t : Sys} {act : Act} {a : Uuid} (h : RowChange s act t a)
    (hact : act ≠ .closeCommit false) {row : Auction} (hrow : s.pg.auction a = some row)
    (hstate : row.state = .active) : t.pg.auction a = some row := by
  cases h with
  | kept h => rw [h, hrow]
  | stored _ hnone => rw [hrow] at hnone; cases hnone
  | started _ hrow' hstate' =>
    obtain rfl := Option.some.inj (hrow.symm.trans hrow')
    rw [hstate] at hstate'
    cases hstate'
  | closed h => exact absurd h hact

/-- There is a row only after its creation has committed. -/
theorem RowChange.eq_none {s t : Sys} {act : Act} {a : Uuid} (h : RowChange s act t a)
    (hrow : s.pg.auction a = none)
    (hcommit : ∀ row, s.creates a = some ⟨row, .commit⟩ → act ≠ .createStep a false) :
    t.pg.auction a = none := by
  cases h with
  | kept heq => rw [heq, hrow]
  | stored hact _ src => exact absurd hact (hcommit _ src)
  | started _ hrow₀ => cases hrow.symm.trans hrow₀
  | closed _ hrow₀ => cases hrow.symm.trans hrow₀

/-- A row that is closed was so before, or is one of those that the close poll commits. -/
theorem RowChange.of_closed {s t : Sys} {act : Act} {a : Uuid} (h : RowChange s act t a)
    {row : Auction} (hrow : t.pg.auction a = some row) (hupcoming : row.state ≠ .upcoming)
    (hactive : row.state ≠ .active) :
    s.pg.auction a = some row ∨ ∃ row₀ p, act = .closeCommit false ∧
      s.pg.auction a = some row₀ ∧ row₀.state = .active ∧ s.closes = some p ∧
      (a, row) ∈ p.dirty := by
  cases h with
  | kept heq => exact Or.inl (heq ▸ hrow)
  | stored _ _ _ hnew heq =>
    obtain rfl := Option.some.inj (heq.symm.trans hrow)
    exact absurd hnew.state (not_or.mpr ⟨hupcoming, hactive⟩)
  | started _ _ _ heq =>
    obtain rfl := Option.some.inj (heq.symm.trans hrow)
    exact absurd rfl hactive
  | closed hact hrow₀ hstate _ heq src hmem =>
    obtain rfl := Option.some.inj (heq.symm.trans hrow)
    exact Or.inr ⟨_, _, hact, hrow₀, hstate, src, hmem⟩

/-! ### The polls -/

theorem StartsOk.kept {s t : Sys} {act : Act} {p : StartPoll} (hs : AuctionsInv s)
    (h : SysStep s act t) (hact : act ≠ .startCommit false) (hp : StartsOk s.pg p) :
    StartsOk t.pg p where
  nodup := hp.nodup
  todo := fun b hb => by
    obtain ⟨hrow, hstate⟩ := hp.todo b hb
    exact ⟨((h.row b.1).change hs).upcoming hact hrow hstate, hstate⟩
  dirty := fun b hb => by
    obtain ⟨row, hrow, hstate, heq⟩ := hp.dirty b hb
    exact ⟨row, ((h.row b.1).change hs).upcoming hact hrow hstate, hstate, heq⟩

/-- The start poll holds the rows of the table, step after step. -/
theorem startsOk_step {s t : Sys} {act : Act} (hs : AuctionsInv s) (h : SysStep s act t)
    {p : StartPoll} (hp : t.starts = some p) : StartsOk t.pg p := by
  cases h.startPoll with
  | kept hact poll => exact (hs.starts p (poll ▸ hp)).kept hs h hact
  | selected hact hidle hbatch poll =>
    rw [poll, Option.some.injEq] at hp
    subst hp
    refine StartsOk.kept hs h (by rw [hact]; simp) ⟨by simpa using hbatch.nodup, ?_, ?_⟩
    · intro b hb
      exact ⟨(hbatch.rows b hb).1, (of_decide_eq_true (hbatch.rows b hb).2).1⟩
    · simp
  | started hact src poll =>
    rw [poll, Option.some.injEq] at hp
    subst hp
    have hold := hs.starts _ src
    refine StartsOk.kept hs h (by rw [hact]; simp) ⟨?_, ?_, ?_⟩
    · have := hold.nodup
      simp only [List.cons_append, List.map_cons, List.map_append, List.nodup_cons] at this
      rw [← List.append_assoc, List.map_append, List.nodup_append]
      simp only [List.map_append, List.map_cons, List.map_nil]
      refine ⟨this.2, List.nodup_singleton _, ?_⟩
      intro x hx y hy hxy
      rw [List.mem_singleton] at hy
      exact this.1 (hy ▸ hxy ▸ hx)
    · intro b hb
      exact hold.todo b (List.mem_cons_of_mem _ hb)
    · intro b hb
      rcases List.mem_append.mp hb with hb | hb
      · exact hold.dirty b hb
      · obtain ⟨hrow, hstate⟩ := hold.todo _ List.mem_cons_self
        rw [List.mem_singleton.mp hb]
        exact ⟨_, hrow, hstate, rfl⟩
  | gone _ poll => rw [poll] at hp; cases hp

theorem ClosesOk.kept {s t : Sys} {act : Act} {p : ClosePoll} (hs : AuctionsInv s)
    (h : SysStep s act t) (hact : act ≠ .closeCommit false) (hp : ClosesOk s.pg p) :
    ClosesOk t.pg p where
  nodup := hp.nodup
  todo := fun b hb => by
    obtain ⟨hrow, hstate, hdue⟩ := hp.todo b hb
    exact ⟨((h.row b.1).change hs).active hact hrow hstate, hstate, hdue⟩
  obj := hp.obj
  dirty := fun b hb => by
    obtain ⟨row, hrow, hstate, hclosing⟩ := hp.dirty b hb
    exact ⟨row, ((h.row b.1).change hs).active hact hrow hstate, hstate, hclosing⟩

theorem closing_assign (data : Option AuctionHash) (row : Auction) :
    Closing row (assignWinner data row).row := by
  refine ⟨?_, by simp [assignWinner_state]⟩
  unfold assignWinner
  split
  · rfl
  · split <;> rfl

theorem Closing.flush {users : List Uuid} {row : Auction} {obj obj' : AuctionObj}
    (h : Closing row obj.row) (hflush : flushAuction users obj = some obj') :
    Closing row obj'.row := by
  have heq := (flushAuction_row hflush).1
  constructor
  · rw [heq, h.same]
  · rw [heq]
    exact h.state

theorem Closing.settle {row : Auction} {obj obj' : AuctionObj} (h : Closing row obj.row)
    (hsettle : resolveSettlementInner obj = some obj') : Closing row obj'.row := by
  by_cases hclosed : obj.row.state = .closed
  · rcases settle_cases hclosed hsettle with ⟨-, heq⟩ | heq
    · exact ⟨by rw [heq, h.same], by rw [heq]; simp⟩
    · exact ⟨by rw [heq, h.same], by rw [heq]; simp⟩
  · rw [resolveSettlementInner, if_pos hclosed, Option.some.injEq] at hsettle
    exact hsettle ▸ h

/-- The loop goes on: the object at hand, changed or not, is done. -/
theorem ClosesOk.next {pg : Pg} {p : ClosePoll} (hp : ClosesOk pg p) {a : Uuid} {row : Auction}
    {rest : List (Uuid × Auction)} (htodo : p.todo = (a, row) :: rest)
    {changed : List (Uuid × Auction)} (hchanged : changed = [] ∨ ∃ row', changed = [(a, row')] ∧
      Closing row row') : ClosesOk pg (p.next changed) := by
  have hrest : (p.next changed).todo = rest := by rw [ClosePoll.next, htodo]; rfl
  obtain ⟨hrow, hstate, -⟩ := hp.todo (a, row) (by rw [htodo]; exact List.mem_cons_self)
  refine ⟨?_, ?_, ?_, ?_⟩
  · apply ClosePoll.nodup_next htodo hp.nodup
    rcases hchanged with rfl | ⟨row', rfl, -⟩
    · exact List.nil_sublist _
    · exact List.Sublist.refl _
  · intro b hb
    rw [hrest] at hb
    exact hp.todo b (by rw [htodo]; exact List.mem_cons_of_mem _ hb)
  · intro obj hobj
    rcases hobj with hobj | hobj <;> cases hobj
  · intro b hb
    rcases List.mem_append.mp hb with hb | hb
    · exact hp.dirty b hb
    · rcases hchanged with rfl | ⟨row', rfl, hclosing⟩
      · cases hb
      · rw [List.mem_singleton.mp hb]
        exact ⟨row, hrow, hstate, hclosing⟩

/-- The close poll holds the rows of the table, step after step. -/
theorem closesOk_step {s t : Sys} {act : Act} (hs : AuctionsInv s) (h : SysStep s act t)
    {p : ClosePoll} (hp : t.closes = some p) : ClosesOk t.pg p := by
  cases h.closePoll with
  | kept hact _ poll => exact (hs.closes p (poll ▸ hp)).kept hs h hact
  | selected hact hidle hbatch poll =>
    rw [poll, Option.some.injEq] at hp
    subst hp
    refine ClosesOk.kept hs h (by rw [hact]; simp) ⟨by simpa using hbatch.nodup, ?_, ?_, ?_⟩
    · intro b hb
      obtain ⟨hrow, hdue⟩ := hbatch.rows b hb
      exact ⟨hrow, of_decide_eq_true hdue⟩
    · rintro obj (hobj | hobj) <;> cases hobj
    · simp
  | @closed fault q a row rest hact src htodo hmove =>
    have hq := (hs.closes q src)
    apply ClosesOk.kept hs h (by rw [hact]; simp)
    have hobj : ∀ obj, q.pc = .flush obj ∨ q.pc = .hset obj → Closing row obj.row := fun obj hpc =>
      hq.obj obj hpc (a, row) (by rw [htodo]; rfl)
    rw [hp] at hmove
    generalize t.redis = r at hmove
    cases hmove with
    | skipped => exact hq.next htodo (Or.inl rfl)
    | extended hpc hext =>
      obtain ⟨hrow, -, hdue⟩ := hq.todo (a, row) (by rw [htodo]; exact List.mem_cons_self)
      rw [extendedEnd_of_le hdue fun h e hh he => (hs.hashes a row h hrow hh).endTs e he] at hext
      cases hext
    | checked hpc hext =>
      refine ⟨hq.nodup, hq.todo, ?_, hq.dirty⟩
      rintro obj (hobj | hobj) <;> cases hobj
    | assigned hpc =>
      refine ⟨hq.nodup, hq.todo, ?_, hq.dirty⟩
      intro obj hobj b hb
      rcases hobj with hobj | hobj
      · cases hobj
        simp only [htodo, List.head?_cons, Option.mem_some_iff] at hb
        exact hb ▸ closing_assign _ _
      · cases hobj
    | unsettled hpc hflush hraise =>
      exact hq.next htodo (Or.inr ⟨_, rfl, (hobj _ (Or.inl hpc)).flush hflush⟩)
    | settled hpc hflush hsettle =>
      refine ⟨hq.nodup, hq.todo, ?_, hq.dirty⟩
      intro obj hobj' b hb
      rcases hobj' with hobj' | hobj'
      · cases hobj'
      · cases hobj'
        simp only [htodo, List.head?_cons, Option.mem_some_iff] at hb
        exact hb ▸ ((hobj _ (Or.inl hpc)).flush hflush).settle hsettle
    | closed hpc => exact hq.next htodo (Or.inr ⟨_, rfl, hobj _ (Or.inr hpc)⟩)
    | unclosed _ hpc => exact hq.next htodo (Or.inr ⟨_, rfl, hobj _ (Or.inr hpc)⟩)
  | gone poll => rw [poll] at hp; cases hp

/-- **No end was moved**: the extension branch of the close poll is not taken. -/
theorem extendedEnd_of_due {s : Sys} (hs : AuctionsInv s) {a : Uuid} {row : Auction} {nowUtc : ℤ}
    (hrow : s.pg.auction a = some row) (hdue : row.endTs ≤ nowUtc) :
    extendedEnd nowUtc (s.redis.hash a) = none :=
  extendedEnd_of_le hdue fun h e hh he => (hs.hashes a row h hrow hh).endTs e he

/-! ### Every run -/

/-- The next auction of the start poll is committed and waits. -/
theorem AuctionsInv.row_of_starts {s : Sys} (hs : AuctionsInv s) {a : Uuid} {row : Auction}
    {rest dirty : List (Uuid × Auction)} (hp : s.starts = some ⟨(a, row) :: rest, dirty⟩) :
    s.pg.auction a = some row ∧ row.state = .upcoming :=
  (hs.starts _ hp).todo _ List.mem_cons_self

/-- The next auction of the close poll is committed and active. -/
theorem AuctionsInv.row_of_closes {s : Sys} (hs : AuctionsInv s) {p : ClosePoll}
    (hp : s.closes = some p) {a : Uuid} {row : Auction} {rest : List (Uuid × Auction)}
    (htodo : p.todo = (a, row) :: rest) : s.pg.auction a = some row ∧ row.state = .active := by
  obtain ⟨hrow, hstate, -⟩ := (hs.closes p hp).todo (a, row) (htodo ▸ List.mem_cons_self)
  exact ⟨hrow, hstate⟩

/-- The end of the auction at hand was not moved. -/
theorem AuctionsInv.not_moved {s : Sys} (hs : AuctionsInv s) {p : ClosePoll}
    (hp : s.closes = some p) {a : Uuid} {row : Auction} {rest : List (Uuid × Auction)}
    (htodo : p.todo = (a, row) :: rest) : extendedEnd p.nowUtc (s.redis.hash a) = none := by
  obtain ⟨hrow, -, hdue⟩ := (hs.closes p hp).todo (a, row) (htodo ▸ List.mem_cons_self)
  exact extendedEnd_of_due hs hrow hdue

/-- What is claimed of a close poll: of the object that is to be flushed and of the one whose state
goes to the hash, each with the auctions that are left, and of the rows of the session. -/
structure ClosesHold (F H : List (Uuid × Auction) → AuctionObj → Prop) (D : Uuid × Auction → Prop)
    (p : ClosePoll) : Prop where
  /-- The object that is to be flushed. -/
  flush : ∀ obj, p.pc = .flush obj → F p.todo obj
  /-- The object whose state goes to the hash. -/
  hset : ∀ obj, p.pc = .hset obj → H p.todo obj
  /-- The rows of the session. -/
  dirty : ∀ b ∈ p.dirty, D b

/-- The poll goes on with the next auction, and the session has one more row. -/
theorem ClosesHold.next {F H : List (Uuid × Auction) → AuctionObj → Prop}
    {D : Uuid × Auction → Prop} {p : ClosePoll} (h : ClosesHold F H D p) {b : Uuid × Auction} (hb : D b) :
    ClosesHold F H D (p.next [b]) where
  flush := fun _ hpc => by cases hpc
  hset := fun _ hpc => by cases hpc
  dirty := by
    intro b' hb'
    rcases List.mem_append.mp hb' with hb' | hb'
    · exact h.dirty b' hb'
    · rwa [List.mem_singleton.mp hb']

/-- **One close after the other**: what is claimed of a close poll holds after a step when assigning
the winner, flushing, settling and writing the hash keep it. -/
theorem AuctionsInv.closesHold {s t : Sys} {act : Act} (hs : AuctionsInv s) (h : SysStep s act t)
    {F H : List (Uuid × Auction) → AuctionObj → Prop} {D : Uuid × Auction → Prop}
    (hold : ∀ p, s.closes = some p → ClosesHold F H D p)
    (hassign : ∀ a row rest, F ((a, row) :: rest) (assignWinner (s.redis.hash a) row))
    (hflush : ∀ a row rest obj obj', s.pg.auction a = some row → row.state = .active →
      F ((a, row) :: rest) obj → flushAuction s.pg.users obj = some obj' →
      (resolveSettlementInner obj' = none → D (a, obj'.row)) ∧
      ∀ obj'', resolveSettlementInner obj' = some obj'' → H ((a, row) :: rest) obj'')
    (hhset : ∀ a row rest obj, H ((a, row) :: rest) obj → D (a, obj.row)) {p : ClosePoll}
    (hp : t.closes = some p) : ClosesHold F H D p := by
  cases h.closePoll with
  | kept _ _ poll => exact hold p (poll ▸ hp)
  | selected _ _ _ poll =>
    rw [poll, Option.some.injEq] at hp
    subst hp
    exact ⟨(fun _ hpc => by cases hpc), (fun _ hpc => by cases hpc), fun _ hb => by cases hb⟩
  | @closed fault q a row rest hact src htodo hmove =>
    have hq := hold q src
    obtain ⟨hrow, hactive⟩ := hs.row_of_closes src htodo
    have hflushed : ∀ {obj obj'}, q.pc = .flush obj → flushAuction s.pg.users obj = some obj' →
        _ := fun hpc hobj' => hflush a row rest _ _ hrow hactive (htodo ▸ hq.flush _ hpc) hobj'
    rw [hp] at hmove
    generalize t.redis = r at hmove
    cases hmove with
    | skipped =>
      refine ⟨(fun _ hpc => by cases hpc), (fun _ hpc => by cases hpc), fun b hb => hq.dirty b ?_⟩
      simpa [ClosePoll.next] using hb
    | extended _ hext => cases (hs.not_moved src htodo).symm.trans hext
    | checked => exact ⟨(fun _ hpc => by cases hpc), (fun _ hpc => by cases hpc), hq.dirty⟩
    | assigned =>
      refine ⟨?_, (fun _ hpc => by cases hpc), hq.dirty⟩
      rintro obj ⟨⟩
      exact htodo ▸ hassign a row rest
    | unsettled hpc hobj' hraise => exact hq.next ((hflushed hpc hobj').1 hraise)
    | settled hpc hobj' hsettle =>
      refine ⟨(fun _ hpc => by cases hpc), ?_, hq.dirty⟩
      rintro obj ⟨⟩
      exact htodo ▸ (hflushed hpc hobj').2 _ hsettle
    | closed hpc | unclosed _ hpc => exact hq.next (hhset a row rest _ (htodo ▸ hq.hset _ hpc))
  | gone poll => rw [poll] at hp; cases hp

/-- A pending row, step after step. -/
theorem pending_step {s t : Sys} {act : Act} (hs : AuctionsInv s) (h : SysStep s act t) {a : Uuid}
    {c : Create} (hc : t.creates a = some c) (hpc : c.pc ≠ .ended) :
    t.pg.auction a = none ∧ NewRow c.row ∧ ∀ h, t.redis.hash a = some h → OfRow c.row h := by
  have hchange := (h.row a).change hs
  cases h.creation a with
  | kept hact create =>
    obtain ⟨hnone, hnew, hend⟩ := hs.pending a c (create ▸ hc) hpc
    refine ⟨hchange.eq_none hnone fun _ _ => hact, hnew, ?_⟩
    intro h' hh
    cases h.hash a with
    | kept hash log => exact hend h' (hash ▸ hh)
    | opened hact' => exact absurd hact' hact
    | started _ src => cases hnone.symm.trans (hs.row_of_starts src).1
    | booked _ _ _ _ _ hfound _ hash =>
      rw [hash, Option.some.injEq] at hh
      exact hh ▸ ofRow_book (hend _ hfound) _
    | closed _ src _ htodo => cases hnone.symm.trans (hs.row_of_closes src htodo).1
    | lost _ hash => rw [hash] at hh; cases hh
  | created hact hnew hcreate hstart hinc world create =>
    rw [create, Option.some.injEq] at hc
    subst hc
    obtain ⟨hnone, hhash⟩ := hs.fresh a hnew
    refine ⟨by rw [world]; exact hnone, createAuction_row hcreate hstart hinc, ?_⟩
    intro h' hh
    rw [world, hhash] at hh
    cases hh
  | opened hact src hash create =>
    rw [create, Option.some.injEq] at hc
    subst hc
    obtain ⟨hnone, hnew, -⟩ := hs.pending a _ src (by simp)
    refine ⟨hchange.eq_none hnone ?_, hnew, ?_⟩
    · intro row src'
      rw [src] at src'
      cases src'
    · intro h' hh
      rw [hash, Option.some.injEq] at hh
      exact hh ▸ ofRow_init _ _
  | ended src create =>
    rw [create, Option.some.injEq] at hc
    subst hc
    exact absurd rfl hpc

/-- A hash holds the end and the increment of its row, step after step. -/
theorem hashes_step {s t : Sys} {act : Act} (hs : AuctionsInv s) (h : SysStep s act t) {a : Uuid}
    {row : Auction} {h' : AuctionHash} (hrow : t.pg.auction a = some row)
    (hh : t.redis.hash a = some h') : OfRow row h' := by
  have hchange := (h.row a).change hs
  -- a step that writes the hash leaves the row
  have hsame : ∀ {row₀}, act ≠ .createStep a false → act ≠ .startCommit false →
      act ≠ .closeCommit false → s.pg.auction a = some row₀ → row₀ = row := by
    intro row₀ h₁ h₂ h₃ hrow₀
    cases hchange with
    | kept heq => rw [heq, hrow₀] at hrow; exact Option.some.inj hrow
    | stored hact => exact absurd hact h₁
    | started hact => exact absurd hact h₂
    | closed hact => exact absurd hact h₃
  cases h.hash a with
  | kept hash log =>
    rw [hash] at hh
    cases hchange with
    | kept heq => exact hs.hashes a row h' (heq ▸ hrow) hh
    | stored _ _ src _ heq =>
      rw [heq, Option.some.injEq] at hrow
      exact hrow ▸ (hs.pending a _ src (by simp)).2.2 h' hh
    | started _ hrow₀ _ heq =>
      rw [heq, Option.some.injEq] at hrow
      exact hrow ▸ (hs.hashes a _ h' hrow₀ hh).of_same rfl rfl
    | closed _ hrow₀ _ hclosing heq =>
      rw [heq, Option.some.injEq] at hrow
      refine hrow ▸ (hs.hashes a _ h' hrow₀ hh).of_same ?_ ?_ <;> rw [hclosing.same]
  | opened hact src =>
    -- its creation has not committed, so there is no row
    have hnone := hchange.eq_none (hs.pending a _ src (by simp)).1 fun _ src' => by
      cases src.symm.trans src'
    cases hrow.symm.trans hnone
  | started hact src hash =>
    obtain ⟨hrow₀, -⟩ := hs.row_of_starts src
    obtain rfl := hsame (by rw [hact]; simp) (by rw [hact]; simp) (by rw [hact]; simp) hrow₀
    rw [hash, Option.some.injEq] at hh
    exact hh ▸ ofRow_init _ _
  | booked hact _ _ _ _ hfound _ hash =>
    rw [hash, Option.some.injEq] at hh
    cases hrow₀ : s.pg.auction a with
    | none => cases hrow.symm.trans (hchange.eq_none hrow₀ fun _ _ => by rw [hact]; simp)
    | some row₀ =>
      obtain rfl := hsame (by rw [hact]; simp) (by rw [hact]; simp) (by rw [hact]; simp) hrow₀
      exact hh ▸ ofRow_book (hs.hashes a _ _ hrow₀ hfound) _
  | closed hact src _ htodo hash =>
    obtain ⟨hrow₀, -⟩ := hs.row_of_closes src htodo
    obtain rfl := hsame (by rw [hact]; simp) (by rw [hact]; simp) (by rw [hact]; simp) hrow₀
    rw [hash, Option.some.injEq] at hh
    exact hh ▸ OfRow.setState (fun h₀ hold => hs.hashes a _ h₀ hrow₀ hold) _
  | lost _ hash => rw [hash] at hh; cases hh

/-- A moving call has loaded its row, or finds it now. -/
theorem row_of_loaded {b : Uuid} {c : Call} {w w' : World} {pc : Pc} (h : CallStep b c w w' pc)
    (hloaded : pc.loaded = true) (hold : c.pc.loaded = true → w.pg.auction c.auctionId ≠ none) :
    w.pg.auction c.auctionId ≠ none := by
  cases h with
  | found hpc hrow => rw [hrow]; simp
  | notFound => cases hloaded
  | noScript => cases hloaded
  | committed => cases hloaded
  | raised => cases hloaded
  | appended hpc | script hpc | looked hpc | flushed hpc | selected hpc | proxied hpc
  | published hpc => exact hold (by rw [hpc]; rfl)

/-- An auction that was not created has no row and no hash, step after step. -/
theorem fresh_step {s t : Sys} {act : Act} (hs : AuctionsInv s) (h : SysStep s act t) {a : Uuid}
    (hfresh : t.creates a = none) : t.pg.auction a = none ∧ t.redis.hash a = none := by
  cases h.creation a with
  | kept hact create =>
    obtain ⟨hrow, hhash⟩ := hs.fresh a (create ▸ hfresh)
    refine ⟨((h.row a).change hs).eq_none hrow fun _ _ => hact, ?_⟩
    cases h.hash a with
    | kept hash => rw [hash, hhash]
    | opened hact' => exact absurd hact' hact
    | started _ src => cases hrow.symm.trans (hs.row_of_starts src).1
    | booked _ _ _ _ _ hfound => cases hhash.symm.trans hfound
    | closed _ src _ htodo => cases hrow.symm.trans (hs.row_of_closes src htodo).1
    | lost _ hash => exact hash
  | created _ _ _ _ _ _ create => cases create.symm.trans hfresh
  | opened _ _ _ create => cases create.symm.trans hfresh
  | ended _ create => cases create.symm.trans hfresh

/-- An auction without a row has no accepted bid, step after step. -/
theorem unaccepted_step {s t : Sys} {act : Act} (hs : AuctionsInv s) (h : SysStep s act t)
    {a : Uuid} (hnone : t.pg.auction a = none) : t.accepted a = [] := by
  have hold : s.pg.auction a = none := by
    by_contra hsome
    exact ((h.row a).change hs).isSome hsome hnone
  cases h.hash a with
  | booked _ src hpc hauction =>
    exact absurd hold (hauction ▸ hs.loaded _ _ src (by rw [hpc]; rfl))
  | kept _ log | opened _ _ _ log | started _ _ _ log | closed _ _ _ _ _ log | lost _ _ log =>
    rw [log]
    exact hs.accepted a hold

/-- The auction of a call that has loaded it is there, step after step. -/
theorem loaded_step {s t : Sys} {act : Act} (hs : AuctionsInv s) (h : SysStep s act t) {b : Uuid}
    {c : Call} (hc : t.bids b = some c) (hloaded : c.pc.loaded = true) :
    t.pg.auction c.auctionId ≠ none := by
  apply ((h.row _).change hs).isSome
  cases h.bid b with
  | kept call => exact hs.loaded b c (call ▸ hc) hloaded
  | called _ _ _ call =>
    obtain rfl := Option.some.inj (call.symm.trans hc)
    cases hloaded
  | @moved _ c₀ pc _ src _ hmove call =>
    obtain rfl := Option.some.inj (call.symm.trans hc)
    exact row_of_loaded (c := c₀) hmove hloaded (hs.loaded b c₀ src)
  | crashed _ _ _ call =>
    obtain rfl := Option.some.inj (call.symm.trans hc)
    cases hloaded

/-- A committed row is sound, step after step. -/
theorem rowOk_step {s t : Sys} {act : Act} (hs : AuctionsInv s) (h : SysStep s act t) {a : Uuid}
    {row : Auction} (hrow : t.pg.auction a = some row) : RowOk row := by
  cases (h.row a).change hs with
  | kept heq => exact hs.rows a row (heq ▸ hrow)
  | stored _ _ _ hnew heq =>
    obtain rfl := Option.some.inj (heq.symm.trans hrow)
    exact ⟨fun _ => ⟨hnew.noBid, hnew.noWinner⟩, hnew.increment⟩
  | started _ hrow₀ hstate heq =>
    obtain rfl := Option.some.inj (heq.symm.trans hrow)
    have hold := hs.rows a _ hrow₀
    exact ⟨fun _ => hold.unclosed (Or.inl hstate), hold.increment⟩
  | closed _ hrow₀ _ hclosing heq =>
    obtain rfl := Option.some.inj (heq.symm.trans hrow)
    constructor
    · intro hstate
      exact absurd hstate (not_or.mpr hclosing.state)
    · rw [hclosing.same]
      exact (hs.rows a _ hrow₀).increment

/-- **The invariant is kept by every step.** -/
theorem auctionsInv_step {s t : Sys} {act : Act} (hs : AuctionsInv s)
    (hstep : step s act = some t) : AuctionsInv t where
  fresh := fun _ hfresh => fresh_step hs (step_cases hstep) hfresh
  pending := fun _ _ hc hpc => pending_step hs (step_cases hstep) hc hpc
  accepted := fun _ hnone => unaccepted_step hs (step_cases hstep) hnone
  loaded := fun _ _ hc hloaded => loaded_step hs (step_cases hstep) hc hloaded
  rows := fun _ _ hrow => rowOk_step hs (step_cases hstep) hrow
  hashes := fun _ _ _ hrow hh => hashes_step hs (step_cases hstep) hrow hh
  starts := fun _ hp => startsOk_step hs (step_cases hstep) hp
  closes := fun _ hp => closesOk_step hs (step_cases hstep) hp

theorem auctionsInv_initial (now : ℤ) (users : List Uuid) : AuctionsInv (.initial now users) := by
  refine ⟨fun _ _ => ⟨rfl, rfl⟩, ?_, fun _ _ => rfl, ?_, ?_, ?_, ?_, ?_⟩ <;>
  simp [Sys.initial]

/-- **The invariant holds in every run**, whatever its steps. -/
theorem auctionsInv_of_reach {ok : Sys → Act → Sys → Prop} {now : ℤ} {users : List Uuid} {s : Sys}
    (hrun : Reach step ok (.initial now users) s) : AuctionsInv s :=
  hrun.invariant (fun hs hstep _ => auctionsInv_step hs hstep) (auctionsInv_initial now users)

/-- A closed row stays as it is, in any run. -/
theorem row_final {ok : Sys → Act → Sys → Prop} {s t : Sys} (hs : AuctionsInv s)
    (ht : Reach step ok s t) {a : Uuid} {row : Auction} (hrow : s.pg.auction a = some row)
    (hupcoming : row.state ≠ .upcoming) (hactive : row.state ≠ .active) :
    t.pg.auction a = some row := by
  refine (ht.invariant (I := fun s => AuctionsInv s ∧ s.pg.auction a = some row) ?_ ⟨hs, hrow⟩).2
  rintro s act t ⟨hs, hrow⟩ hstep -
  refine ⟨auctionsInv_step hs hstep, ?_⟩
  cases ((step_cases hstep).row a).change hs with
  | kept heq => exact heq.trans hrow
  | stored _ hnone => cases hrow.symm.trans hnone
  | started _ hrow' hstate =>
    obtain rfl := Option.some.inj (hrow.symm.trans hrow')
    exact absurd hstate hupcoming
  | closed _ hrow' hstate =>
    obtain rfl := Option.some.inj (hrow.symm.trans hrow')
    exact absurd hstate hactive

end OnlineAuction.System
