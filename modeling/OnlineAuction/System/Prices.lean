import OnlineAuction.Lifecycle.Retry
import OnlineAuction.Search.SearchService
import OnlineAuction.System.BidTable

/-!
# One price, read three ways

The price of an auction is the amount of its highest accepted bid, or its starting price while it
has none. `get_auction_detail` takes it from the hash, or from the row when there is no hash;
`search_auctions` prints and filters by the price of the row. A bid writes the hash only, a close
writes the row, and a hash is opened with `0.00`.

## What is proved

* `pricesInv_step` — what a step preserves (`PricesInv`): an opened hash has the last accepted
  amount, which is the highest, and a closed row has an accepted one; hashes may be lost.
* `pricesAgree_iff` — in a state in which no call of `place_bid` is running, the three agree on the
  price exactly when the row has the last accepted amount (`RowPriced`) and the hash, if there is
  one, was opened and has seen a bid, or the auction starts at `0.00` without one (`HashPriced`).
-/

namespace OnlineAuction.System

open OnlineAuction.Foundation OnlineAuction.Store OnlineAuction.Lifecycle OnlineAuction.Bidding
  OnlineAuction.Search

/-! ### The price -/

/-- The price of an auction: the amount of its highest accepted bid, its starting price while it has
none. -/
def IsPrice (pg : Pg) (a : Uuid) (row : Auction) (price : Number) : Prop :=
  acceptedBids pg a = [] ∧ price = row.startingPrice.value ∨
    ∃ bid ∈ acceptedBids pg a, price = bid.amount.value ∧
      ∀ bid' ∈ acceptedBids pg a, bid'.amount.value ≤ bid.amount.value

/-- The three readers show one price, and it is the price of the auction. -/
def PricesAgree (s : Sys) (a : Uuid) (row : Auction) (detail : AuctionDetail) : Prop :=
  ∃ price, IsPrice s.pg a row price ∧ (detail.currentPrice.getD (.dec 0)).value = price ∧
    (searchItem a row).currentPrice.value = price ∧ (filterPrice row).value = price

/-- The row has the last accepted amount, if a bid was accepted: in its highest bid or, while that
is null, by its starting price. -/
def RowPriced (s : Sys) (a : Uuid) (row : Auction) : Prop :=
  ∀ e ∈ (s.accepted a).getLast?, (filterPrice row).value = e.argv.amount.value

/-- A hash was opened and has seen a bid, or the auction starts at `0.00` and has no bid. -/
def HashPriced (s : Sys) (a : Uuid) (row : Auction) : Prop :=
  ∀ h, s.redis.hash a = some h → h.highestBid ≠ none ∧ s.accepted a ≠ [] ∨
    s.accepted a = [] ∧ row.startingPrice.value = .fin 0

/-! ### Runs in which the price of an auction does not fall -/

/-- A step on the auction `a` accepts a bid in whole cents only, not below the price where the
increment is a NaN, and does not open its hash again once a bid was accepted. -/
def pricedOn (a : Uuid) (s : Sys) (act : Act) : Bool :=
  ((scriptRun s act).all fun (c, argv) => acceptsOn s act = some a → wholeCents c.data.amount ∧
    (s.redis.hash a).all fun h => h.minIncrement = some .nan →
      currentPrice double h.highestBid ≤ tonumber double argv.amount) &&
  match act with
  | .startStep false => s.starts.all fun p => p.todo.head?.all fun b =>
      b.1 = a → (s.accepted a).isEmpty
  | _ => true

/-- A leader of the hash leads with an accepted amount. -/
def LeadsWith (log : List Accept) (data : Option AuctionHash) : Prop :=
  ∀ h b, data = some h → h.highestBidder = some (some b) →
    ∃ e ∈ log, h.highestBid = some e.argv.amount

/-- The highest bid of a row is an accepted amount. -/
def BidIn (log : List Accept) (row : Auction) : Prop :=
  ∀ d, row.highestBid = some d → ∃ e ∈ log, d.value = e.argv.amount.value

/-- What such runs keep. -/
structure PricesInv (s : Sys) (a : Uuid) : Prop where
  /-- The auctions. -/
  auctions : AuctionsInv s
  /-- The calls. -/
  calls : CallsInv s
  /-- The starting price is not negative. -/
  starting : ∀ row, s.pg.auction a = some row → Numeric.NonNeg row.startingPrice
  /-- Bids are accepted in whole cents. -/
  cents : AcceptsCents s a
  /-- A hash that was never opened has no bid. -/
  unopened : ∀ h, s.redis.hash a = some h → h.minIncrement = none →
    h.highestBid = none ∧ h.highestBidder = none
  /-- A hash that was opened follows from the history. -/
  opened : ∀ h, s.redis.hash a = some h → h.minIncrement ≠ none → Tracks h (s.accepted a)
  /-- The amounts do not fall. -/
  rises : (s.accepted a).Pairwise fun e e' => e.argv.amount.value ≤ e'.argv.amount.value
  /-- The object to be flushed is assigned from a hash that leads with an accepted amount. -/
  flush : ∀ p obj row, s.closes = some p → p.pc = .flush obj → (a, row) ∈ p.todo.head? →
    ∃ data, LeadsWith (s.accepted a) data ∧ obj = assignWinner data row
  /-- The object whose state goes to the hash has an accepted amount. -/
  hset : ∀ p obj row, s.closes = some p → p.pc = .hset obj → (a, row) ∈ p.todo.head? →
    BidIn (s.accepted a) obj.row
  /-- So has the row of the session. -/
  dirty : ∀ p row, s.closes = some p → (a, row) ∈ p.dirty → BidIn (s.accepted a) row
  /-- So has the row of the table. -/
  rows : ∀ row, s.pg.auction a = some row → BidIn (s.accepted a) row

/-- Cents that an accepted bid can have. -/
def IsCents (d : DecStr) : Prop := ∃ c : ℤ, 0 < c ∧ c < 10 ^ 12 ∧ d = .dec c

theorem IsCents.price {d : DecStr} (h : IsCents d) : Price d := by
  obtain ⟨c, hpos, -, rfl⟩ := h
  exact Or.inr ⟨c, hpos.le, rfl⟩

theorem IsCents.printed {d : DecStr} (h : IsCents d) : d.Printed := by
  obtain ⟨c, hpos, hlt, rfl⟩ := h
  exact ⟨_, (fixed2_cents (abs_lt.mpr ⟨by linarith, hlt⟩)).symm⟩

theorem IsCents.ne_zero {d : DecStr} (h : IsCents d) : d.value ≠ .fin 0 := by
  obtain ⟨c, hpos, -, rfl⟩ := h
  have : (0 : ℚ) < c := by exact_mod_cast hpos
  simp only [DecStr.value, ne_eq, Number.fin.injEq]
  positivity

theorem isCents_of_wholeCents {x : PyFloat} (h : wholeCents x = true) :
    IsCents (toDecimalStr (some (.float x))) := by
  obtain ⟨c, hfits, hpos, hprint, -⟩ := wholeCents_spec h
  exact ⟨c, hpos, (abs_lt.mp hfits).2, hprint⟩

theorem PricesInv.isCents {s : Sys} {a : Uuid} (hs : PricesInv s a) {e : Accept}
    (he : e ∈ s.accepted a) : IsCents e.argv.amount := by
  obtain ⟨c, hc, hcents⟩ := hs.cents e he
  obtain ⟨c', hc', hacc⟩ := hs.calls.history a e he
  obtain rfl := Option.some.inj (hc.symm.trans hc')
  exact hacc.amount ▸ isCents_of_wholeCents hcents

/-- The last accepted amount is the highest. -/
theorem PricesInv.le_last {s : Sys} {a : Uuid} (hs : PricesInv s a) {l e : Accept}
    (hl : (s.accepted a).getLast? = some l) (he : e ∈ s.accepted a) :
    e.argv.amount.value ≤ l.argv.amount.value := by
  have hlast := hs.rises.rel_getLast_of_rel_getLast_getLast he
    (hs.isCents (List.getLast_mem _)).price.le_refl
  rwa [List.getLast_eq_iff_getLast?_eq_some _ |>.mpr hl] at hlast

theorem BidIn.mono {log log' : List Accept} {row : Auction} (h : BidIn log row)
    (hlog : log ⊆ log') : BidIn log' row := by
  intro d hd
  obtain ⟨e, he, hvalue⟩ := h d hd
  exact ⟨e, hlog he, hvalue⟩

theorem LeadsWith.mono {log log' : List Accept} {data : Option AuctionHash} (h : LeadsWith log data)
    (hlog : log ⊆ log') : LeadsWith log' data := by
  intro h' b hh hb
  obtain ⟨e, he, hbid⟩ := h h' b hh hb
  exact ⟨e, hlog he, hbid⟩

section Step

variable {s t : Sys} {act : Act} {a : Uuid}

/-- The hash of the auction leads with an accepted amount. -/
theorem PricesInv.leadsWith (hs : PricesInv s a) : LeadsWith (s.accepted a) (s.redis.hash a) := by
  intro h b hh hb
  by_cases hinc : h.minIncrement = none
  · rw [(hs.unopened h hh hinc).2] at hb
    cases hb
  · have htr := hs.opened h hh hinc
    rw [htr.highestBidder, Option.some.injEq, Option.map_eq_some_iff] at hb
    obtain ⟨e, he, -⟩ := hb
    refine ⟨e, List.mem_of_getLast? he, ?_⟩
    rw [htr.highestBid, he]
    rfl

/-- **A bid that the step accepts** is in whole cents, and not below the last one. -/
theorem le_of_booked (hs : PricesInv s a) (hok : pricedOn a s act = true) {b : Uuid} {c : Call}
    {endTs : ℤ} {h : AuctionHash} (hact : act = .bidStep b false) (hc : s.bids b = some c)
    (hpc : c.pc = .evalsha endTs) (hauction : c.auctionId = a) (hh : s.redis.hash a = some h)
    (hadm : Admits double h (c.argv b endTs)) :
    wholeCents c.data.amount = true ∧
      ∀ l ∈ (s.accepted a).getLast?, l.argv.amount.value ≤ (c.argv b endTs).amount.value := by
  subst hact hauction
  unfold pricedOn at hok
  have hscript := (Bool.and_eq_true_iff.mp hok).1
  rw [scriptRun_of_evalsha hc hpc, Option.all_some, decide_eq_true_eq, hh, Option.all_some,
    decide_eq_true_eq] at hscript
  obtain ⟨hcents, hnan⟩ := hscript (acceptsOn_of_admits hc hpc hh hadm)
  refine ⟨hcents, ?_⟩
  intro l hl
  obtain ⟨endTs', inc, hadm⟩ := hadm
  have htr := hs.opened h hh (by rw [hadm.hasIncrement]; simp)
  have hb : h.highestBid = some l.argv.amount := by rw [htr.highestBid, hl]; rfl
  have hold := hs.isCents (List.mem_of_getLast? hl)
  have hnew : IsCents (c.argv b endTs).amount := isCents_of_wholeCents hcents
  apply value_le_of_tonumber_le hold.printed hnew.printed
  obtain ⟨row, hrow⟩ := Option.ne_none_iff_exists'.mp
    (hs.auctions.loaded b c hc (by rw [hpc]; rfl))
  have hinc := (hs.auctions.hashes _ row h hrow hh).minIncrement inc hadm.hasIncrement
  rcases (hs.auctions.rows _ row hrow).increment.printed with hnan' | ⟨m, hm, -, hdec⟩
  · have := hnan (by rw [hadm.hasIncrement, hinc, hnan'])
    rwa [hb] at this
  · exact current_le_of_admissible hadm hb hold.price hnew.price ⟨m, hm, hinc.trans hdec⟩

/-- The start poll opens the hash of an auction that has no bid yet. -/
theorem accepted_of_started (hok : pricedOn a s act = true) (hact : act = .startStep false)
    {row : Auction} {rest dirty : List (Uuid × Auction)}
    (hp : s.starts = some ⟨(a, row) :: rest, dirty⟩) : s.accepted a = [] := by
  subst hact
  simp only [pricedOn, hp, Bool.and_eq_true, Option.all_some, List.head?_cons, decide_eq_true_eq,
    List.isEmpty_iff] at hok
  exact hok.2 trivial

/-- The hash of the auction, after a step that keeps its history. -/
theorem hash_step (hs : PricesInv s a) (h : SysStep s act t) (hok : pricedOn a s act = true)
    {h' : AuctionHash} (hh : t.redis.hash a = some h') :
    (h'.minIncrement = none → h'.highestBid = none ∧ h'.highestBidder = none) ∧
      (h'.minIncrement ≠ none → Tracks h' (t.accepted a)) := by
  refine ⟨?_, ?_⟩
  · intro hinc
    obtain ⟨-, ⟨-, hnone⟩ | ⟨h₀, hh₀, hinc₀, hbid, hbidder⟩⟩ := unopened_before h hh hinc
    · exact hnone
    · rw [hbid, hbidder]
      exact hs.unopened h₀ hh₀ hinc₀
  · refine tracks_next hs.auctions h hs.opened ?_ hh
    rintro ⟨hact, row, rest, dirty, hp⟩
    exact accepted_of_started hok hact hp

theorem cents_booked_step (hs : PricesInv s a) (h : SysStep s act t)
    (hok : pricedOn a s act = true) :
    AcceptsCents t a ∧
      (t.accepted a).Pairwise fun e e' => e.argv.amount.value ≤ e'.argv.amount.value := by
  have hkept : ∀ e ∈ s.accepted a, ∃ c, t.bids e.argv.bidId = some c ∧
      wholeCents c.data.amount = true := by
    intro e he
    obtain ⟨c, hc, hcents⟩ := hs.cents e he
    obtain ⟨c', hc', hsame⟩ := h.call hc
    exact ⟨c', hc', hsame.data ▸ hcents⟩
  unfold AcceptsCents
  cases h.hash a with
  | booked hact src hpc hauction _ hfound hadmits _ log call =>
    obtain ⟨hcents, hle⟩ := le_of_booked hs hok hact src hpc hauction hfound hadmits
    rw [log]
    constructor
    · intro e he
      rcases List.mem_append.mp he with he | he
      · exact hkept e he
      · rw [List.mem_singleton.mp he]
        exact ⟨_, call, hcents⟩
    · rw [List.pairwise_append]
      refine ⟨hs.rises, List.pairwise_singleton _ _, ?_⟩
      intro e he e' he'
      rw [List.mem_singleton.mp he']
      -- the last amount is between the two
      obtain ⟨l, hl⟩ := Option.ne_none_iff_exists'.mp
        (mt List.getLast?_eq_none_iff.mp (List.ne_nil_of_mem he))
      exact Number.le_trans (hs.le_last hl he) (hle l hl)
  | kept _ log | opened _ _ _ log | started _ _ _ log | closed _ _ _ _ _ log | lost _ _ log =>
    rw [log]
    exact ⟨hkept, hs.rises⟩

/-- The highest bid that the close assigns is stored as it is. -/
theorem bidIn_of_flush (hs : PricesInv s a) {data : Option AuctionHash}
    (hdata : LeadsWith (s.accepted a) data) {row : Auction} (hrow : row.highestBid = none)
    {users : List Uuid} {obj : AuctionObj}
    (hflush : flushAuction users (assignWinner data row) = some obj) :
    BidIn (s.accepted a) obj.row := by
  intro d hd
  unfold flushAuction at hflush
  split_ifs at hflush
  by_cases hlead : HasLeader data
  · obtain ⟨h, b, rfl, hb⟩ := hlead
    obtain ⟨e, he, hbid⟩ := hdata h b rfl hb
    obtain ⟨c, hpos, hlt, hc⟩ := hs.isCents he
    refine ⟨e, he, ?_⟩
    rw [assignWinner_leader hb, hbid, hc] at hflush
    obtain ⟨d', hd', rfl⟩ := Option.map_eq_some_iff.mp hflush
    obtain rfl := Option.some.inj hd
    rw [hc]
    exact numeric_of_cents hpos.le hd'
  · have hassign := assignWinner_nobody (fun h b hd hb => hlead ⟨h, b, hd, hb⟩) row
    rw [hassign, AuctionObj.load, hrow] at hflush
    cases hflush
    cases hd

theorem BidIn.settle {log : List Accept} {obj obj' : AuctionObj} (h : BidIn log obj.row)
    (hclosed : obj.row.state = .closed) (hsettle : resolveSettlementInner obj = some obj') :
    BidIn log obj'.row := by
  rcases settle_cases hclosed hsettle with ⟨-, heq⟩ | heq <;> rw [heq] <;> exact h

/-- **The rows of a close** have accepted amounts. -/
theorem bidIn_close (hs : PricesInv s a) (h : SysStep s act t) {p : ClosePoll}
    (hp : t.closes = some p) :
    (∀ obj row, p.pc = .flush obj → (a, row) ∈ p.todo.head? →
      ∃ data, LeadsWith (t.accepted a) data ∧ obj = assignWinner data row) ∧
    (∀ obj row, p.pc = .hset obj → (a, row) ∈ p.todo.head? → BidIn (t.accepted a) obj.row) ∧
    ∀ row, (a, row) ∈ p.dirty → BidIn (t.accepted a) row := by
  have hlog := (h.log a).subset
  have hholds := hs.auctions.closesHold h (p := p)
    (F := fun todo obj => ∀ row, (a, row) ∈ todo.head? →
      ∃ data, LeadsWith (s.accepted a) data ∧ obj = assignWinner data row)
    (H := fun todo obj => ∀ row, (a, row) ∈ todo.head? → BidIn (s.accepted a) obj.row)
    (D := fun b => b.1 = a → BidIn (s.accepted a) b.2) ?_ ?_ ?_ ?_ hp
  · refine ⟨?_, fun obj row hpc hb => (hholds.hset obj hpc row hb).mono hlog,
      fun row hb => (hholds.dirty _ hb rfl).mono hlog⟩
    intro obj row hpc hb
    obtain ⟨data, hdata, hobj⟩ := hholds.flush obj hpc row hb
    exact ⟨data, hdata.mono hlog, hobj⟩
  · intro q hq
    refine ⟨fun obj hpc row => hs.flush q obj row hq hpc,
      fun obj hpc row => hs.hset q obj row hq hpc, ?_⟩
    rintro ⟨b, row⟩ hb rfl
    exact hs.dirty q row hq hb
  · rintro b row rest row' hb
    cases hb
    exact ⟨_, hs.leadsWith, rfl⟩
  · intro b row rest obj obj' hrow hactive hobj hflush
    have hnone := ((hs.auctions.rows b row hrow).unclosed (Or.inr hactive)).1
    have hbid : b = a → BidIn (s.accepted a) obj'.row ∧ obj'.row.state = .closed := by
      rintro rfl
      obtain ⟨data, hdata, rfl⟩ := hobj row rfl
      exact ⟨bidIn_of_flush hs hdata hnone hflush, flushAuction_state hflush⟩
    refine ⟨fun _ heq => (hbid heq).1, ?_⟩
    intro obj'' hsettle row' hb
    cases hb
    obtain ⟨hin, hclosed⟩ := hbid rfl
    exact hin.settle hclosed hsettle
  · rintro b row rest obj hobj rfl
    exact hobj row rfl

theorem bidIn_row (hs : PricesInv s a) (h : SysStep s act t) {row : Auction}
    (hrow : t.pg.auction a = some row) :
    Numeric.NonNeg row.startingPrice ∧ BidIn (t.accepted a) row := by
  have hlog := (h.log a).subset
  cases (h.row a).change hs.auctions with
  | kept heq =>
    rw [heq] at hrow
    exact ⟨hs.starting row hrow, (hs.rows row hrow).mono hlog⟩
  | stored _ _ _ hnew heq =>
    obtain rfl := Option.some.inj (heq.symm.trans hrow)
    refine ⟨hnew.starting, ?_⟩
    intro d hd
    cases hnew.noBid.symm.trans hd
  | started _ hrow₀ _ heq =>
    obtain rfl := Option.some.inj (heq.symm.trans hrow)
    exact ⟨(hs.starting _ hrow₀ :), (hs.rows _ hrow₀).mono hlog⟩
  | closed _ hrow₀ _ hclosing heq src hmem =>
    obtain rfl := Option.some.inj (heq.symm.trans hrow)
    refine ⟨?_, (hs.dirty _ _ src hmem).mono hlog⟩
    rw [hclosing.same]
    exact (hs.starting _ hrow₀ :)

/-- **A step in which the price does not fall** keeps the invariant. -/
theorem pricesInv_step (hs : PricesInv s a) (hstep : step s act = some t)
    (hok : pricedOn a s act = true) : PricesInv t a where
  auctions := auctionsInv_step hs.auctions hstep
  calls := callsInv_step hs.calls hstep
  starting := fun _ hrow => (bidIn_row hs (step_cases hstep) hrow).1
  cents := (cents_booked_step hs (step_cases hstep) hok).1
  unopened := fun _ hh => (hash_step hs (step_cases hstep) hok hh).1
  opened := fun _ hh => (hash_step hs (step_cases hstep) hok hh).2
  rises := (cents_booked_step hs (step_cases hstep) hok).2
  flush := fun _ obj row hp => (bidIn_close hs (step_cases hstep) hp).1 obj row
  hset := fun _ obj row hp => (bidIn_close hs (step_cases hstep) hp).2.1 obj row
  dirty := fun _ row hp => (bidIn_close hs (step_cases hstep) hp).2.2 row
  rows := fun _ hrow => (bidIn_row hs (step_cases hstep) hrow).2

end Step

theorem pricesInv_of_reach {now : ℤ} {users : List Uuid} {s : Sys} {a : Uuid}
    (hrun : Reach step (fun s act _ => pricedOn a s act = true) (.initial now users) s) :
    PricesInv s a := by
  apply hrun.invariant (fun hs hstep hok => pricesInv_step hs hstep hok)
  refine ⟨auctionsInv_initial now users, callsInv_initial now users, ?_, ?_, ?_, ?_, ?_, ?_, ?_, ?_,
    ?_⟩ <;> simp [Sys.initial, Redis.empty, AcceptsCents]

/-! ### The three readers -/

/-- The price that the history tells. -/
def historyPrice (s : Sys) (a : Uuid) (row : Auction) : Number :=
  ((s.accepted a).getLast?.map (·.argv.amount.value)).getD row.startingPrice.value

/-- Every accepted bid has its row: its call is not on its way, and has not raised. -/
structure AllStored (s : Sys) (a : Uuid) : Prop where
  /-- No accepted call is on its way. -/
  quiet : Quiet s a
  /-- None has raised. -/
  unbroken : ∀ e ∈ s.accepted a, ∀ c, s.bids e.argv.bidId = some c → c.pc ≠ .aborted

section Readers

variable {s : Sys} {a : Uuid} {row : Auction}

theorem acceptedBids_eq_nil_iff (hs : PricesInv s a) (hstored : AllStored s a) :
    acceptedBids s.pg a = [] ↔ s.accepted a = [] := by
  rw [List.eq_nil_iff_forall_not_mem, List.eq_nil_iff_forall_not_mem]
  constructor
  · intro hnone e he
    obtain ⟨bid, hbid, -⟩ :=
      hs.calls.row_of_accept hs.cents hstored.quiet he (hstored.unbroken e he)
    exact hnone bid hbid
  · intro hnone bid hbid
    obtain ⟨e, he, -⟩ := hs.calls.accept_of_row hs.cents hbid
    exact hnone e he

/-- **The table and the history** tell one price. -/
theorem isPrice_iff (hs : PricesInv s a) (hstored : AllStored s a) {price : Number} :
    IsPrice s.pg a row price ↔ price = historyPrice s a row := by
  unfold IsPrice historyPrice
  rw [acceptedBids_eq_nil_iff hs hstored]
  cases hl : (s.accepted a).getLast? with
  | none =>
    have hnone := List.getLast?_eq_none_iff.mp hl
    have hbids := (acceptedBids_eq_nil_iff hs hstored).mpr hnone
    simp [hnone, hbids]
  | some l =>
    have hmem := List.mem_of_getLast? hl
    obtain ⟨last, hlast, hof⟩ :=
      hs.calls.row_of_accept hs.cents hstored.quiet hmem (hstored.unbroken l hmem)
    have htop : ∀ bid ∈ acceptedBids s.pg a, bid.amount.value ≤ l.argv.amount.value := by
      intro bid hbid
      obtain ⟨e, he, hof'⟩ := hs.calls.accept_of_row hs.cents hbid
      rw [← hof'.amount]
      exact hs.le_last hl he
    simp only [Option.map_some, Option.getD_some]
    constructor
    · rintro (⟨hnone, -⟩ | ⟨bid, hbid, rfl, hmax⟩)
      · exact absurd hnone (List.ne_nil_of_mem hmem)
      · exact Number.le_antisymm (htop bid hbid) (hof.amount ▸ hmax last hlast)
    · rintro rfl
      refine Or.inr ⟨last, hlast, hof.amount, ?_⟩
      rw [← hof.amount]
      exact htop

/-- The price of the row is not negative, and no row has the highest bid `0.00`. -/
theorem filterPrice_spec (hs : PricesInv s a) (hrow : s.pg.auction a = some row) :
    Numeric.NonNeg (filterPrice row) ∧ highestBidOrStartingPrice row = filterPrice row := by
  unfold filterPrice highestBidOrStartingPrice
  cases hbid : row.highestBid with
  | none => exact ⟨hs.starting row hrow, rfl⟩
  | some d =>
    obtain ⟨e, he, hvalue⟩ := hs.rows row hrow d hbid
    have hcents := hs.isCents he
    refine ⟨?_, if_neg (hvalue ▸ hcents.ne_zero)⟩
    rintro c hfits rfl
    obtain ⟨n, hpos, -, hn⟩ := hcents
    simp only [hn, Numeric.value, DecStr.value, Number.fin.injEq] at hvalue
    have hcn : (c : ℚ) = n := by linarith
    have : c = n := by exact_mod_cast hcn
    omega

/-- **The row** has the price exactly if it has the last accepted amount. -/
theorem rowPriced_iff (hs : PricesInv s a) (hrow : s.pg.auction a = some row) :
    (filterPrice row).value = historyPrice s a row ↔ RowPriced s a row := by
  unfold RowPriced historyPrice
  cases hl : (s.accepted a).getLast? with
  | none =>
    have hnone := List.getLast?_eq_none_iff.mp hl
    have hbid : row.highestBid = none := by
      by_contra hne
      obtain ⟨d, hd⟩ := Option.ne_none_iff_exists'.mp hne
      obtain ⟨e, he, -⟩ := hs.rows row hrow d hd
      rw [hnone] at he
      cases he
    simp [filterPrice, hbid]
  | some l => simp

/-- **The hash** has the price exactly if it was opened and has seen a bid, or there is none and the
auction starts at `0.00`. -/
theorem hashPriced_iff (hs : PricesInv s a) (hrow : s.pg.auction a = some row)
    (hpriced : (filterPrice row).value = historyPrice s a row) {now : ℤ} {detail : AuctionDetail}
    (hdetail : getAuctionDetail s.pg s.redis a now = some detail) :
    (detail.currentPrice.getD (.dec 0)).value = historyPrice s a row ↔ HashPriced s a row := by
  obtain ⟨row', hrow', rfl⟩ := Option.map_eq_some_iff.mp hdetail
  obtain rfl := Option.some.inj (hrow.symm.trans hrow')
  obtain ⟨-, hsame⟩ := filterPrice_spec hs hrow
  unfold HashPriced
  cases hh : s.redis.hash a with
  | none =>
    refine iff_of_true ?_ (fun _ h => by cases h)
    rw [← hpriced, ← value_toDecimalStr, ← hsame]
    rfl
  | some h =>
    simp only [Option.some.injEq, forall_eq']
    have hzero : (DecStr.dec 0).value = .fin 0 := by simp [DecStr.value]
    cases hl : (s.accepted a).getLast? with
    | none =>
      have hnone := List.getLast?_eq_none_iff.mp hl
      have hbid : (h.highestBid.getD (.dec 0)).value = .fin 0 := by
        by_cases hinc : h.minIncrement = none
        · rw [(hs.unopened h hh hinc).1]
          exact hzero
        · rw [(hs.opened h hh hinc).highestBid, hl]
          exact hzero
      simp only [hbid, historyPrice, hnone, ne_eq, not_true_eq_false, and_false, true_and, false_or]
      exact eq_comm
    | some l =>
      have hmem := List.mem_of_getLast? hl
      have hne := List.ne_nil_of_mem hmem
      simp only [historyPrice, hl, hne, Option.map_some, Option.getD_some, ne_eq, not_false_eq_true,
        and_true, false_and, or_false]
      by_cases hinc : h.minIncrement = none
      · rw [(hs.unopened h hh hinc).1]
        refine iff_of_false ?_ (by simp)
        exact fun hvalue => (hs.isCents hmem).ne_zero (hvalue.symm.trans hzero)
      · rw [(hs.opened h hh hinc).highestBid, hl]
        exact iff_of_true rfl (by simp)

end Readers

/-- **When the three readers agree.** In every run in which the bids accepted on an auction are in
whole cents and its price does not fall, in a state in which every accepted bid has its row. -/
theorem pricesAgree_iff {now : ℤ} {users : List Uuid} {s : Sys} {a : Uuid}
    (hrun : Reach step (fun s act _ => pricedOn a s act = true) (.initial now users) s)
    (hstored : AllStored s a) {row : Auction} (hrow : s.pg.auction a = some row) {time : ℤ}
    {detail : AuctionDetail} (hdetail : getAuctionDetail s.pg s.redis a time = some detail) :
    PricesAgree s a row detail ↔ RowPriced s a row ∧ HashPriced s a row := by
  have hs := pricesInv_of_reach hrun
  have hitem := searchItem_currentPrice a
  unfold PricesAgree
  simp only [isPrice_iff hs hstored, exists_eq_left, hitem]
  rw [← rowPriced_iff hs hrow]
  constructor
  · rintro ⟨hdet, -, hfilter⟩
    exact ⟨hfilter, (hashPriced_iff hs hrow hfilter hdetail).mp hdet⟩
  · rintro ⟨hfilter, hhash⟩
    exact ⟨(hashPriced_iff hs hrow hfilter hdetail).mpr hhash, hfilter, hfilter⟩

/-! ### Runs -/

/-- Nothing fails, and no auction but the camera is created, and no bid but the first is made. -/
def onlyCamera : Act → Bool
  | .create a _ _ => a = 5
  | .bid b _ _ _ => b = 100
  | act => act.faultless

theorem untouched_step {s t : Sys} {act : Act} (h : SysStep s act t) (hok : onlyCamera act = true)
    (hs : (∀ a, a ≠ 5 → s.creates a = none) ∧ ∀ b, b ≠ 100 → s.bids b = none) :
    (∀ a, a ≠ 5 → t.creates a = none) ∧ ∀ b, b ≠ 100 → t.bids b = none := by
  constructor
  · intro a ha
    cases h.creation a with
    | kept _ create => rw [create, hs.1 a ha]
    | created hact =>
      rw [hact] at hok
      exact absurd (of_decide_eq_true hok) ha
    | opened _ src | ended src => cases (hs.1 a ha).symm.trans src
  · intro b hb
    cases h.bid b with
    | kept call => rw [call, hs.2 b hb]
    | called hact =>
      rw [hact] at hok
      exact absurd (of_decide_eq_true hok) hb
    | moved _ src | crashed _ src => cases (hs.2 b hb).symm.trans src

/-- No operation is in progress. -/
structure Idle (s : Sys) : Prop where
  /-- No call of `create_auction`. -/
  creates : ∀ a c, s.creates a = some c → c.pc = .ended
  /-- No call of `place_bid`. -/
  bids : ∀ b c, s.bids b = some c → c.pc.running = false
  /-- No start poll. -/
  starts : s.starts = none
  /-- No close poll. -/
  closes : s.closes = none

/-- Idleness of the camera is seen from its own calls. -/
def idleCamera (s : Sys) : Bool :=
  ((s.creates 5).all fun c => c.pc = .ended) && ((s.bids 100).all fun c => !c.pc.running) &&
    s.starts.isNone && s.closes.isNone

theorem idle_of_onlyCamera {now : ℤ} {users : List Uuid} {s : Sys}
    (hrun : Reach step (fun _ act _ => onlyCamera act = true) (.initial now users) s)
    (hidle : idleCamera s = true) : Idle s := by
  obtain ⟨hcreates, hbids⟩ := hrun.invariant
    (I := fun s => (∀ a, a ≠ 5 → s.creates a = none) ∧ ∀ b, b ≠ 100 → s.bids b = none)
    (fun hs hstep hok => untouched_step (step_cases hstep) hok hs)
    ⟨fun _ _ => rfl, fun _ _ => rfl⟩
  simp only [idleCamera, Bool.and_eq_true, Option.isNone_iff_eq_none] at hidle
  obtain ⟨⟨⟨hcreate, hbid⟩, hstarts⟩, hcloses⟩ := hidle
  refine ⟨?_, ?_, hstarts, hcloses⟩
  · intro a c hc
    by_cases ha : a = 5
    · rw [ha] at hc
      rw [hc, Option.all_some, decide_eq_true_eq] at hcreate
      exact hcreate
    · cases (hcreates a ha).symm.trans hc
  · intro b c hc
    by_cases hb : b = 100
    · rw [hb] at hc
      simpa [hc] using hbid
    · cases (hbids b hb).symm.trans hc

theorem Idle.quiet {s : Sys} (h : Idle s) (a : Uuid) : Quiet s a := by
  intro b c v hc _ hrunning
  rw [h.bids b c hc] at hrunning
  cases hrunning

/-- The camera gets a bid of `25.00`, which is committed. -/
def storedCamera : List Act :=
  cameraBid (.ofNumber (.fin 25)) ++ List.replicate 3 (.bidStep 100 false)

/-- **A bid changes one of three prices**: with a committed bid of `25.00` the detail of the camera
shows `25.00`, its item and the filters `10.00`. -/
theorem camera_prices_differ : ∃ s row detail,
    Reach step (fun _ act _ => act.faultless = true) (.initial 1000000000 [1, 7]) s ∧ Idle s ∧
    s.pg.auction 5 = some row ∧ getAuctionDetail s.pg s.redis 5 s.now = some detail ∧
    (acceptedBids s.pg 5).map (·.amount.value) = [.fin 25] ∧
    detail.currentPrice = some (.dec 2500) ∧ (searchItem 5 row).currentPrice = .dec 1000 ∧
    (filterPrice row).value = .fin 10 ∧ ¬ PricesAgree s 5 row detail := by
  obtain ⟨s, hs, hp⟩ := exists_reach step
    (fun _ act _ => act.faultless = true ∧ onlyCamera act = true) storedCamera
    (s := .initial 1000000000 [1, 7])
    (p := fun s => idleCamera s = true ∧
      (acceptedBids s.pg 5).map (·.amount.value) = [.fin 25] ∧
      (s.pg.auction 5).any fun row => (getAuctionDetail s.pg s.redis 5 s.now).any fun detail =>
        detail.currentPrice = some (.dec 2500) ∧ (searchItem 5 row).currentPrice = .dec 1000 ∧
          (filterPrice row).value = .fin 10) (by decide +kernel)
  obtain ⟨hidle, hbids, hp⟩ := of_decide_eq_true hp
  obtain ⟨row, hrow, hp⟩ := (Option.any_eq_true _ _).mp hp
  obtain ⟨detail, hdetail, hp⟩ := (Option.any_eq_true _ _).mp hp
  obtain ⟨hprice, hitem, hfilter⟩ := of_decide_eq_true hp
  refine ⟨s, row, detail, hs.weaken And.left,
    idle_of_onlyCamera (hs.weaken And.right) hidle, hrow, hdetail, hbids, hprice, hitem,
    hfilter, ?_⟩
  rintro ⟨price, -, hdet, -, hfil⟩
  rw [hprice] at hdet
  have hsame := (hdet.trans hfil.symm).trans hfilter
  norm_num [DecStr.value] at hsame

/-- Sold, the camera has one price. -/
theorem pricesAgree_iff_camera : ∃ s row detail, Idle s ∧ s.pg.auction 5 = some row ∧
    getAuctionDetail s.pg s.redis 5 s.now = some detail ∧ row.state = .sold ∧
    (PricesAgree s 5 row detail ↔ RowPriced s 5 row ∧ HashPriced s 5 row) ∧
    detail.currentPrice = some (.dec 2500) ∧ (searchItem 5 row).currentPrice = .dec 2500 := by
  obtain ⟨s, hs, hp⟩ := exists_reach step
    (fun s act _ => pricedOn 5 s act = true ∧ onlyCamera act = true)
    (storedCamera ++ [.tick 60000000, .closeSelect [(5, cameraRow)]] ++
      List.replicate 4 (.closeStep false) ++ [.closeCommit false])
    (s := .initial 1000000000 [1, 7])
    (p := fun s => idleCamera s = true ∧
      (∀ e ∈ s.accepted 5, (s.bids e.argv.bidId).all (fun c => decide (c.pc ≠ .aborted)) = true) ∧
      ((s.pg.auction 5).any fun row => (getAuctionDetail s.pg s.redis 5 s.now).any fun detail =>
        decide (row.state = .sold ∧ detail.currentPrice = some (.dec 2500) ∧
          (searchItem 5 row).currentPrice = .dec 2500)) = true) (by decide +kernel)
  obtain ⟨hidle, hunbroken, hp⟩ := of_decide_eq_true hp
  obtain ⟨row, hrow, hp⟩ := (Option.any_eq_true _ _).mp hp
  obtain ⟨detail, hdetail, hp⟩ := (Option.any_eq_true _ _).mp hp
  obtain ⟨hstate, hprice, hitem⟩ := of_decide_eq_true hp
  have hidle := idle_of_onlyCamera (hs.weaken And.right) hidle
  have hstored : AllStored s 5 := by
    refine ⟨hidle.quiet 5, ?_⟩
    intro e he c hc
    have := hunbroken e he
    rw [hc, Option.all_some, decide_eq_true_eq] at this
    exact this
  exact ⟨s, row, detail, hidle, hrow, hdetail, hstate,
    pricesAgree_iff (hs.weaken And.left) hstored hrow hdetail, hprice, hitem⟩

end OnlineAuction.System
