import OnlineAuction.System.Restart

/-!
# Settling an auction while bids come in

`close_auction` reads the winner with `HGETALL`, flushes it, and shuts the hash by a later `HSET`.
A bid whose clock was taken before the end may be accepted in between.

## What is proved

* `settles_of_close` — a close settles the history that the hash had when it was read.
* `settlementInv_step` — a step that fails nowhere and accepts no late bid keeps closed auctions
  settled and shut (`SettlementInv`).
* `closed_settles` — in every such run a closed row carries the highest bid ever accepted on its
  auction, and its bidder when it is sold.
-/

namespace OnlineAuction.System

open OnlineAuction.Foundation OnlineAuction.Store OnlineAuction.Lifecycle OnlineAuction.Bidding

/-! ### One close -/

/-- The row carries the highest bid of a history, and its bidder when it is sold; no bid and no
winner when there is none. -/
def Settles (acc : List Accept) (row : Auction) : Prop :=
  (acc = [] ∧ row.highestBid = none ∧ row.winnerId = none) ∨
    ∃ e ∈ acc, (∀ e' ∈ acc, e'.argv.amount.value ≤ e.argv.amount.value) ∧
      row.highestBid.map (·.value) = some e.argv.amount.value ∧
      (row.state = .sold → row.winnerId = some e.argv.bidderId)

instance (acc : List Accept) (row : Auction) : Decidable (Settles acc row) :=
  inferInstanceAs (Decidable (_ ∨ _))

/-- What is stored of a price read from Redis is that price. -/
theorem numeric_of_price {s : DecStr} (hs : Price s) {d : Numeric}
    (h : Numeric.ofNumber s.toFloat.val = some d) : d.value = s.value := by
  rcases hs with rfl | ⟨c, hc, rfl⟩
  · cases h
  · exact numeric_of_cents hc h

/-- Settling keeps the highest bid, and a sold auction keeps its winner. -/
theorem settle_keeps {obj obj' : AuctionObj} (hclosed : obj.row.state = .closed)
    (h : resolveSettlementInner obj = some obj') :
    obj'.row.highestBid = obj.row.highestBid ∧
      (obj'.row.winnerId = none ∨ obj'.row.winnerId = obj.row.winnerId) ∧
      (obj'.row.state = .sold → obj'.row.winnerId = obj.row.winnerId) := by
  rcases settle_cases hclosed h with ⟨-, heq⟩ | heq <;> rw [heq]
  · exact ⟨rfl, Or.inr rfl, fun _ => rfl⟩
  · exact ⟨rfl, Or.inl rfl, fun hsold => by cases hsold⟩

/-- Without a bidder in the hash, the close of a row without a winner leaves none. -/
theorem settles_of_nobody {users : List Uuid} {row : Auction} {data : Option AuctionHash}
    {obj obj' : AuctionObj} (hbid : row.highestBid = none) (hwinner : row.winnerId = none)
    (hnobody : ∀ h b, data = some h → h.highestBidder ≠ some (some b))
    (hflush : flushAuction users (assignWinner data row) = some obj)
    (hsettle : resolveSettlementInner obj = some obj') :
    obj'.row.highestBid = none ∧ obj'.row.winnerId = none := by
  have hassign := assignWinner_nobody hnobody row
  obtain ⟨hkept, hnone, -⟩ := settle_keeps (flushAuction_state hflush) hsettle
  rw [hassign, flushAuction] at hflush
  simp only [AuctionObj.load, hwinner, hbid, Option.all_none, if_true, Option.map_none,
    Option.some.injEq] at hflush
  subst hflush
  exact ⟨hkept, hnone.elim id id⟩

/-- **A close settles what it has read**: the history that the hash follows from. -/
theorem settles_of_close {s : Sys} {a : Uuid} (hs : HistoryInv s a) {users : List Uuid}
    {row : Auction} {obj obj' : AuctionObj} (hbid : row.highestBid = none)
    (hwinner : row.winnerId = none)
    (hflush : flushAuction users (assignWinner (s.redis.hash a) row) = some obj)
    (hsettle : resolveSettlementInner obj = some obj') : Settles (s.accepted a) obj'.row := by
  cases hlast : (s.accepted a).getLast? with
  | none =>
    -- nobody has bid
    have hnil := List.getLast?_eq_none_iff.mp hlast
    refine Or.inl ⟨hnil, settles_of_nobody hbid hwinner ?_ hflush hsettle⟩
    intro h b hh hb
    by_cases hinc : h.minIncrement = none
    · rw [(hs.follows.unopened h hh hinc).2] at hb
      cases hb
    · rw [(hs.follows.opened h hh hinc).highestBidder, hlast] at hb
      cases hb
  | some l =>
    have hmem := List.mem_of_getLast? hlast
    obtain ⟨h, hh, htr⟩ := hs.follows.tracked (List.ne_nil_of_mem hmem)
    have hh' := htr.highestBid
    have hb := htr.highestBidder
    rw [hlast] at hh' hb
    obtain ⟨hkept, -, hsold⟩ := settle_keeps (flushAuction_state hflush) hsettle
    rw [hh, assignWinner] at hflush
    simp only [hb, Option.map_some] at hflush
    unfold flushAuction at hflush
    split_ifs at hflush
    obtain ⟨d, hd, rfl⟩ := Option.map_eq_some_iff.mp hflush
    simp only [hh', Option.getD_some, PyValue.value] at hd
    refine Or.inr ⟨l, hmem, hs.priced.maximum h _ hh hh', ?_, hsold⟩
    rw [hkept]
    exact congrArg some (numeric_of_price (hs.priced.price h _ hh hh').1 hd)

/-! ### Steps that fail nowhere -/

/-- The close poll has read the winner of the auction and has not shut its hash. -/
def closing (s : Sys) (a : Uuid) : Bool :=
  s.closes.any fun p => p.todo.head?.any (·.1 = a) && match p.pc with
    | .flush _ | .hset _ => true
    | _ => false

/-- The flush of the close poll is refused, or its settlement raises. -/
def closeRaises (s : Sys) (act : Act) : Bool :=
  match act, s.closes with
  | .closeStep _, some p =>
    match p.pc with
    | .flush obj => ((flushAuction s.pg.users obj).bind resolveSettlementInner).isNone
    | _ => false
  | _, _ => false

/-- Nothing fails in the step, it compares no NaN, and it accepts no bid on an auction whose winner
is read and whose hash is not yet shut. -/
structure InTime (s : Sys) (act : Act) : Prop where
  /-- No fault, no crash, no loss. -/
  faultless : act.faultless = true
  /-- The close does not raise. -/
  settles : closeRaises s act = false
  /-- No NaN. -/
  noNan : comparesNan s act = false
  /-- No late bid. -/
  noLate : ∀ a ∈ acceptsOn s act, closing s a = false

instance (s : Sys) (act : Act) : Decidable (InTime s act) :=
  decidable_of_iff (act.faultless = true ∧ closeRaises s act = false ∧ comparesNan s act = false ∧
      ∀ a ∈ acceptsOn s act, closing s a = false)
    ⟨fun h => ⟨h.1, h.2.1, h.2.2.1, h.2.2.2⟩, fun h => ⟨h.faultless, h.settles, h.noNan, h.noLate⟩⟩

/-- The auction is closed: the row carries its history, and its hash is shut. -/
structure Done (s : Sys) (a : Uuid) (row : Auction) : Prop where
  /-- The row carries the history. -/
  settled : Settles (s.accepted a) row
  /-- The hash is not active. -/
  shut : ∃ h, s.redis.hash a = some h ∧ h.state ≠ some .active

/-- What runs that fail nowhere keep of the auctions before their start. -/
structure OpeningInv (s : Sys) : Prop where
  /-- The auctions. -/
  auctions : AuctionsInv s
  /-- Only an active auction is opened at its creation. -/
  opening : ∀ a row, s.creates a = some ⟨row, .hset⟩ → row.state = .active
  /-- An auction that will wait has no hash. -/
  uncreated : ∀ a row, s.creates a = some ⟨row, .commit⟩ → row.state = .upcoming →
    s.redis.hash a = none
  /-- An auction that waits has no hash. -/
  unopened : ∀ a, waits s a = true → s.redis.hash a = none

/-- What such runs keep. -/
structure SettlementInv (s : Sys) : Prop where
  /-- Hash and history. -/
  history : ∀ a, HistoryInv s a
  /-- Only an active auction is opened at its creation. -/
  opening : ∀ a row, s.creates a = some ⟨row, .hset⟩ → row.state = .active
  /-- An auction that will wait has no hash. -/
  uncreated : ∀ a row, s.creates a = some ⟨row, .commit⟩ → row.state = .upcoming →
    s.redis.hash a = none
  /-- An auction that waits has no hash. -/
  unopened : ∀ a, waits s a = true → s.redis.hash a = none
  /-- The object at hand has the winner that the hash still has. -/
  flush : ∀ p obj, s.closes = some p → p.pc = .flush obj → ∀ b ∈ p.todo.head?,
    obj = assignWinner (s.redis.hash b.1) b.2
  /-- The object at hand carries the history. -/
  hset : ∀ p obj, s.closes = some p → p.pc = .hset obj → ∀ b ∈ p.todo.head?,
    Settles (s.accepted b.1) obj.row
  /-- The auctions of the session that are done. -/
  dirty : ∀ p, s.closes = some p → ∀ b ∈ p.dirty, Done s b.1 b.2
  /-- The closed auctions of the table are done. -/
  closed : ∀ a row, s.pg.auction a = some row → row.state ≠ .upcoming → row.state ≠ .active →
    Done s a row

theorem SettlementInv.auctions {s : Sys} (hs : SettlementInv s) : AuctionsInv s :=
  (hs.history 0).auctions

theorem SettlementInv.before {s : Sys} (hs : SettlementInv s) : OpeningInv s :=
  ⟨hs.auctions, hs.opening, hs.uncreated, hs.unopened⟩

/-- A faultless step loses nothing, and accepts no bid on an auction that waits. -/
theorem startSafe_of_faultless {s : Sys} {act : Act} (hs : SettlementInv s)
    (hok : act.faultless = true) : startSafe s act = true := by
  have haccepts : (acceptsOn s act).all (fun a => !waits s a) = true := by
    rw [Option.all_eq_true]
    intro a ha
    obtain ⟨h, argv, hh, -⟩ := admits_of_acceptsOn ha
    rw [Bool.not_eq_true', Bool.eq_false_iff]
    intro hwaits
    rw [hs.unopened _ hwaits] at hh
    cases hh
  unfold startSafe
  split
  · cases hok
  · cases hok
  · cases hok
  · exact haccepts

theorem remembers_of_faultless {s : Sys} {act : Act} (hs : SettlementInv s)
    (hok : act.faultless = true) (a : Uuid) : Remembers s act a :=
  remembers_of_startSafe hs.auctions
    (fun hwaits => (hs.history a).follows.missing (hs.unopened a hwaits))
    (startSafe_of_faultless hs hok)

/-- What a step can do to the hash and the history of a committed auction that does not wait. -/
inductive CommittedMove (s : Sys) (act : Act) (t : Sys) (a : Uuid) : Prop where
  /-- Nothing. -/
  | kept (hash : t.redis.hash a = s.redis.hash a) (log : t.accepted a = s.accepted a)
  /-- It accepts a bid. -/
  | accepted (h : acceptsOn s act = some a)
  /-- It shuts the hash. -/
  | shut {fault : Bool} {obj : AuctionObj} (hact : act = .closeStep fault)
    (hstate : obj.row.state ≠ .active)
    (hash : t.redis.hash a = some (((s.redis.hash a).getD {}).setState obj.row.state))
    (log : t.accepted a = s.accepted a)

theorem committed_move {s t : Sys} {act : Act} {a : Uuid} {row : Auction} (hs : AuctionsInv s)
    (h : SysStep s act t) (hlost : act ≠ .loseHash a) (hrow : s.pg.auction a = some row)
    (hstate : row.state ≠ .upcoming) : CommittedMove s act t a := by
  cases h.hash a with
  | kept hash log => exact .kept hash log
  | opened _ src =>
    rw [(hs.pending a _ src (by simp)).1] at hrow
    cases hrow
  | started _ src =>
    obtain ⟨hrow', hstate'⟩ := hs.row_of_starts src
    rw [hrow, Option.some.injEq] at hrow'
    exact absurd (hrow' ▸ hstate') hstate
  | booked hact src hpc hauction hfresh hfound hadmits =>
    subst hauction
    exact .accepted (hact ▸ acceptsOn_of_admits src hpc hfound hadmits)
  | @closed p obj _ _ _ hact src hpc htodo hash log =>
    refine .shut hact ?_ hash log
    exact ((hs.closes p src).obj obj (Or.inr hpc) _ (by rw [htodo]; rfl)).state.2
  | lost hact => exact absurd hact hlost

/-- **A closed auction stays closed.** -/
theorem Done.step {s t : Sys} {act : Act} {a : Uuid} {row row₀ : Auction} (hd : Done s a row)
    (hs : AuctionsInv s) (h : SysStep s act t) (hlost : act ≠ .loseHash a)
    (hrow : s.pg.auction a = some row₀) (hstate : row₀.state ≠ .upcoming) : Done t a row := by
  obtain ⟨h₀, hh₀, hshut⟩ := hd.shut
  cases committed_move hs h hlost hrow hstate with
  | kept hash log => exact ⟨log ▸ hd.settled, h₀, hash.trans hh₀, hshut⟩
  | accepted haccepts =>
    obtain ⟨h', argv, hh', endTs, inc, hadm⟩ := admits_of_acceptsOn haccepts
    rw [hh₀, Option.some.injEq] at hh'
    exact absurd (hh' ▸ hadm.state) hshut
  | shut _ hne hash log =>
    refine ⟨log ▸ hd.settled, _, hash, ?_⟩
    simpa [AuctionHash.setState] using hne

/-! ### The steps of the invariant -/

section Step

variable {s t : Sys} {act : Act}

theorem opening_step (hs : OpeningInv s) (h : SysStep s act t) {a : Uuid} {row : Auction}
    (hc : t.creates a = some ⟨row, .hset⟩) : row.state = .active := by
  cases h.creation a with
  | kept _ create => exact hs.opening a row (create ▸ hc)
  | created _ _ _ _ _ _ create =>
    rw [create, Option.some.injEq, Create.mk.injEq] at hc
    obtain ⟨rfl, hpc⟩ := hc
    split_ifs at hpc with hstate
    exact hstate
  | opened _ _ _ create => rw [create] at hc; cases hc
  | ended _ create => rw [create] at hc; cases hc

theorem uncreated_step (hs : OpeningInv s) (h : SysStep s act t) {a : Uuid} {row : Auction}
    (hc : t.creates a = some ⟨row, .commit⟩) (hstate : row.state = .upcoming) :
    t.redis.hash a = none := by
  cases h.creation a with
  | kept hact create =>
    rw [create] at hc
    have hnone := hs.uncreated a row hc hstate
    have hrow := (hs.auctions.pending a _ hc (by simp)).1
    cases h.hash a with
    | kept hash => rw [hash, hnone]
    | opened hact' => exact absurd hact' hact
    | started _ src =>
      rw [(hs.auctions.row_of_starts src).1] at hrow
      cases hrow
    | booked _ _ _ _ _ hfound => rw [hnone] at hfound; cases hfound
    | closed _ src _ htodo =>
      rw [(hs.auctions.row_of_closes src htodo).1] at hrow
      cases hrow
    | lost _ hash => exact hash
  | created _ hnew _ _ _ world create => rw [world]; exact (hs.auctions.fresh a hnew).2
  | opened _ src _ create =>
    rw [create, Option.some.injEq, Create.mk.injEq] at hc
    have := hs.opening a _ src
    rw [hc.1, hstate] at this
    cases this
  | ended _ create => rw [create] at hc; cases hc

theorem unopened_step (hs : OpeningInv s) (h : SysStep s act t) (hok : act.faultless = true)
    {a : Uuid} (ht : waits t a = true) : t.redis.hash a = none := by
  cases waits_before hs.auctions h ht with
  | ended hact => rcases hact with rfl | rfl <;> cases hok
  | stored hact _ src hstate =>
    have hnone := hs.uncreated a _ src hstate
    cases h.hash a with
    | kept hash => rw [hash, hnone]
    | opened _ src' => rw [src] at src'; cases src'
    | started hact' => rw [hact] at hact'; cases hact'
    | booked hact' => rw [hact] at hact'; cases hact'
    | closed hact' => rw [hact] at hact'; cases hact'
    | lost _ hash => exact hash
  | waited hwaits =>
    have hnone := hs.unopened a hwaits
    obtain ⟨hupcoming, -⟩ := of_decide_eq_true hwaits
    obtain ⟨row, hrow, hstate⟩ := (Option.any_eq_true _ _).mp hupcoming
    cases h.hash a with
    | kept hash => rw [hash, hnone]
    | opened _ src =>
      rw [(hs.auctions.pending a _ src (by simp)).1] at hrow
      cases hrow
    | started _ _ _ _ poll =>
      -- the poll has started it, so it does not wait any more
      obtain ⟨-, hdirty⟩ := of_decide_eq_true ht
      rw [poll] at hdirty
      simp at hdirty
    | booked _ _ _ _ _ hfound => rw [hnone] at hfound; cases hfound
    | closed _ src _ htodo =>
      obtain ⟨hrow', hactive⟩ := hs.auctions.row_of_closes src htodo
      rw [hrow, Option.some.injEq] at hrow'
      rw [← hrow', of_decide_eq_true hstate] at hactive
      cases hactive
    | lost _ hash => exact hash

/-- **A step that fails nowhere** keeps them. -/
theorem openingInv_step (hs : OpeningInv s) (hstep : step s act = some t)
    (hok : act.faultless = true) : OpeningInv t where
  auctions := auctionsInv_step hs.auctions hstep
  opening := fun _ _ hc => opening_step hs (step_cases hstep) hc
  uncreated := fun _ _ hc hstate => uncreated_step hs (step_cases hstep) hc hstate
  unopened := fun _ ht => unopened_step hs (step_cases hstep) hok ht

theorem openingInv_initial (now : ℤ) (users : List Uuid) : OpeningInv (.initial now users) := by
  refine ⟨auctionsInv_initial now users, ?_, ?_, fun _ _ => rfl⟩ <;> simp [Sys.initial]

theorem not_loseHash (hok : InTime s act) (a : Uuid) : act ≠ .loseHash a := by
  rintro rfl
  cases hok.faultless

/-- Between the read of the winner and the shutting of the hash, neither hash nor history changes. -/
theorem kept_of_closing (hs : SettlementInv s) (h : SysStep s act t) (hok : InTime s act)
    (hact : ∀ fault, act ≠ .closeStep fault) {p : ClosePoll} (hp : s.closes = some p)
    {b : Uuid × Auction} (hb : b ∈ p.todo.head?) {obj : AuctionObj}
    (hpc : p.pc = .flush obj ∨ p.pc = .hset obj) :
    t.redis.hash b.1 = s.redis.hash b.1 ∧ t.accepted b.1 = s.accepted b.1 := by
  obtain ⟨hrow, hstate, -⟩ := (hs.auctions.closes p hp).todo b (List.mem_of_mem_head? hb)
  cases committed_move hs.auctions h (not_loseHash hok b.1) hrow (by rw [hstate]; simp) with
  | kept hash log => exact ⟨hash, log⟩
  | accepted haccepts =>
    have hclosing := hok.noLate b.1 haccepts
    rw [closing, hp, Option.any_some] at hclosing
    rw [Option.mem_def] at hb
    rcases hpc with hpc | hpc <;> simp [hb, hpc] at hclosing
  | shut hact' => exact absurd hact' (hact _)

/-- The close poll accepts nothing. -/
theorem accepted_of_closeStep {fault : Bool} (h : SysStep s act t) (hact : act = .closeStep fault)
    (a : Uuid) : t.accepted a = s.accepted a := by
  subst hact
  cases h
  rfl

theorem flush_step (hs : SettlementInv s) (h : SysStep s act t) (hok : InTime s act)
    {p : ClosePoll} {obj : AuctionObj} (hp : t.closes = some p) (hpc : p.pc = .flush obj)
    {b : Uuid × Auction} (hb : b ∈ p.todo.head?) : obj = assignWinner (t.redis.hash b.1) b.2 := by
  cases h.closePoll with
  | kept _ hact poll =>
    rw [poll] at hp
    rw [(kept_of_closing hs h hok hact hp hb (Or.inl hpc)).1]
    exact hs.flush p obj hp hpc b hb
  | selected _ _ _ poll => rw [poll] at hp; cases hp; cases hpc
  | @closed fault q a row rest hact src htodo hmove =>
    rw [hp] at hmove
    generalize t.redis = r at hmove ⊢
    cases hmove with
    | assigned =>
      cases hpc
      rw [htodo] at hb
      cases hb
      rfl
    | skipped | extended | checked | unsettled | settled | closed | unclosed => cases hpc
  | gone poll => rw [poll] at hp; cases hp

theorem hset_step (hs : SettlementInv s) (h : SysStep s act t) (hok : InTime s act)
    {p : ClosePoll} {obj : AuctionObj} (hp : t.closes = some p) (hpc : p.pc = .hset obj)
    {b : Uuid × Auction} (hb : b ∈ p.todo.head?) : Settles (t.accepted b.1) obj.row := by
  cases h.closePoll with
  | kept _ hact poll =>
    rw [poll] at hp
    rw [(kept_of_closing hs h hok hact hp hb (Or.inr hpc)).2]
    exact hs.hset p obj hp hpc b hb
  | selected _ _ _ poll => rw [poll] at hp; cases hp; cases hpc
  | @closed fault q a row rest hact src htodo hmove =>
    have hlog := accepted_of_closeStep h hact b.1
    rw [hp] at hmove
    generalize t.redis = r at hmove
    cases hmove with
    | settled hpc' hflush hsettle =>
      cases hpc
      rw [htodo] at hb
      cases hb
      obtain ⟨hrow, hstate⟩ := hs.auctions.row_of_closes src htodo
      obtain ⟨hbid, hwinner⟩ := (hs.auctions.rows a row hrow).unclosed (Or.inr hstate)
      rw [hs.flush q _ src hpc' (a, row) (by rw [htodo]; rfl)] at hflush
      rw [hlog]
      exact settles_of_close (hs.history a) hbid hwinner hflush hsettle
    | skipped | extended | checked | assigned | unsettled | closed | unclosed => cases hpc
  | gone poll => rw [poll] at hp; cases hp

theorem dirty_step (hs : SettlementInv s) (h : SysStep s act t) (hok : InTime s act)
    {p : ClosePoll} (hp : t.closes = some p) {b : Uuid × Auction} (hb : b ∈ p.dirty) :
    Done t b.1 b.2 := by
  have hold : ∀ {q}, s.closes = some q → b ∈ q.dirty → Done t b.1 b.2 := by
    intro q hq hb
    obtain ⟨row, hrow, hstate, -⟩ := (hs.auctions.closes q hq).dirty b hb
    exact (hs.dirty q hq b hb).step hs.auctions h (not_loseHash hok b.1) hrow (by rw [hstate]; simp)
  cases h.closePoll with
  | kept _ _ poll => exact hold (poll ▸ hp) hb
  | selected _ _ _ poll => rw [poll] at hp; cases hp; cases hb
  | @closed fault q a row rest hact src htodo hmove =>
    obtain ⟨hrow, hstate⟩ := hs.auctions.row_of_closes src htodo
    have hlog := accepted_of_closeStep h hact a
    have hfault : fault = false := by simpa [hact, Act.faultless] using hok.faultless
    rw [hp] at hmove
    generalize hr : t.redis = r at hmove
    cases hmove with
    | skipped => exact hold src (by simpa [ClosePoll.next] using hb)
    | checked | assigned | settled => exact hold src hb
    | extended _ hext => cases (hs.auctions.not_moved src htodo).symm.trans hext
    | unsettled hpc hflush hraise =>
      have := hok.settles
      simp [closeRaises, hact, src, hpc, hflush, hraise] at this
    | unclosed hfault' => rw [hfault] at hfault'; cases hfault'
    | closed hpc =>
      rcases List.mem_append.mp hb with hb | hb
      · exact hold src hb
      · rw [List.mem_singleton.mp hb]
        have hsettles := hs.hset q _ src hpc (a, row) (by rw [htodo]; rfl)
        refine ⟨hlog ▸ hsettles, ?_⟩
        rw [hr, Redis.hset_hash_self]
        refine ⟨_, rfl, ?_⟩
        have := ((hs.auctions.closes q src).obj _ (Or.inr hpc) (a, row) (by rw [htodo]; rfl)).state.2
        simpa [AuctionHash.setState] using this
  | gone poll => rw [poll] at hp; cases hp

theorem closed_step (hs : SettlementInv s) (h : SysStep s act t) (hok : InTime s act) {a : Uuid}
    {row : Auction} (hrow : t.pg.auction a = some row) (hupcoming : row.state ≠ .upcoming)
    (hactive : row.state ≠ .active) : Done t a row := by
  rcases ((h.row a).change hs.auctions).of_closed hrow hupcoming hactive with
    hold | ⟨row₀, p, -, hrow₀, hstate, src, hmem⟩
  · have hdone := hs.closed a row hold hupcoming hactive
    exact hdone.step hs.auctions h (not_loseHash hok a) hold hupcoming
  · exact (hs.dirty _ src _ hmem).step hs.auctions h (not_loseHash hok a) hrow₀ (by rw [hstate]; simp)

/-- **Such a step keeps the invariant.** -/
theorem settlementInv_step (hs : SettlementInv s) (hstep : step s act = some t)
    (hok : InTime s act) :
    SettlementInv t where
  history := fun a => historyInv_step (hs.history a) hstep
    (remembers_of_faultless hs hok.faultless a) hok.noNan
  opening := (openingInv_step hs.before hstep hok.faultless).opening
  uncreated := (openingInv_step hs.before hstep hok.faultless).uncreated
  unopened := (openingInv_step hs.before hstep hok.faultless).unopened
  flush := fun _ _ hp hpc _ hb => flush_step hs (step_cases hstep) hok hp hpc hb
  hset := fun _ _ hp hpc _ hb => hset_step hs (step_cases hstep) hok hp hpc hb
  dirty := fun _ hp _ hb => dirty_step hs (step_cases hstep) hok hp hb
  closed := fun _ _ hrow hupcoming hactive =>
    closed_step hs (step_cases hstep) hok hrow hupcoming hactive

end Step

/-! ### Every run -/

/-- **A closed auction is settled** in every run in which nothing fails and no bid is late: its row
carries the highest bid ever accepted on it, and its bidder when it is sold. -/
theorem closed_settles {now : ℤ} {users : List Uuid} {s : Sys}
    (hrun : Reach step (fun s act _ => InTime s act) (.initial now users) s) {a : Uuid}
    {row : Auction} (hrow : s.pg.auction a = some row) (hupcoming : row.state ≠ .upcoming)
    (hactive : row.state ≠ .active) : Settles (s.accepted a) row := by
  have hinv : SettlementInv s := by
    apply hrun.invariant (fun hs hstep hok => settlementInv_step hs hstep hok)
    refine ⟨historyInv_initial now users, ?_, ?_, fun _ _ => rfl, ?_, ?_, ?_, ?_⟩ <;>
      simp [Sys.initial]
  exact (hinv.closed a row hrow hupcoming hactive).settled

/-! ### Runs -/

/-- The camera is sold for `25.00`. -/
theorem closed_settles_camera : ∃ s : Sys, ∃ row, s.pg.auction 5 = some row ∧ row.state = .sold ∧
    Settles (s.accepted 5) row := by
  obtain ⟨s, hs, hp⟩ := exists_reach step (fun s act _ => InTime s act)
    (cameraBid (.ofNumber (.fin 25)) ++ [.tick 60000000, .closeSelect [(5, cameraRow)]] ++
      List.replicate 4 (.closeStep false) ++ [.closeCommit false])
    (s := .initial 1000000000 [1, 7])
    (p := fun s => (s.pg.auction 5).any (·.state = .sold)) (by decide +kernel)
  obtain ⟨row, hrow, hsold⟩ := (Option.any_eq_true _ _).mp hp
  have hsold := of_decide_eq_true hsold
  exact ⟨s, row, hrow, hsold, closed_settles hs hrow (by rw [hsold]; simp) (by rw [hsold]; simp)⟩

/-- The bid `101` of `30.00` is made before the end of the camera; its script runs after the close
has read the winner, and before it shuts the hash. -/
def lateBid : List Act :=
  cameraBid (.ofNumber (.fin 25)) ++
    [.bid 101 5 8 { amount := .ofNumber (.fin 30) }, .bidStep 101 false, .bidStep 101 false,
      .tick 60000000, .closeSelect [(5, cameraRow)], .closeStep false, .closeStep false,
      .bidStep 101 false, .closeStep false, .closeStep false, .closeCommit false]

/-- **A late bid is left out**: it is accepted, and the camera is sold to the bidder before it. -/
theorem camera_sold_below : ∃ s : Sys, ∃ row,
    Reach step (fun _ act _ => act.faultless = true) (.initial 1000000000 [1, 7, 8]) s ∧
      s.pg.auction 5 = some row ∧
      (row.state = .sold ∧ row.winnerId = some 7 ∧
        row.highestBid.map (·.value) = some (.fin (2500 / 100))) ∧
      (s.accepted 5).map (fun e => (e.argv.bidderId, e.argv.amount)) =
        [(7, .dec 2500), (8, .dec 3000)] ∧
      ¬ Settles (s.accepted 5) row := by
  obtain ⟨s, hs, hp⟩ := exists_reach step (fun _ act _ => act.faultless = true)
    lateBid (s := .initial 1000000000 [1, 7, 8])
    (p := fun s => (s.pg.auction 5).any fun row =>
      (row.state = .sold ∧ row.winnerId = some 7 ∧
        row.highestBid.map (·.value) = some (.fin (2500 / 100))) ∧
      (s.accepted 5).map (fun e => (e.argv.bidderId, e.argv.amount)) =
        [(7, .dec 2500), (8, .dec 3000)] ∧
      ¬ Settles (s.accepted 5) row) (by decide +kernel)
  obtain ⟨row, hrow, hp⟩ := (Option.any_eq_true _ _).mp hp
  exact ⟨s, row, hs, hrow, of_decide_eq_true hp⟩

end OnlineAuction.System
