import OnlineAuction.System.Machine

/-!
# What holds of the bids in every run

The calls of `place_bid`, the history of the script and the rows of the table `bid`, in every
state that the service can reach.

## What is proved

* `SysStep.log` — the history of an auction only grows.
* `CallsInv` and `callsInv_of_reach` — every acceptance was asked by one call, which has the
  verdict or has raised; a row, committed or not, is that of a call with its verdict.
* `priceKnown_of_reach` — an accepted call answers its own amount as the current price.
-/

namespace OnlineAuction.System

open OnlineAuction.Foundation OnlineAuction.Store OnlineAuction.Lifecycle OnlineAuction.Bidding

/-! ### The invariant -/

/-- An acceptance on the auction `a` is that of the call `c`. -/
structure AcceptOf (a : Uuid) (c : Call) (e : Accept) : Prop where
  /-- The auction. -/
  auctionId : c.auctionId = a
  /-- The bidder. -/
  bidderId : e.argv.bidderId = c.bidderId
  /-- The amount. -/
  amount : e.argv.amount = toDecimalStr (some (.float c.data.amount))
  /-- The call has the verdict, or it has raised. -/
  verdict : (∃ price, c.pc.verdict = some ⟨.accepted, price, e.seq⟩) ∨ c.pc = .aborted

/-- A row is that of a call with a verdict. -/
structure RowOf (row : Bid) (c : Call) (verdict : Verdict) : Prop where
  /-- The auction. -/
  auctionId : row.auctionId = c.auctionId
  /-- The bidder. -/
  bidderId : row.bidderId = c.bidderId
  /-- The amount, rounded. -/
  amount : Numeric.ofNumber c.data.amount.val = some row.amount
  /-- The sequence number. -/
  sequenceNum : row.sequenceNum = verdict.sequenceNum
  /-- The status. -/
  status : row.status = verdict.status

/-- With a verdict there is one row, without one there is none. -/
def RowsOf (rows : List Bid) (c : Call) : Option Verdict → Prop
  | none => rows = []
  | some verdict => ∃ row, rows = [row] ∧ RowOf row c verdict

/-- The rows of the bid `b` in open transactions. -/
def openRows (pg : Pg) (b : Uuid) : List Bid := pg.bidOpen.filter (·.bidId = b)

/-- The committed rows of the bid `b`. -/
def bidRows (pg : Pg) (b : Uuid) : List Bid := pg.bid.filter (·.bidId = b)

/-- A call has its row in its open transaction, then in the table. -/
structure RowsOk (pg : Pg) (b : Uuid) (c : Call) : Prop where
  /-- In its transaction. -/
  opened : RowsOf (openRows pg b) c c.pc.flushed
  /-- In the table. -/
  committed : RowsOf (bidRows pg b) c c.pc.placed

/-- What holds of the bids. -/
structure CallsInv (s : Sys) : Prop where
  /-- The requests were validated. -/
  positive : ∀ b c, s.bids b = some c → c.data.amountPositive
  /-- A bid has no dedup key before its script has run. -/
  unused : ∀ b, (∀ c, s.bids b = some c → c.pc.beforeScript = true) → s.redis.bidResult b = none
  /-- Every acceptance is that of a call. -/
  history : ∀ a, ∀ e ∈ s.accepted a, ∃ c, s.bids e.argv.bidId = some c ∧ AcceptOf a c e
  /-- No call was accepted twice. -/
  nodup : ∀ a, ((s.accepted a).map (·.argv.bidId)).Nodup
  /-- A call with an accepted verdict was accepted. -/
  accepted : ∀ b c v, s.bids b = some c → c.pc.verdict = some v → v.status = .accepted →
    ∃ e ∈ s.accepted c.auctionId, e.argv.bidId = b ∧ e.seq = v.sequenceNum
  /-- A bid that was never made has no row. -/
  uncalled : ∀ b, s.bids b = none → openRows s.pg b = [] ∧ bidRows s.pg b = []
  /-- A call has its row. -/
  rows : ∀ b c, s.bids b = some c → RowsOk s.pg b c

/-- A bid that is about to be evaluated has no dedup key. -/
theorem CallsInv.fresh {s : Sys} (hs : CallsInv s) {b : Uuid} {c : Call} {endTs : ℤ}
    (hc : s.bids b = some c) (hpc : c.pc = .evalsha endTs) : s.redis.bidResult b = none := by
  apply hs.unused b
  intro c' hc'
  rw [hc, Option.some.injEq] at hc'
  rw [← hc', hpc]
  rfl

/-! ### The history -/

/-- **The history only grows.** -/
theorem SysStep.log {s t : Sys} {act : Act} (h : SysStep s act t) (a : Uuid) :
    s.accepted a <+: t.accepted a := by
  cases h.hash a with
  | booked _ _ _ _ _ _ _ _ log => rw [log]; exact List.prefix_append _ _
  | kept _ log | opened _ _ _ log | started _ _ _ log | closed _ _ _ _ _ log | lost _ _ log =>
    rw [log]

/-- An acceptance stays that of its call. -/
theorem AcceptOf.kept {s t : Sys} {act : Act} {a : Uuid} {c : Call} {e : Accept}
    (h : BidMove s act t e.argv.bidId) (hc : s.bids e.argv.bidId = some c) (he : AcceptOf a c e) :
    ∃ c', t.bids e.argv.bidId = some c' ∧ AcceptOf a c' e := by
  cases h with
  | kept call => exact ⟨c, call ▸ hc, he⟩
  | called _ hnew => rw [hnew] at hc; cases hc
  | @moved fault c₀ pc hact src hstep hmove call =>
    obtain rfl := Option.some.inj (hc.symm.trans src)
    refine ⟨_, call, he.auctionId, he.bidderId, he.amount, ?_⟩
    rcases he.verdict with ⟨price, hv⟩ | haborted
    · exact (hmove.verdict hv).imp (fun h => ⟨price, h⟩) id
    · have := hmove.running
      rw [haborted] at this
      cases this
  | @crashed c₀ hact src hrunning call =>
    obtain rfl := Option.some.inj (hc.symm.trans src)
    exact ⟨_, call, he.auctionId, he.bidderId, he.amount, Or.inr rfl⟩

theorem history_step {s t : Sys} {act : Act} (hs : CallsInv s) (h : SysStep s act t) {a : Uuid}
    {e : Accept} (he : e ∈ t.accepted a) :
    ∃ c, t.bids e.argv.bidId = some c ∧ AcceptOf a c e := by
  have hold : e ∈ s.accepted a → ∃ c, t.bids e.argv.bidId = some c ∧ AcceptOf a c e := by
    intro he
    obtain ⟨c, hc, hacc⟩ := hs.history a e he
    exact hacc.kept (h.bid _) hc
  cases h.hash a with
  | booked hact src hpc hauction hfresh hfound hadmits hash log call =>
    rw [log] at he
    rcases List.mem_append.mp he with he | he
    · exact hold he
    · rw [List.mem_singleton.mp he]
      exact ⟨_, call, hauction, rfl, rfl, Or.inl ⟨_, rfl⟩⟩
  | kept _ log | opened _ _ _ log | started _ _ _ log | closed _ _ _ _ _ log | lost _ _ log =>
    exact hold (log ▸ he)

/-- A call is accepted once: an accepted call has left its script. -/
theorem nodup_step {s t : Sys} {act : Act} (hs : CallsInv s) (h : SysStep s act t) (a : Uuid) :
    ((t.accepted a).map (·.argv.bidId)).Nodup := by
  cases h.hash a with
  | @booked b c endTs _ hact src hpc hauction hfresh hfound hadmits hash log call =>
    rw [log, List.map_append, List.nodup_append]
    refine ⟨hs.nodup a, List.nodup_singleton _, ?_⟩
    intro x hx y hy hxy
    obtain ⟨e, he, rfl⟩ := List.mem_map.mp hx
    rw [List.map_singleton, List.mem_singleton] at hy
    obtain ⟨c', hc', hacc⟩ := hs.history a e he
    have hid : e.argv.bidId = b := hxy.trans hy
    rw [hid, src, Option.some.injEq] at hc'
    subst hc'
    rcases hacc.verdict with ⟨price, hv⟩ | habort
    · rw [hpc] at hv
      cases hv
    · rw [hpc] at habort
      cases habort
  | kept _ log | opened _ _ _ log | started _ _ _ log | closed _ _ _ _ _ log | lost _ _ log =>
    rw [log]
    exact hs.nodup a

/-- A call before its script was before its script. -/
theorem beforeScript_of {b : Uuid} {c : Call} {w w' : World} {pc : Pc} (h : CallStep b c w w' pc)
    (hpc : pc.beforeScript = true) :
    c.pc.beforeScript = true ∧ ∀ endTs, c.pc ≠ .evalsha endTs := by
  have hrows : ∀ endTs v, (Call.afterRows endTs v).beforeScript = false := by
    intro endTs v
    unfold Call.afterRows
    split_ifs <;> rfl
  have hbid : ∀ endTs v, (c.afterBid endTs v).beforeScript = false := by
    intro endTs v
    unfold Call.afterBid
    split_ifs
    · rfl
    · exact hrows endTs v
  have hscript : ∀ endTs res, (Call.afterScript endTs res).beforeScript = false := by
    intro endTs res
    unfold Call.afterScript
    split <;> rfl
  cases h with
  | found hpc' | appended hpc' => rw [hpc']; exact ⟨rfl, by simp⟩
  | script => rw [hscript] at hpc; cases hpc
  | flushed => rw [hbid] at hpc; cases hpc
  | proxied => rw [hrows] at hpc; cases hpc
  | _ => cases hpc

theorem unused_step {s t : Sys} {act : Act} (hs : CallsInv s) (h : SysStep s act t) {b : Uuid}
    (hb : ∀ c, t.bids b = some c → c.pc.beforeScript = true) : t.redis.bidResult b = none := by
  have hold : s.redis.bidResult b = none := by
    apply hs.unused b
    intro c hc
    cases h.bid b with
    | kept call => exact hb c (call ▸ hc)
    | called _ hnew => rw [hnew] at hc; cases hc
    | moved _ src _ hmove call =>
      obtain rfl := Option.some.inj (hc.symm.trans src)
      exact (beforeScript_of hmove (hb _ call)).1
    | crashed _ _ _ call => cases hb _ call
  cases h with
  | @moved b' fault c w pc hc hstep hmove =>
    show w.redis.bidResult b = none
    rcases hmove.hash with ⟨endTs, hpc, rfl⟩ | ⟨-, hkeys, -⟩
    · by_cases hne : b = b'
      · subst hne
        exact absurd hpc ((beforeScript_of hmove (hb _ (Function.update_self _ _ _))).2 endTs)
      · have hkept : (placeBidLua double c.auctionId (c.argv b' endTs) s.redis).1.bidResult b =
            s.redis.bidResult b := placeBidLua_bidResult_of_ne (ttl_pos _ _) hne
        exact hkept.trans hold
    · rw [hkeys, hold]
  | @closed fault p a row rest r p' hp htodo hstep hmove => cases hmove <;> exact hold
  | @started fault a row rest dirty hp => cases fault <;> exact hold
  | _ => exact hold

theorem accepted_step {s t : Sys} {act : Act} (hs : CallsInv s) (h : SysStep s act t) {b : Uuid}
    {c : Call} {v : Verdict} (hc : t.bids b = some c) (hv : c.pc.verdict = some v)
    (hacc : v.status = .accepted) :
    ∃ e ∈ t.accepted c.auctionId, e.argv.bidId = b ∧ e.seq = v.sequenceNum := by
  have hold : ∀ c', s.bids b = some c' → c'.auctionId = c.auctionId → c'.pc.verdict = some v →
      ∃ e ∈ t.accepted c.auctionId, e.argv.bidId = b ∧ e.seq = v.sequenceNum := by
    intro c' hc' hauction hv'
    obtain ⟨e, he, hid, hseq⟩ := hs.accepted b c' v hc' hv' hacc
    exact ⟨e, (h.log _).subset (hauction ▸ he), hid, hseq⟩
  cases h.bid b with
  | kept call => exact hold c (call ▸ hc) rfl hv
  | called _ _ _ call =>
    rw [call, Option.some.injEq] at hc
    subst hc
    cases hv
  | crashed _ _ _ call =>
    rw [call, Option.some.injEq] at hc
    subst hc
    cases hv
  | @moved fault c₀ pc hact src hstep hmove call =>
    rw [call, Option.some.injEq] at hc
    subst hc
    rcases hmove.of_accepted hv hacc with hv' | ⟨endTs, hpc, hw, rfl⟩
    · exact hold c₀ src rfl hv'
    · have hfresh := hs.fresh src hpc
      have httl : 0 < (c₀.argv b endTs).ttl := ttl_pos _ _
      rcases afterScript_cases c₀.auctionId endTs httl hfresh with
        ⟨h', -, hlog, hpc'⟩ | ⟨-, -, ⟨reason, hpc'⟩ | hpc'⟩
      · rw [hpc'] at hv
        cases hv
        refine ⟨⟨c₀.argv b endTs, (c₀.argv b endTs).amount, h'.sequenceNum.getD 0 + 1⟩, ?_, rfl, rfl⟩
        show _ ∈ t.toWorld.accepted c₀.auctionId
        rw [hw, hlog, Function.update_self]
        exact List.mem_append_right _ (List.mem_singleton_self _)
      · rw [hpc'] at hv
        cases hv
      · rw [hpc'] at hv
        cases hv

/-! ### The rows -/

theorem openRows_rollback (pg : Pg) (b b' : Uuid) :
    openRows (pg.rollbackBid b) b' = if b' = b then [] else openRows pg b' := by
  simp only [openRows, Pg.rollbackBid, List.filter_filter]
  split_ifs with h
  · apply List.filter_eq_nil_iff.mpr
    intro row _
    simp [h]
  · apply List.filter_congr
    intro row _
    by_cases hrow : row.bidId = b' <;> simp [hrow, h]

theorem openRows_append (pg : Pg) (row : Bid) (b : Uuid) :
    openRows { pg with bidOpen := pg.bidOpen ++ [row] } b =
      openRows pg b ++ if row.bidId = b then [row] else [] := by
  simp only [openRows, List.filter_append, List.filter_singleton]
  by_cases h : row.bidId = b <;> simp [h]

theorem bidRows_commit (pg : Pg) (b b' : Uuid) :
    bidRows (pg.commitBid b) b' = bidRows pg b' ++ if b' = b then openRows pg b else [] := by
  simp only [bidRows, openRows, Pg.commitBid, List.filter_append, List.filter_filter]
  congr 1
  split_ifs with h
  · exact List.filter_congr fun row _ => by simp [h]
  · apply List.filter_eq_nil_iff.mpr
    intro row _
    rw [Bool.and_eq_true, decide_eq_true_eq, decide_eq_true_eq]
    rintro ⟨h₁, h₂⟩
    exact h (h₁.symm.trans h₂)

/-- A call changes no row of another bid. -/
theorem rows_of_ne {b b' : Uuid} {c : Call} {w w' : World} {pc : Pc}
    (h : CallStep b c w w' pc) (hne : b' ≠ b) :
    openRows w'.pg b' = openRows w.pg b' ∧ bidRows w'.pg b' = bidRows w.pg b' := by
  cases h with
  | flushed =>
    refine ⟨?_, rfl⟩
    rw [openRows_append, if_neg (show ¬ (Call.row b c _ _ _).bidId = b' from Ne.symm hne),
      List.append_nil]
  | committed =>
    refine ⟨(openRows_rollback _ _ _).trans (if_neg hne), ?_⟩
    rw [bidRows_commit, if_neg hne, List.append_nil]
  | raised => exact ⟨(openRows_rollback _ _ _).trans (if_neg hne), rfl⟩
  | _ => exact ⟨rfl, rfl⟩

/-- A row does not depend on where its call is. -/
theorem RowsOf.move {rows : List Bid} {c : Call} {verdict : Option Verdict}
    (h : RowsOf rows c verdict) (pc : Pc) : RowsOf rows { c with pc := pc } verdict := by
  cases verdict with
  | none => exact h
  | some verdict =>
    obtain ⟨row, hrow, hof⟩ := h
    exact ⟨row, hrow, hof.auctionId, hof.bidderId, hof.amount, hof.sequenceNum, hof.status⟩

/-- **A call and its row**: the flush writes it to the transaction, the commit to the table. -/
theorem RowsOk.step {b : Uuid} {c : Call} {w w' : World} {pc : Pc} (hrows : RowsOk w.pg b c)
    (h : CallStep b c w w' pc) : RowsOk w'.pg b { c with pc := pc } := by
  obtain ⟨hopen, hcommitted⟩ := hrows
  have key : RowsOf (openRows w'.pg b) c pc.flushed ∧ RowsOf (bidRows w'.pg b) c pc.placed := by
    cases h with
    | @flushed endTs verdict amount hpc hamount =>
      rw [hpc] at hopen hcommitted
      rw [Call.afterBid_flushed, Call.afterBid_placed, openRows_append,
        show openRows w.pg b = [] from hopen,
        if_pos (show (c.row b verdict amount w.now).bidId = b from rfl)]
      exact ⟨⟨_, rfl, rfl, rfl, hamount, rfl, rfl⟩, hcommitted⟩
    | proxied hpc =>
      rw [hpc] at hopen hcommitted
      rw [Call.afterRows_flushed, Call.afterRows_placed]
      exact ⟨hopen, hcommitted⟩
    | committed hpc =>
      rw [hpc] at hopen hcommitted
      refine ⟨(openRows_rollback _ _ _).trans (if_pos rfl), ?_⟩
      rw [bidRows_commit, show bidRows w.pg b = [] from hcommitted, if_pos rfl]
      exact hopen
    | raised hrunning =>
      rw [Pc.placed_of_running hrunning] at hcommitted
      exact ⟨(openRows_rollback _ _ _).trans (if_pos rfl), hcommitted⟩
    | script hpc =>
      rw [hpc] at hopen hcommitted
      rw [Call.afterScript_flushed, Call.afterScript_placed]
      exact ⟨hopen, hcommitted⟩
    | found hpc | notFound hpc | appended hpc | noScript hpc | looked hpc | selected hpc
    | published hpc =>
      rw [hpc] at hopen hcommitted
      exact ⟨hopen, hcommitted⟩
  exact ⟨key.1.move pc, key.2.move pc⟩

/-- After a crash every transaction is rolled back. -/
theorem RowsOk.crash {pg : Pg} {b : Uuid} {c : Call} (h : RowsOk pg b c) :
    RowsOk pg.rollbackAll b (crashedCall c) := by
  unfold crashedCall
  split_ifs with hrunning
  · have hcommitted := h.committed
    rw [Pc.placed_of_running hrunning] at hcommitted
    exact ⟨rfl, hcommitted⟩
  · refine ⟨?_, h.committed⟩
    cases hpc : c.pc with
    | done answer => rfl
    | aborted => rfl
    | _ => rw [hpc] at hrunning; exact absurd rfl hrunning

/-- The invariant of the rows asks only for the rows of the bid. -/
theorem RowsOk.of_eq {pg pg' : Pg} {b : Uuid} {c : Call} (h : RowsOk pg b c)
    (hopen : openRows pg' b = openRows pg b) (hbid : bidRows pg' b = bidRows pg b) :
    RowsOk pg' b c := ⟨hopen ▸ h.opened, hbid ▸ h.committed⟩

theorem rows_step {s t : Sys} {act : Act} (hs : CallsInv s) (h : SysStep s act t) (b : Uuid) :
    (t.bids b = none → openRows t.pg b = [] ∧ bidRows t.pg b = []) ∧
      ∀ c, t.bids b = some c → RowsOk t.pg b c := by
  have kept : t.bids b = s.bids b → openRows t.pg b = openRows s.pg b →
      bidRows t.pg b = bidRows s.pg b →
      (t.bids b = none → openRows t.pg b = [] ∧ bidRows t.pg b = []) ∧
        ∀ c, t.bids b = some c → RowsOk t.pg b c := by
    intro hbids hopen hbid
    rw [hbids, hopen, hbid]
    exact ⟨hs.uncalled b, fun c hc => (hs.rows b c hc).of_eq hopen hbid⟩
  cases h with
  | @called b' a bidderId data hnew hpos =>
    by_cases hb : b = b'
    · subst hb
      constructor
      · intro hnone
        exact absurd ((Function.update_self b _ s.bids).symm.trans hnone) (by simp)
      · intro c hc
        obtain rfl := Option.some.inj ((Function.update_self b _ s.bids).symm.trans hc)
        exact ⟨(hs.uncalled b hnew).1, (hs.uncalled b hnew).2⟩
    · exact kept (Function.update_of_ne hb _ _) rfl rfl
  | @moved b' fault c w pc hc hstep hmove =>
    by_cases hb : b = b'
    · subst hb
      constructor
      · intro hnone
        exact absurd ((Function.update_self b _ s.bids).symm.trans hnone) (by simp)
      · intro c' hc'
        obtain rfl := Option.some.inj ((Function.update_self b _ s.bids).symm.trans hc')
        exact (hs.rows b c hc).step hmove
    · obtain ⟨hopen, hbid⟩ := rows_of_ne hmove hb
      exact kept (Function.update_of_ne hb _ _) hopen hbid
  | crashed =>
    refine ⟨fun hnone => ⟨rfl, (hs.uncalled b (Option.map_eq_none_iff.mp hnone)).2⟩, ?_⟩
    intro c hc
    obtain ⟨c', hc', rfl⟩ := Option.map_eq_some_iff.mp hc
    exact (hs.rows b c' hc').crash
  | @startEnded fault dirty hp => cases fault <;> exact kept rfl rfl rfl
  | @closeEnded fault nowUtc pc dirty hp => cases fault <;> exact kept rfl rfl rfl
  | _ => exact kept rfl rfl rfl

/-! ### Every run -/

theorem positive_step {s t : Sys} {act : Act} (hs : CallsInv s) (h : SysStep s act t) {b : Uuid}
    {c : Call} (hc : t.bids b = some c) : c.data.amountPositive := by
  cases h.bid b with
  | kept call => exact hs.positive b c (call ▸ hc)
  | called _ _ hpos call => exact Option.some.inj (call.symm.trans hc) ▸ hpos
  | moved _ src _ _ call | crashed _ src _ call =>
    obtain rfl := Option.some.inj (call.symm.trans hc)
    exact (hs.positive b _ src :)

theorem callsInv_step {s t : Sys} {act : Act} (hs : CallsInv s) (hstep : step s act = some t) :
    CallsInv t where
  positive := fun _ _ hc => positive_step hs (step_cases hstep) hc
  unused := fun _ hb => unused_step hs (step_cases hstep) hb
  history := fun _ _ he => history_step hs (step_cases hstep) he
  nodup := nodup_step hs (step_cases hstep)
  accepted := fun _ _ _ hc hv hacc => accepted_step hs (step_cases hstep) hc hv hacc
  uncalled := fun b => (rows_step hs (step_cases hstep) b).1
  rows := fun b => (rows_step hs (step_cases hstep) b).2

/-- **The invariant holds in every run**, whatever its steps. -/
theorem callsInv_initial (now : ℤ) (users : List Uuid) : CallsInv (.initial now users) :=
  ⟨by simp [Sys.initial], fun _ _ => rfl, by simp [Sys.initial], fun _ => List.nodup_nil,
    by simp [Sys.initial], fun _ _ => ⟨rfl, rfl⟩, by simp [Sys.initial]⟩

theorem callsInv_of_reach {ok : Sys → Act → Sys → Prop} {now : ℤ} {users : List Uuid} {s : Sys}
    (hrun : Reach step ok (.initial now users) s) : CallsInv s :=
  hrun.invariant (fun hs hstep _ => callsInv_step hs hstep) (callsInv_initial now users)

/-- A committed row is that of a call which has answered with it. -/
theorem CallsInv.row_of_mem {s : Sys} (hs : CallsInv s) {row : Bid} (hrow : row ∈ s.pg.bid) :
    ∃ c v, s.bids row.bidId = some c ∧ c.pc.placed = some v ∧ RowOf row c v := by
  have hmem : row ∈ bidRows s.pg row.bidId := List.mem_filter.mpr ⟨hrow, decide_eq_true rfl⟩
  cases hc : s.bids row.bidId with
  | none =>
    rw [(hs.uncalled _ hc).2] at hmem
    cases hmem
  | some c =>
    have hcommitted := (hs.rows _ c hc).committed
    cases hv : c.pc.placed with
    | none =>
      rw [hv] at hcommitted
      rw [show bidRows s.pg row.bidId = [] from hcommitted] at hmem
      cases hmem
    | some v =>
      rw [hv] at hcommitted
      obtain ⟨row', hrow', hof⟩ := hcommitted
      rw [hrow', List.mem_singleton] at hmem
      exact ⟨c, v, rfl, hv, hmem ▸ hof⟩

/-- A call that has answered has its committed row. -/
theorem CallsInv.row_of_placed {s : Sys} (hs : CallsInv s) {b : Uuid} {c : Call} {v : Verdict}
    (hc : s.bids b = some c) (hv : c.pc.placed = some v) :
    ∃ row ∈ s.pg.bid, row.bidId = b ∧ RowOf row c v := by
  have hcommitted := (hs.rows b c hc).committed
  rw [hv] at hcommitted
  obtain ⟨row, hrow, hof⟩ := hcommitted
  have hmem : row ∈ bidRows s.pg b := hrow ▸ List.mem_singleton_self row
  obtain ⟨hbid, hid⟩ := List.mem_filter.mp hmem
  exact ⟨row, hbid, of_decide_eq_true hid, hof⟩

/-- No two committed rows belong to one bid. -/
theorem CallsInv.bid_nodup {s : Sys} (hs : CallsInv s) : (s.pg.bid.map (·.bidId)).Nodup := by
  apply List.nodup_iff_count_le_one.mpr
  intro b
  have hcount : (s.pg.bid.map (·.bidId)).count b = (bidRows s.pg b).length := by
    rw [List.count_eq_countP, List.countP_map, List.countP_eq_length_filter]
    rfl
  rw [hcount]
  cases hc : s.bids b with
  | none => rw [(hs.uncalled b hc).2]; exact Nat.zero_le 1
  | some c =>
    have hcommitted := (hs.rows b c hc).committed
    cases hv : c.pc.placed with
    | none =>
      rw [hv] at hcommitted
      rw [show bidRows s.pg b = [] from hcommitted]
      exact Nat.zero_le 1
    | some v =>
      rw [hv] at hcommitted
      obtain ⟨row, hrow, -⟩ := hcommitted
      rw [hrow]
      exact le_rfl

/-! ### What an accepted call says -/

/-- A call with an accepted verdict answers its own amount, as it is printed for the script. -/
def PriceKnown (s : Sys) : Prop :=
  ∀ b c v, s.bids b = some c → c.pc.verdict = some v → v.status = .accepted →
    v.currentPrice = some (toDecimalStr (some (.float c.data.amount)))

theorem priceKnown_step {s t : Sys} {act : Act} (hs : CallsInv s) (hprice : PriceKnown s)
    (h : SysStep s act t) : PriceKnown t := by
  intro b c v hc hv hacc
  cases h.bid b with
  | kept call => exact hprice b c v (call ▸ hc) hv hacc
  | called _ _ _ call | crashed _ _ _ call =>
    rw [call, Option.some.injEq] at hc
    subst hc
    cases hv
  | @moved fault c₀ pc hact src hstep hmove call =>
    rw [call, Option.some.injEq] at hc
    subst hc
    rcases hmove.of_accepted hv hacc with hv' | ⟨endTs, hpc, -, rfl⟩
    · exact hprice b c₀ v src hv' hacc
    · have hfresh := hs.fresh src hpc
      have httl : 0 < (c₀.argv b endTs).ttl := ttl_pos _ _
      rcases afterScript_cases c₀.auctionId endTs httl hfresh with
        ⟨h', -, -, hpc'⟩ | ⟨-, -, ⟨reason, hpc'⟩ | hpc'⟩ <;> rw [hpc'] at hv <;> cases hv
      rfl

theorem priceKnown_of_reach {ok : Sys → Act → Sys → Prop} {now : ℤ} {users : List Uuid} {s : Sys}
    (hrun : Reach step ok (.initial now users) s) : PriceKnown s :=
  hrun.invariant_with (fun hs hstep _ => callsInv_step hs hstep)
    (fun hs hprice hstep _ => priceKnown_step hs hprice (step_cases hstep))
    (callsInv_initial now users) (by simp [PriceKnown, Sys.initial])

/-- Rejected bids are not published. -/
theorem callStep_accepted {b : Uuid} {c : Call} {w w' : World} {pc : Pc} (h : CallStep b c w w' pc)
    {endTs : ℤ} {verdict : Verdict} (hpc : pc = .publish endTs verdict) :
    verdict.status = .accepted := by
  have hrows : ∀ endTs' v, Call.afterRows endTs' v = .publish endTs verdict →
      verdict.status = .accepted := by
    intro endTs' v hv
    unfold Call.afterRows at hv
    split_ifs at hv with hacc
    cases hv
    exact hacc
  subst hpc
  generalize hq : Pc.publish endTs verdict = pc at h
  cases h with
  | script =>
    unfold Call.afterScript at hq
    split at hq <;> cases hq
  | flushed =>
    unfold Call.afterBid at hq
    split_ifs at hq
    exact hrows _ _ hq.symm
  | proxied => exact hrows _ _ hq.symm
  | _ => cases hq

/-- A call that is about to publish was accepted. -/
def PublishesAccepted (s : Sys) : Prop :=
  ∀ b c endTs v, s.bids b = some c → c.pc = .publish endTs v → v.status = .accepted

theorem publishesAccepted_step {s t : Sys} {act : Act} (hs : PublishesAccepted s)
    (h : SysStep s act t) : PublishesAccepted t := by
  intro b c endTs v hc hpc
  cases h.bid b with
  | kept call => exact hs b c endTs v (call ▸ hc) hpc
  | called _ _ _ call | crashed _ _ _ call =>
    rw [call, Option.some.injEq] at hc
    subst hc
    cases hpc
  | moved _ _ _ hmove call =>
    rw [call, Option.some.injEq] at hc
    subst hc
    exact callStep_accepted hmove hpc

theorem publishesAccepted_of_reach {ok : Sys → Act → Sys → Prop} {now : ℤ} {users : List Uuid}
    {s : Sys} (hrun : Reach step ok (.initial now users) s) : PublishesAccepted s :=
  hrun.invariant (fun hs hstep _ => publishesAccepted_step hs (step_cases hstep))
    (by simp [PublishesAccepted, Sys.initial])

end OnlineAuction.System
