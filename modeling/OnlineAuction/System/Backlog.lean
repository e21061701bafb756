import OnlineAuction.Foundation.Batches
import OnlineAuction.System.Prices
import OnlineAuction.System.Settlement

/-!
# How fast the polls are

A poll takes at most a hundred of the auctions that are due, in no order, and is run again a second
later. What it gets done while bids, creations and the other poll go on.

## What is proved

* `starts_keep_up` and `closes_keep_up` — in every run in which their commits succeed, after `n` polls
  every auction that was due is started (closed), or `100 n` auctions are.
* `ghost_stops_closes` — while the leader of an auction that is due to close is no user, no auction is
  closed at all.

## Honest scope

The selects are full (`Full`), as those of PostgreSQL are. Nothing is said of the second between two
polls.
-/

namespace OnlineAuction.System

open OnlineAuction.Foundation OnlineAuction.Store OnlineAuction.Lifecycle OnlineAuction.Bidding

/-- A select returns all rows that are due, or as many as its limit. -/
def Full (pg : Pg) (due : Auction → Bool) (batch : List (Uuid × Auction)) : Prop :=
  batchSize ≤ batch.length ∨
    ∀ a row, pg.auction a = some row → due row = true → a ∈ batch.map Prod.fst

/-- A row that is due. -/
def Due (due : Auction → Bool) (s : Sys) (a : Uuid) : Prop :=
  ∃ row, s.pg.auction a = some row ∧ due row = true

/-- The auction was started. -/
def Started (s : Sys) (a : Uuid) : Prop := ∃ row, s.pg.auction a = some row ∧ row.state ≠ .upcoming

/-- The auction was closed. -/
def Closed (s : Sys) (a : Uuid) : Prop :=
  ∃ row, s.pg.auction a = some row ∧ row.state ≠ .upcoming ∧ row.state ≠ .active

/-- The keys of a batch. -/
def keysOf (rows : List (Uuid × Auction)) : Finset Uuid := (rows.map Prod.fst).toFinset

theorem card_keysOf {rows : List (Uuid × Auction)} (h : (rows.map Prod.fst).Nodup) :
    (keysOf rows).card = rows.length := by
  rw [keysOf, List.toFinset_card_of_nodup h, List.length_map]

theorem mem_keysOf {rows : List (Uuid × Auction)} {a : Uuid} :
    a ∈ keysOf rows ↔ a ∈ rows.map Prod.fst := List.mem_toFinset

/-- The keys depend on the set of rows only. -/
theorem keysOf_congr {rows rows' : List (Uuid × Auction)}
    (h : ∀ a, a ∈ rows.map Prod.fst ↔ a ∈ rows'.map Prod.fst) : keysOf rows = keysOf rows' :=
  Finset.ext fun a => by rw [mem_keysOf, mem_keysOf, h]

/-- A full select takes the limit, or all that is due. -/
theorem Full.batch {pg : Pg} {due : Auction → Bool} {batch : List (Uuid × Auction)}
    (h : Full pg due batch) (hselects : Selects pg due batch) :
    batchSize ≤ (keysOf batch).card ∨
      ∀ a, (∃ row, pg.auction a = some row ∧ due row = true) → a ∈ keysOf batch := by
  refine h.imp (fun hlen => (card_keysOf hselects.nodup).symm ▸ hlen) ?_
  rintro hall a ⟨row, hrow, hdue⟩
  exact mem_keysOf.mpr (hall a row hrow hdue)

section Step

variable {s t : Sys} {act : Act}

/-- The clock does not run backwards. -/
theorem SysStep.now (h : SysStep s act t) : s.now ≤ t.now := by
  cases h with
  | ticked => exact le_add_of_nonneg_right (Int.natCast_nonneg _)
  | moved _ _ hmove => cases hmove <;> exact le_rfl
  | _ => exact le_rfl

/-! ### Starting -/

/-- What a started auction needs of a step: full selects, and commits that succeed. -/
def StartsGoOn (s : Sys) : Act → Prop
  | .startSelect batch => Full s.pg (dueStart s.now) batch
  | .startCommit fault => fault = false
  | .crash => False
  | _ => True

/-- An auction that was started stays so. -/
theorem started_step (hs : AuctionsInv s) (h : SysStep s act t) {a : Uuid} (ha : Started s a) :
    Started t a := by
  obtain ⟨row, hrow, hstate⟩ := ha
  cases (h.row a).change hs with
  | kept heq => exact ⟨row, heq.trans hrow, hstate⟩
  | stored _ hnone => cases hrow.symm.trans hnone
  | started _ _ _ heq => exact ⟨_, heq, by simp⟩
  | closed _ _ _ hclosing heq => exact ⟨_, heq, hclosing.state.1⟩

/-- An auction that is due to start stays so until it is started. -/
theorem due_start_step (hs : AuctionsInv s) (h : SysStep s act t) {a : Uuid}
    (ha : Due (dueStart s.now) s a) : Due (dueStart t.now) t a ∨ Started t a := by
  obtain ⟨row, hrow, hdue⟩ := ha
  obtain ⟨hstate, hstart⟩ := of_decide_eq_true hdue
  cases (h.row a).change hs with
  | kept heq =>
    exact Or.inl ⟨row, heq.trans hrow, decide_eq_true ⟨hstate, hstart.trans h.now⟩⟩
  | stored _ hnone => cases hrow.symm.trans hnone
  | started _ _ _ heq => exact Or.inr ⟨_, heq, by simp⟩
  | closed _ _ _ hclosing heq => exact Or.inr ⟨_, heq, hclosing.state.1⟩

/-- The auctions of a start poll. -/
def startBatch (s : Sys) : Option (Finset Uuid) := s.starts.map fun p => keysOf (p.todo ++ p.dirty)

/-- Whether a step ends a start poll. -/
def endsStart : Act → Bool
  | .startCommit _ => true
  | _ => false

/-- What a step does to the batch of the start poll. -/
theorem start_batch_step (hs : AuctionsInv s) (h : SysStep s act t) (hok : StartsGoOn s act) :
    BatchMove (fun s => Due (dueStart s.now) s) Started startBatch batchSize s t (endsStart act) := by
  cases h with
  | @startSelected batch hidle hbatch =>
    refine .taken (P := keysOf batch) (by rw [startBatch, hidle]; rfl) ?_ (Full.batch hok hbatch)
    simp [startBatch]
  | @started fault a row rest dirty hp =>
    refine .kept ?_
    simp only [startBatch, hp, Option.map_some, Option.some.injEq]
    refine keysOf_congr fun a' => ?_
    simp only [List.map_append, List.map_cons, List.map_nil, List.mem_append, List.mem_cons,
      List.not_mem_nil, or_false]
    tauto
  | @startEnded fault dirty hp =>
    obtain rfl : fault = false := hok
    have hpoll := hs.starts _ hp
    refine .finished (P := keysOf dirty) (by simp [startBatch, hp]) rfl ?_ ?_
    · rintro a ha ⟨row, hrow, hstate⟩
      obtain ⟨b, hb, rfl⟩ := List.mem_map.mp (mem_keysOf.mp ha)
      obtain ⟨row', hrow', hstate', -⟩ := hpoll.dirty b hb
      obtain rfl := Option.some.inj (hrow.symm.trans hrow')
      exact hstate hstate'
    · intro a ha
      obtain ⟨b, hb, rfl⟩ := List.mem_map.mp (mem_keysOf.mp ha)
      obtain ⟨row', hrow', hstate', heq⟩ := hpoll.dirty b hb
      refine ⟨b.2, ?_, by rw [heq]; simp⟩
      exact Pg.setRows_of_mem (by simpa using hpoll.nodup) hb _
  | crashed => exact hok.elim
  | _ => exact .kept rfl

/-! ### Closing -/

/-- What a closed auction needs of a step: full selects, no fault and no exception in the close poll,
and commits that succeed. -/
def ClosesGoOn (s : Sys) : Act → Prop
  | .closeSelect batch => Full s.pg (dueClose s.now) batch
  | .closeStep fault => fault = false ∧ closeRaises s (.closeStep fault) = false
  | .closeCommit fault => fault = false
  | .crash => False
  | _ => True

/-- An auction that was closed stays so. -/
theorem closed_auction_step (hs : AuctionsInv s) (h : SysStep s act t) {a : Uuid} (ha : Closed s a) :
    Closed t a := by
  obtain ⟨row, hrow, hupcoming, hactive⟩ := ha
  cases (h.row a).change hs with
  | kept heq => exact ⟨row, heq.trans hrow, hupcoming, hactive⟩
  | stored _ hnone => cases hrow.symm.trans hnone
  | started _ hrow' hstate =>
    obtain rfl := Option.some.inj (hrow.symm.trans hrow')
    exact absurd hstate hupcoming
  | closed _ _ _ hclosing heq => exact ⟨_, heq, hclosing.state⟩

/-- An auction that is due to close stays so until it is closed. -/
theorem due_close_step (hs : AuctionsInv s) (h : SysStep s act t) {a : Uuid}
    (ha : Due (dueClose s.now) s a) : Due (dueClose t.now) t a ∨ Closed t a := by
  obtain ⟨row, hrow, hdue⟩ := ha
  obtain ⟨hstate, hend⟩ := of_decide_eq_true hdue
  cases (h.row a).change hs with
  | kept heq =>
    exact Or.inl ⟨row, heq.trans hrow, decide_eq_true ⟨hstate, hend.trans h.now⟩⟩
  | stored _ hnone => cases hrow.symm.trans hnone
  | started _ hrow' hstate' =>
    obtain rfl := Option.some.inj (hrow.symm.trans hrow')
    cases hstate.symm.trans hstate'
  | closed _ _ _ hclosing heq => exact Or.inr ⟨_, heq, hclosing.state⟩

/-- The auctions of a close poll. -/
def closeBatch (s : Sys) : Option (Finset Uuid) := s.closes.map fun p => keysOf (p.todo ++ p.dirty)

/-- Whether a step ends a close poll. -/
def endsClose : Act → Bool
  | .closeCommit _ => true
  | _ => false

/-- The poll goes on with the same auctions. -/
theorem keysOf_next {p : ClosePoll} {a : Uuid} {row row' : Auction} {rest : List (Uuid × Auction)}
    (htodo : p.todo = (a, row) :: rest) :
    keysOf ((p.next [(a, row')]).todo ++ (p.next [(a, row')]).dirty) = keysOf (p.todo ++ p.dirty) := by
  refine keysOf_congr fun a' => ?_
  simp only [ClosePoll.next, htodo, List.tail_cons, List.map_append, List.map_cons, List.map_nil,
    List.mem_append, List.mem_cons, List.not_mem_nil, or_false]
  tauto

/-- What a step does to the batch of the close poll. -/
theorem close_batch_step (hs : AuctionsInv s) (h : SysStep s act t) (hok : ClosesGoOn s act) :
    BatchMove (fun s => Due (dueClose s.now) s) Closed closeBatch batchSize s t (endsClose act) := by
  cases h with
  | @closeSelected batch hidle hbatch =>
    refine .taken (P := keysOf batch) (by rw [closeBatch, hidle]; rfl) ?_ (Full.batch hok hbatch)
    simp [closeBatch]
  | @closed fault p a row rest r p' hp htodo hstep hmove =>
    obtain ⟨rfl, hraises⟩ := hok
    refine .kept ?_
    simp only [closeBatch, hp, Option.map_some]
    cases hmove with
    | skipped hfault => cases hfault
    | extended | unsettled | closed | unclosed =>
      rw [Option.map_some, keysOf_next htodo]
    | checked | assigned | settled => rfl
    | @refused obj hpc =>
      -- a refused flush raises
      simp only [closeRaises, hp, hpc] at hraises
      obtain ⟨obj', hobj'⟩ := Option.isSome_iff_exists.mp (Option.isNone_eq_false_iff.mp hraises)
      obtain ⟨obj₁, hflush, hsettle⟩ := Option.bind_eq_some_iff.mp hobj'
      simp [Lifecycle.closeStep, htodo, hpc, hflush, hsettle] at hstep
  | @closeEnded fault nowUtc pc dirty hp =>
    obtain rfl : fault = false := hok
    have hpoll := hs.closes _ hp
    refine .finished (P := keysOf dirty) (by simp [closeBatch, hp]) rfl ?_ ?_
    · rintro a ha ⟨row, hrow, -, hactive⟩
      obtain ⟨b, hb, rfl⟩ := List.mem_map.mp (mem_keysOf.mp ha)
      obtain ⟨row', hrow', hactive', -⟩ := hpoll.dirty b hb
      obtain rfl := Option.some.inj (hrow.symm.trans hrow')
      exact hactive hactive'
    · intro a ha
      obtain ⟨b, hb, rfl⟩ := List.mem_map.mp (mem_keysOf.mp ha)
      obtain ⟨row', -, -, hclosing⟩ := hpoll.dirty b hb
      exact ⟨b.2, Pg.setRows_of_mem (by simpa using hpoll.nodup) hb _, hclosing.state⟩
  | crashed => exact hok.elim
  | _ => exact .kept rfl

end Step

/-! ### Every run -/

/-- The close poll as a worker. -/
def closeWorker : Worker step (fun s act _ => ClosesGoOn s act) AuctionsInv Uuid batchSize where
  due := fun s => Due (dueClose s.now) s
  done := Closed
  batch := closeBatch
  counts := endsClose
  inv_step := fun hs hstep _ => auctionsInv_step hs hstep
  done_step := fun hs hstep _ ha => closed_auction_step hs (step_cases hstep) ha
  due_step := fun hs hstep _ ha => due_close_step hs (step_cases hstep) ha
  batch_step := fun hs hstep hok => close_batch_step hs (step_cases hstep) hok

/-- The start poll as a worker. -/
def startWorker : Worker step (fun s act _ => StartsGoOn s act) AuctionsInv Uuid batchSize where
  due := fun s => Due (dueStart s.now) s
  done := Started
  batch := startBatch
  counts := endsStart
  inv_step := fun hs hstep _ => auctionsInv_step hs hstep
  done_step := fun hs hstep _ ha => started_step hs (step_cases hstep) ha
  due_step := fun hs hstep _ ha => due_start_step hs (step_cases hstep) ha
  batch_step := fun hs hstep hok => start_batch_step hs (step_cases hstep) hok

/-- **The close poll keeps up** in the same way, as long as no close raises. -/
theorem closes_keep_up {now : ℤ} {users : List Uuid} {s t : Sys} {n : ℕ} (hs : Reachable now users s)
    (hidle : s.closes = none) (hrun : Runs step (fun s act _ => ClosesGoOn s act) endsClose n s t) :
    (∀ a, Due (dueClose s.now) s a → Closed t a) ∨
      ∃ B : Finset Uuid, 100 * n ≤ B.card ∧ ∀ a ∈ B, ¬ Closed s a ∧ Closed t a :=
  closeWorker.keeps_up hrun (auctionsInv_of_reach hs) (by simp [closeWorker, closeBatch, hidle])

/-! ### One bid too many -/

/-- A step that leaves the leader `b` of the auction `a` in place: it does not register `b`, accepts
no bid on `a` and does not lose its hash; the selects are full and below the limit, and nothing but
what `b` is the reason of raises in the close poll. -/
def LeavesLeader (a b : Uuid) (s : Sys) (act : Act) : Prop :=
  acceptsOn s act ≠ some a ∧ match act with
  | .register user => user ≠ b
  | .loseHash a' => a' ≠ a
  | .closeSelect batch => Full s.pg (dueClose s.now) batch ∧ batch.length < batchSize
  | .closeStep fault => fault = false
  | _ => True

/-- What is claimed of the close poll when the auction `a` is stuck. -/
structure StuckPoll (a b : Uuid) (p : ClosePoll) : Prop where
  /-- It still has to close it. -/
  todo : a ∈ p.todo.map Prod.fst
  /-- The object that is to be flushed has the leader as its winner. -/
  flush : ∀ obj row rest, p.pc = .flush obj → p.todo = (a, row) :: rest → obj.row.winnerId = some b
  /-- It never comes to its hash. -/
  hset : ∀ obj row rest, p.pc = .hset obj → p.todo ≠ (a, row) :: rest

/-- The auction `a` is due to close, and its leader `b` is no user; the close poll has not passed it. -/
structure Stuck (a b : Uuid) (s : Sys) : Prop where
  /-- The auctions. -/
  auctions : AuctionsInv s
  /-- It is due. -/
  due : Due (dueClose s.now) s a
  /-- The leader. -/
  leader : ∃ h, s.redis.hash a = some h ∧ h.highestBidder = some (some b)
  /-- The leader is no user. -/
  ghost : b ∉ s.pg.users
  /-- The close poll. -/
  poll : ∀ p, s.closes = some p → StuckPoll a b p

/-- A winner who is no user cannot be flushed. -/
theorem flushAuction_ghost {users : List Uuid} {obj : AuctionObj} {b : Uuid}
    (hwinner : obj.row.winnerId = some b) (hghost : b ∉ users) : flushAuction users obj = none := by
  rw [flushAuction, hwinner, Option.all_some, if_neg (by simpa using hghost)]

/-- The loop goes on to the next auction. -/
theorem StuckPoll.next {a b c : Uuid} {row : Auction} {rest : List (Uuid × Auction)} {p : ClosePoll}
    (hp : StuckPoll a b p) (htodo : p.todo = (c, row) :: rest) (hne : c ≠ a)
    (changed : List (Uuid × Auction)) : StuckPoll a b (p.next changed) := by
  refine ⟨?_, (fun _ _ _ hpc => by cases hpc), fun _ _ _ hpc => by cases hpc⟩
  have hmem := hp.todo
  rw [htodo, List.map_cons, List.mem_cons] at hmem
  rw [ClosePoll.next, htodo]
  exact hmem.resolve_left (Ne.symm hne)

/-- **The close poll does not get past it.** -/
theorem stuckPoll_step {s t : Sys} {act : Act} {a b : Uuid} (hs : Stuck a b s) (h : SysStep s act t)
    (hok : LeavesLeader a b s act) {p : ClosePoll} (hp : t.closes = some p) : StuckPoll a b p := by
  cases h.closePoll with
  | kept _ _ poll => exact hs.poll p (poll ▸ hp)
  | @selected batch hact _ _ poll =>
    obtain rfl := Option.some.inj (poll.symm.trans hp)
    subst hact
    obtain ⟨-, hfull, hlt⟩ := hok
    obtain ⟨row, hrow, hdue⟩ := hs.due
    exact ⟨hfull.resolve_left (not_le.mpr hlt) a row hrow hdue, (fun _ _ _ hpc => by cases hpc),
      fun _ _ _ hpc => by cases hpc⟩
  | @closed fault q c row rest hact src htodo hmove =>
    subst hact
    obtain rfl : fault = false := hok.2
    have hq := hs.poll q src
    rw [hp] at hmove
    generalize t.redis = r at hmove
    cases hmove with
    | skipped hfault => cases hfault
    | unclosed hfault => cases hfault
    | extended _ hext => cases (hs.auctions.not_moved src htodo).symm.trans hext
    | checked => exact ⟨hq.todo, (fun _ _ _ hpc => by cases hpc), fun _ _ _ hpc => by cases hpc⟩
    | assigned =>
      refine ⟨hq.todo, ?_, fun _ _ _ hpc => by cases hpc⟩
      rintro _ row' rest' ⟨⟩ htodo'
      cases htodo.symm.trans htodo'
      obtain ⟨h₀, hh₀, hleader⟩ := hs.leader
      rw [hh₀, assignWinner_leader hleader]
    | @unsettled obj obj' hpc hflush =>
      refine hq.next htodo ?_ _
      rintro rfl
      cases hflush.symm.trans (flushAuction_ghost (hq.flush obj row rest hpc htodo) hs.ghost)
    | @settled obj obj' obj'' hpc hflush =>
      refine ⟨hq.todo, (fun _ _ _ hpc => by cases hpc), ?_⟩
      intro _ row' rest' _ htodo'
      cases htodo.symm.trans htodo'
      cases hflush.symm.trans (flushAuction_ghost (hq.flush obj row rest hpc htodo) hs.ghost)
    | @closed obj hpc =>
      refine hq.next htodo ?_ _
      rintro rfl
      exact hq.hset obj row rest hpc htodo
  | gone poll => cases poll.symm.trans hp

/-- The leader stays in place, and no user. -/
theorem stuckLeader_step {s t : Sys} {act : Act} {a b : Uuid} (hs : Stuck a b s) (h : SysStep s act t)
    (hok : LeavesLeader a b s act) :
    (∃ h, t.redis.hash a = some h ∧ h.highestBidder = some (some b)) ∧ b ∉ t.pg.users := by
  obtain ⟨h₀, hh₀, hleader⟩ := hs.leader
  obtain ⟨row, hrow, hdue⟩ := hs.due
  have hactive : row.state = .active := (of_decide_eq_true hdue).1
  constructor
  · cases h.hash a with
    | kept hash => exact ⟨h₀, hash.trans hh₀, hleader⟩
    | opened _ src => cases (hs.auctions.pending a _ src (by simp)).1.symm.trans hrow
    | started _ src =>
      obtain ⟨hrow', hupcoming⟩ := hs.auctions.row_of_starts src
      obtain rfl := Option.some.inj (hrow.symm.trans hrow')
      cases hactive.symm.trans hupcoming
    | booked hact src hpc hauction _ hfound hadmits =>
      subst hauction
      exact absurd (hact ▸ acceptsOn_of_admits src hpc hfound hadmits) hok.1
    | closed _ src hpc htodo => exact absurd htodo ((hs.poll _ src).hset _ _ _ hpc)
    | lost hact =>
      subst hact
      exact absurd rfl hok.2
  · cases h with
    | @registered user =>
      intro hmem
      exact (List.mem_cons.mp hmem).elim (fun heq => hok.2 heq.symm) hs.ghost
    | moved _ _ hmove => exact hmove.auction.2.1 ▸ hs.ghost
    | @startEnded fault => cases fault <;> exact hs.ghost
    | @closeEnded fault => cases fault <;> exact hs.ghost
    | _ => exact hs.ghost

/-- No auction is closed. -/
theorem not_closed_step {s t : Sys} {act : Act} {a b : Uuid} (hs : Stuck a b s) (h : SysStep s act t)
    {c : Uuid} (hc : Closed t c) : Closed s c := by
  obtain ⟨row, hrow, hupcoming, hactive⟩ := hc
  rcases ((h.row c).change hs.auctions).of_closed hrow hupcoming hactive with
    hold | ⟨row₀, p, hact, -, -, src, -⟩
  · exact ⟨row, hold, hupcoming, hactive⟩
  · -- the commit comes after the last auction
    subst hact
    cases h with
    | closeEnded hp =>
      obtain rfl := Option.some.inj (hp.symm.trans src)
      cases (hs.poll _ src).todo

/-- **A step** leaves it stuck, and closes no auction. -/
theorem stuck_step {s t : Sys} {act : Act} {a b : Uuid} (hs : Stuck a b s)
    (hstep : step s act = some t) (hok : LeavesLeader a b s act) : Stuck a b t := by
  have h := step_cases hstep
  obtain ⟨hleader, hghost⟩ := stuckLeader_step hs h hok
  refine ⟨auctionsInv_step hs.auctions hstep, ?_, hleader, hghost, fun p hp => stuckPoll_step hs h hok hp⟩
  refine (due_close_step hs.auctions h hs.due).resolve_right ?_
  intro hclosed
  obtain ⟨row, hrow, -, hne⟩ := not_closed_step hs h hclosed
  obtain ⟨row', hrow', hdue⟩ := hs.due
  obtain rfl := Option.some.inj (hrow.symm.trans hrow')
  exact hne (of_decide_eq_true hdue).1

/-! ### Runs -/

/-- Nothing fails, nobody registers, there is no auction but the camera, and the selects take it. -/
def alone : Act → Bool
  | .startSelect batch | .closeSelect batch => 5 ∈ batch.map Prod.fst ∧ batch.length < 100
  | .register _ => false
  | act => onlyCamera act

/-- There is no auction but the camera. -/
structure Alone (s : Sys) : Prop where
  /-- The auctions. -/
  auctions : AuctionsInv s
  /-- No other was created. -/
  creates : ∀ a, a ≠ 5 → s.creates a = none
  /-- One bid was made at most. -/
  bids : ∀ b, b ≠ 100 → s.bids b = none

theorem alone_step {s t : Sys} {act : Act} (hs : Alone s) (hstep : step s act = some t)
    (hok : alone act = true) : Alone t := by
  have honly : onlyCamera act = true := by
    cases act with
    | startSelect | closeSelect | register => rfl
    | _ => exact hok
  obtain ⟨hcreates, hbids⟩ := untouched_step (step_cases hstep) honly ⟨hs.creates, hs.bids⟩
  exact ⟨auctionsInv_step hs.auctions hstep, hcreates, hbids⟩

theorem alone_initial (now : ℤ) (users : List Uuid) : Alone (.initial now users) :=
  ⟨auctionsInv_initial now users, fun _ _ => rfl, fun _ _ => rfl⟩

/-- A select that takes the camera takes all there is. -/
theorem Alone.full {s : Sys} (hs : Alone s) {due : Auction → Bool} {batch : List (Uuid × Auction)}
    (h : 5 ∈ batch.map Prod.fst) : Full s.pg due batch := by
  refine Or.inr fun a row hrow _ => ?_
  by_cases ha : a = 5
  · exact ha ▸ h
  · cases (hs.auctions.fresh a (hs.creates a ha)).1.symm.trans hrow

theorem Alone.starts {s : Sys} {act : Act} (hs : Alone s) (hok : alone act = true) :
    StartsGoOn s act := by
  cases act with
  | startSelect batch => exact hs.full (of_decide_eq_true hok).1
  | startCommit fault => simpa [alone, onlyCamera, Act.faultless, StartsGoOn] using hok
  | crash => cases hok
  | _ => trivial

theorem Alone.closes {s : Sys} {act : Act} (hs : Alone s) (hok : alone act = true)
    (hraises : closeRaises s act = false) : ClosesGoOn s act := by
  cases act with
  | closeSelect batch => exact hs.full (of_decide_eq_true hok).1
  | closeStep fault =>
    have hfault : fault = false := by simpa [alone, onlyCamera, Act.faultless] using hok
    exact ⟨hfault, hraises⟩
  | closeCommit fault => simpa [alone, onlyCamera, Act.faultless, ClosesGoOn] using hok
  | crash => cases hok
  | _ => trivial

/-- The camera is closed by one poll. -/
theorem closes_keep_up_camera : ∃ s t : Sys, Due (dueClose s.now) s 5 ∧
    ((∀ a, Due (dueClose s.now) s a → Closed t a) ∨
      ∃ B : Finset Uuid, 100 * 1 ≤ B.card ∧ ∀ a ∈ B, ¬ Closed s a ∧ Closed t a) := by
  obtain ⟨s, hs, hp⟩ := exists_reach step (fun _ act _ => alone act = true)
    (cameraBid (.ofNumber (.fin 25)) ++ [.tick 60000000]) (s := .initial 1000000000 [1, 7])
    (p := fun s => s.closes.isNone ∧ (s.pg.auction 5).any (dueClose s.now) ∧
      (runIf step (fun s act _ => alone act = true ∧ closeRaises s act = false)
        ([.closeSelect [(5, cameraRow)]] ++ List.replicate 4 (.closeStep false) ++
          [.closeCommit false]) s).isSome) (by decide +kernel)
  obtain ⟨hidle, hdue, hrun⟩ := of_decide_eq_true hp
  obtain ⟨row, hrow, hdue⟩ := (Option.any_eq_true _ _).mp hdue
  obtain ⟨t, ht⟩ := Option.isSome_iff_exists.mp hrun
  have halone := hs.invariant (fun hs hstep hok => alone_step hs hstep hok) (alone_initial _ _)
  have hrun : Runs step _ endsClose 1 s t := (runs_of_runIf (c := endsClose) ht).weaken
    (fun hs hstep hok => alone_step hs hstep hok.1) (fun hs hok => hs.closes hok.1 hok.2) halone
  exact ⟨s, t, ⟨row, hrow, hdue⟩, closes_keep_up (hs.weaken fun _ => trivial)
    (Option.isNone_iff_eq_none.mp hidle) hrun⟩

end OnlineAuction.System
