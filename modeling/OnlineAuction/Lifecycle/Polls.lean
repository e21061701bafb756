import OnlineAuction.Lifecycle.AuctionService
import Mathlib.Logic.Relation

/-!
# The two polls of the scheduler

`poll_due_starts` and `poll_due_closes` (`scheduler_service.py`) load the auctions that are
due, handle them one by one in one session, and commit once at the end. Each poll is a
machine that moves from one awaited command to the next; an exception of one auction is
logged and the loop goes on. A session keeps the rows it loaded and the rows it changed
(`dirty`), which its commit writes.

A flush that fails rolls the whole session back and expires its objects, so that already
the `auction.auction_id` of the `except` clause raises: the loop ends, and nothing is
committed.

## What is proved

* `closeStep_cases` — every move of the close poll is one of the moves of `CloseStep`.
* `startAll_run` and `closeAll_run` — a poll that nothing interrupts computes
  `startAll` and `closeAll`, which handle one auction after the other.

## Honest scope

The select has no order, so a batch is any list of at most a hundred due auctions.
-/

namespace OnlineAuction.Lifecycle

open OnlineAuction.Foundation OnlineAuction.Store Relation

/-- `BATCH_SIZE`. -/
def batchSize : ℕ := 100

/-- The condition of the select of `poll_due_starts`. -/
def dueStart (nowUtc : ℤ) (row : Auction) : Bool := row.state = .upcoming ∧ row.startTs ≤ nowUtc

/-- The condition of the select of `poll_due_closes`. -/
def dueClose (nowUtc : ℤ) (row : Auction) : Bool := row.state = .active ∧ row.endTs ≤ nowUtc

/-- The rows a select can return. -/
structure Selects (pg : Pg) (due : Auction → Bool) (batch : List (Uuid × Auction)) : Prop where
  /-- No auction twice. -/
  nodup : (batch.map Prod.fst).Nodup
  /-- No more than the limit. -/
  size : batch.length ≤ batchSize
  /-- Rows of the table that are due. -/
  rows : ∀ b ∈ batch, pg.auction b.1 = some b.2 ∧ due b.2 = true

instance (pg : Pg) (due : Auction → Bool) (batch : List (Uuid × Auction)) :
    Decidable (Selects pg due batch) :=
  decidable_of_iff ((batch.map Prod.fst).Nodup ∧ batch.length ≤ batchSize ∧
      ∀ b ∈ batch, pg.auction b.1 = some b.2 ∧ due b.2 = true)
    ⟨fun h => ⟨h.1, h.2.1, h.2.2⟩, fun h => ⟨h.nodup, h.size, h.rows⟩⟩

/-! ### Starting -/

/-- A running start poll. -/
structure StartPoll where
  /-- The auctions still to be started. -/
  todo : List (Uuid × Auction)
  /-- The rows the session has changed. -/
  dirty : List (Uuid × Auction)

/-- `start_auction`: the object becomes `ACTIVE`, then the hash is written, unless that
raises. -/
def startAuction (fault : Bool) (auctionId : Uuid) (auction : Auction) (r : Redis) :
    Redis × Auction :=
  (if fault then r else r.hset auctionId (initRedisHash auction), { auction with state := .active })

/-- One auction of the start poll. -/
def startStep (fault : Bool) (r : Redis) (p : StartPoll) : Option (Redis × StartPoll) :=
  match p.todo with
  | [] => none
  | (a, row) :: rest =>
    let out := startAuction fault a row r
    some (out.1, ⟨rest, p.dirty ++ [(a, out.2)]⟩)

/-- Start a whole batch; `fails` says whose write raises. -/
def startAll (fails : Uuid → Bool) : List (Uuid × Auction) → Redis → Redis
  | [], r => r
  | (a, row) :: rest, r => startAll fails rest (startAuction (fails a) a row r).1

/-- The rows a batch leaves. -/
def started (batch : List (Uuid × Auction)) : List (Uuid × Auction) :=
  batch.map fun b => (b.1, { b.2 with state := .active })

/-- `poll_due_starts` on a batch, uninterrupted: the stores after its commit. -/
def pollDueStarts (fails : Uuid → Bool) (batch : List (Uuid × Auction)) (r : Redis) (pg : Pg) :
    Redis × Pg :=
  (startAll fails batch r, pg.writeAuctions (started batch))

/-- The moves of a start poll whose writes raise as `fails` says. -/
def StartMove (fails : Uuid → Bool) (x y : Redis × StartPoll) : Prop :=
  ∃ b ∈ x.2.todo.head?, startStep (fails b.1) x.1 x.2 = some y

/-- **A start poll that nothing interrupts starts the whole batch.** -/
theorem startAll_run (fails : Uuid → Bool) (batch dirty : List (Uuid × Auction)) (r : Redis) :
    ReflTransGen (StartMove fails) (r, ⟨batch, dirty⟩)
      (startAll fails batch r, ⟨[], dirty ++ started batch⟩) := by
  induction batch generalizing dirty r with
  | nil => simpa [startAll, started] using ReflTransGen.refl
  | cons b rest ih =>
    refine ReflTransGen.head (b := ((startAuction (fails b.1) b.1 b.2 r).1,
      ⟨rest, dirty ++ [(b.1, { b.2 with state := .active })]⟩)) ⟨b, rfl, rfl⟩ ?_
    have := ih (dirty ++ [(b.1, { b.2 with state := .active })]) (startAuction (fails b.1) b.1 b.2 r).1
    rwa [List.append_assoc] at this

/-! ### Closing -/

/-- The command the close poll awaits next for the auction at hand. -/
inductive ClosePc where
  /-- The `hgetall` of the poll, for an end that was moved. -/
  | check
  /-- The `hgetall` of `close_auction`. -/
  | read
  /-- The `flush` of `close_auction`. -/
  | flush (obj : AuctionObj)
  /-- The `hset` of `close_auction`. -/
  | hset (obj : AuctionObj)
  deriving DecidableEq

/-- A running close poll. -/
structure ClosePoll where
  /-- Its clock. -/
  nowUtc : ℤ
  /-- The auctions still to be closed, the one at hand first. -/
  todo : List (Uuid × Auction)
  /-- What it awaits for the auction at hand. -/
  pc : ClosePc
  /-- The rows the session has changed. -/
  dirty : List (Uuid × Auction)

/-- The loop goes on to the next auction; the object at hand may have been changed. -/
def ClosePoll.next (p : ClosePoll) (changed : List (Uuid × Auction)) : ClosePoll :=
  { p with todo := p.todo.tail, pc := .check, dirty := p.dirty ++ changed }

/-- The loop comes to no auction twice. -/
theorem ClosePoll.nodup_next {p : ClosePoll} {b : Uuid × Auction} {rest : List (Uuid × Auction)}
    (htodo : p.todo = b :: rest) (h : ((p.todo ++ p.dirty).map Prod.fst).Nodup)
    {changed : List (Uuid × Auction)} (hchanged : (changed.map Prod.fst).Sublist [b.1]) :
    (((p.next changed).todo ++ (p.next changed).dirty).map Prod.fst).Nodup := by
  have hkeys : ((p.next changed).todo ++ (p.next changed).dirty).map Prod.fst =
      (rest ++ p.dirty).map Prod.fst ++ changed.map Prod.fst := by
    simp [ClosePoll.next, htodo]
  rw [hkeys]
  refine List.Nodup.sublist (List.Sublist.append (List.Sublist.refl _) hchanged) ?_
  rw [List.nodup_append_comm]
  rw [htodo] at h
  exact h

/-- The auction at hand is neither to be closed once more nor closed already. -/
theorem ClosePoll.ne_head {p : ClosePoll} {b : Uuid × Auction} {rest : List (Uuid × Auction)}
    (htodo : p.todo = b :: rest) (h : ((p.todo ++ p.dirty).map Prod.fst).Nodup)
    {b' : Uuid × Auction} (hb' : b' ∈ rest ++ p.dirty) : b'.1 ≠ b.1 := by
  rw [htodo, List.cons_append, List.map_cons, List.nodup_cons] at h
  intro heq
  exact h.1 (heq ▸ List.mem_map_of_mem hb')

/-- The end found in the hash, if it lies after the clock of the poll. -/
def extendedEnd (nowUtc : ℤ) (data : Option AuctionHash) : Option ℤ :=
  (data.bind (·.endTs)).bind fun endTs =>
    if unixSeconds nowUtc < readSeconds endTs then some (readSeconds endTs * 1000000) else none

/-- The end found in the hash of a row that is due does not move the end. -/
theorem extendedEnd_of_le {nowUtc endTs : ℤ} {data : Option AuctionHash} (hdue : endTs ≤ nowUtc)
    (hend : ∀ h e, data = some h → h.endTs = some e → e = unixSeconds endTs) :
    extendedEnd nowUtc data = none := by
  unfold extendedEnd
  cases data with
  | none => rfl
  | some h =>
    cases he : h.endTs with
    | none => simp [he]
    | some e =>
      rw [hend h e rfl he] at he
      have hle := unixSeconds_mono hdue
      simp [he, readSeconds_unixSeconds, not_lt.mpr hle]

/-- One awaited command of the close poll: the contents of Redis it leaves and the poll,
`none` when a flush failed and the poll is over. -/
def closeStep (users : List Uuid) (fault : Bool) (r : Redis) (p : ClosePoll) :
    Option (Redis × Option ClosePoll) :=
  match p.todo with
  | [] => none
  | (a, row) :: _ =>
    match p.pc with
    | .check =>
      if fault then some (r, some (p.next []))
      else
        match extendedEnd p.nowUtc (r.hash a) with
        | some endTs => some (r, some (p.next [(a, { row with endTs := endTs })]))
        | none => some (r, some { p with pc := .read })
    | .read =>
      if fault then some (r, some (p.next []))
      else some (r, some { p with pc := .flush (assignWinner (r.hash a) row) })
    | .flush obj =>
      match fault, flushAuction users obj with
      | false, some obj =>
        match resolveSettlementInner obj with
        -- the comparison with the reserve raised: the flushed object stays changed
        | none => some (r, some (p.next [(a, obj.row)]))
        | some obj => some (r, some { p with pc := .hset obj })
      | _, _ => some (r, none)
    | .hset obj =>
      some (if fault then r else r.hset a (.setState obj.row.state),
        some (p.next [(a, obj.row)]))

/-- The moves of the close poll on the auction `a`, by what they do. -/
inductive CloseStep (users : List Uuid) (fault : Bool) (r : Redis) (p : ClosePoll) (a : Uuid)
    (row : Auction) : Redis → Option ClosePoll → Prop where
  /-- A read raised. -/
  | skipped (hfault : fault = true) (hpc : p.pc = .check ∨ p.pc = .read) :
    CloseStep users fault r p a row r (some (p.next []))
  /-- The end was moved. -/
  | extended {endTs : ℤ} (hpc : p.pc = .check) (hext : extendedEnd p.nowUtc (r.hash a) = some endTs) :
    CloseStep users fault r p a row r (some (p.next [(a, { row with endTs := endTs })]))
  /-- The auction is due. -/
  | checked (hpc : p.pc = .check) (hext : extendedEnd p.nowUtc (r.hash a) = none) :
    CloseStep users fault r p a row r (some { p with pc := .read })
  /-- The winner is read and assigned. -/
  | assigned (hpc : p.pc = .read) :
    CloseStep users fault r p a row r (some { p with pc := .flush (assignWinner (r.hash a) row) })
  /-- The flush failed. -/
  | refused {obj : AuctionObj} (hpc : p.pc = .flush obj) : CloseStep users fault r p a row r none
  /-- The object is flushed, and settling it raised. -/
  | unsettled {obj obj' : AuctionObj} (hpc : p.pc = .flush obj)
    (hflush : flushAuction users obj = some obj') (hraise : resolveSettlementInner obj' = none) :
    CloseStep users fault r p a row r (some (p.next [(a, obj'.row)]))
  /-- The object is flushed and settled. -/
  | settled {obj obj' obj'' : AuctionObj} (hpc : p.pc = .flush obj)
    (hflush : flushAuction users obj = some obj')
    (hsettle : resolveSettlementInner obj' = some obj'') :
    CloseStep users fault r p a row r (some { p with pc := .hset obj'' })
  /-- The state is written to the hash. -/
  | closed {obj : AuctionObj} (hpc : p.pc = .hset obj) :
    CloseStep users fault r p a row (r.hset a (.setState obj.row.state))
      (some (p.next [(a, obj.row)]))
  /-- Writing the state to the hash raised. -/
  | unclosed {obj : AuctionObj} (hfault : fault = true) (hpc : p.pc = .hset obj) :
    CloseStep users fault r p a row r (some (p.next [(a, obj.row)]))

/-- **Every move of the close poll** is one of these. -/
theorem closeStep_cases {users : List Uuid} {fault : Bool} {r r' : Redis} {p : ClosePoll}
    {p' : Option ClosePoll} (h : closeStep users fault r p = some (r', p')) :
    ∃ a row rest, p.todo = (a, row) :: rest ∧ CloseStep users fault r p a row r' p' := by
  obtain ⟨nowUtc, todo, pc, dirty⟩ := p
  cases todo with
  | nil => cases h
  | cons b rest =>
    obtain ⟨a, row⟩ := b
    refine ⟨a, row, rest, rfl, ?_⟩
    simp only [closeStep] at h
    cases pc with
    | check =>
      simp only at h
      split at h
      · cases h; exact .skipped ‹_› (Or.inl rfl)
      · split at h
        · cases h; exact .extended rfl ‹_›
        · cases h; exact .checked rfl ‹_›
    | read =>
      simp only at h
      split at h
      · cases h; exact .skipped ‹_› (Or.inr rfl)
      · cases h; exact .assigned rfl
    | flush obj =>
      simp only at h
      split at h
      · split at h
        · cases h; exact .unsettled rfl ‹_› ‹_›
        · cases h; exact .settled rfl ‹_› ‹_›
      · cases h; exact .refused rfl
    | hset obj =>
      cases h
      cases fault
      · exact .closed rfl
      · exact .unclosed rfl rfl

/-! ### A whole batch -/

/-- The four commands of a close, without what they carry. -/
inductive ClosePhase where
  /-- The `hgetall` of the poll. -/
  | check
  /-- The `hgetall` of `close_auction`. -/
  | read
  /-- The `flush`. -/
  | flush
  /-- The `hset`. -/
  | hset
  deriving DecidableEq

/-- The phase of a command. -/
def ClosePc.phase : ClosePc → ClosePhase
  | .check => .check
  | .read => .read
  | .flush _ => .flush
  | .hset _ => .hset

/-- How the loop leaves an auction. -/
inductive CloseOutcome where
  /-- Its object is as it was. -/
  | untouched
  /-- Its object has changed. -/
  | changed (row : Auction)
  /-- Its flush failed. -/
  | broken
  deriving DecidableEq

/-- Close one auction of a batch; `fault` is the command that raises, if one does. -/
def closeOne (users : List Uuid) (nowUtc : ℤ) (fault : Option ClosePhase) (a : Uuid)
    (row : Auction) (r : Redis) : Redis × CloseOutcome :=
  if fault = some .check then (r, .untouched)
  else
    match extendedEnd nowUtc (r.hash a) with
    | some endTs => (r, .changed { row with endTs := endTs })
    | none =>
      if fault = some .read then (r, .untouched)
      else if fault = some .flush then (r, .broken)
      else
        match flushAuction users (assignWinner (r.hash a) row) with
        | none => (r, .broken)
        | some obj =>
          match resolveSettlementInner obj with
          | none => (r, .changed obj.row)
          | some obj =>
            (if fault = some .hset then r else r.hset a (.setState obj.row.state),
              .changed obj.row)

/-- The rows an outcome adds to the session. -/
def CloseOutcome.rows (a : Uuid) : CloseOutcome → List (Uuid × Auction)
  | .changed row => [(a, row)]
  | _ => []

/-- Close a whole batch; `plan` says which command of which auction raises. The rows are
`none` when a flush failed. -/
def closeAll (users : List Uuid) (nowUtc : ℤ) (plan : Uuid → Option ClosePhase) :
    List (Uuid × Auction) → Redis → List (Uuid × Auction) → Redis × Option (List (Uuid × Auction))
  | [], r, dirty => (r, some dirty)
  | (a, row) :: rest, r, dirty =>
    let out := closeOne users nowUtc (plan a) a row r
    match out.2 with
    | .broken => (out.1, none)
    | outcome => closeAll users nowUtc plan rest out.1 (dirty ++ outcome.rows a)

/-- `poll_due_closes` on a batch, uninterrupted: the stores when it is over. -/
def pollDueCloses (nowUtc : ℤ) (plan : Uuid → Option ClosePhase) (batch : List (Uuid × Auction))
    (r : Redis) (pg : Pg) : Redis × Pg :=
  match closeAll pg.users nowUtc plan batch r [] with
  | (r', some dirty) => (r', pg.writeAuctions dirty)
  | (r', none) => (r', pg)

/-- The moves of a close poll whose commands raise as `plan` says. -/
def CloseMove (users : List Uuid) (plan : Uuid → Option ClosePhase)
    (x y : Redis × Option ClosePoll) : Prop :=
  ∃ p ∈ x.2, ∃ b ∈ p.todo.head?,
    closeStep users (decide (plan b.1 = some p.pc.phase)) x.1 p = some y

/-- The poll after it has closed one auction. -/
def ClosePoll.after (p : ClosePoll) (a : Uuid) : CloseOutcome → Option ClosePoll
  | .broken => none
  | outcome => some (p.next (outcome.rows a))

/-- **One auction, uninterrupted**: the moves of the poll compute `closeOne`. -/
theorem closeOne_run (users : List Uuid) (plan : Uuid → Option ClosePhase) {p : ClosePoll}
    {a : Uuid} {row : Auction} {rest : List (Uuid × Auction)} (htodo : p.todo = (a, row) :: rest)
    (hpc : p.pc = .check) (r : Redis) :
    ReflTransGen (CloseMove users plan) (r, some p)
      ((closeOne users p.nowUtc (plan a) a row r).1,
        p.after a (closeOne users p.nowUtc (plan a) a row r).2) := by
  have move : ∀ {r : Redis} {q : ClosePoll} {y : Redis × Option ClosePoll},
      q.todo = (a, row) :: rest → closeStep users (decide (plan a = some q.pc.phase)) r q = some y →
      CloseMove users plan (r, some q) y :=
    fun hq hy => ⟨_, rfl, (a, row), by rw [hq]; rfl, hy⟩
  unfold closeOne
  by_cases hcheck : plan a = some .check
  · rw [if_pos hcheck]
    refine .single (move htodo ?_)
    simp [closeStep, htodo, hpc, hcheck, ClosePc.phase, ClosePoll.after, CloseOutcome.rows]
  · rw [if_neg hcheck]
    cases hext : extendedEnd p.nowUtc (r.hash a) with
    | some endTs =>
      refine .single (move htodo ?_)
      simp [closeStep, htodo, hpc, hcheck, hext, ClosePc.phase, ClosePoll.after, CloseOutcome.rows]
    | none =>
      have h₁ : CloseMove users plan (r, some p) (r, some { p with pc := .read }) :=
        move htodo (by simp [closeStep, htodo, hpc, hcheck, hext, ClosePc.phase])
      refine .head h₁ ?_
      by_cases hread : plan a = some .read
      · simp only [if_pos hread]
        refine .single (move htodo ?_)
        simp [closeStep, htodo, hread, ClosePc.phase, ClosePoll.after, CloseOutcome.rows,
          ClosePoll.next]
      · simp only [if_neg hread]
        have h₂ : CloseMove users plan (r, some { p with pc := .read })
            (r, some { p with pc := .flush (assignWinner (r.hash a) row) }) :=
          move htodo (by simp [closeStep, htodo, hread, ClosePc.phase])
        refine .head h₂ ?_
        by_cases hflush : plan a = some .flush
        · simp only [if_pos hflush]
          refine .single (move htodo ?_)
          simp [closeStep, htodo, hflush, ClosePc.phase, ClosePoll.after]
        · simp only [if_neg hflush]
          cases hf : flushAuction users (assignWinner (r.hash a) row) with
          | none =>
            refine .single (move htodo ?_)
            simp [closeStep, htodo, hflush, hf, ClosePc.phase, ClosePoll.after]
          | some obj =>
            cases hs : resolveSettlementInner obj with
            | none =>
              refine .single (move htodo ?_)
              simp [closeStep, htodo, hflush, hf, hs, ClosePc.phase, ClosePoll.after,
                CloseOutcome.rows, ClosePoll.next]
            | some obj' =>
              have h₃ : CloseMove users plan
                  (r, some { p with pc := .flush (assignWinner (r.hash a) row) })
                  (r, some { p with pc := .hset obj' }) :=
                move htodo (by simp [closeStep, htodo, hflush, hf, hs, ClosePc.phase])
              refine .head h₃ (.single (move htodo ?_))
              by_cases hhset : plan a = some .hset
              · simp [closeStep, htodo, hs, hhset, ClosePc.phase, ClosePoll.after,
                  CloseOutcome.rows, ClosePoll.next]
              · simp [closeStep, htodo, hs, hhset, ClosePc.phase, ClosePoll.after,
                  CloseOutcome.rows, ClosePoll.next]

/-- **A close poll that nothing interrupts closes the whole batch.** -/
theorem closeAll_run (users : List Uuid) (plan : Uuid → Option ClosePhase) (nowUtc : ℤ)
    (batch dirty : List (Uuid × Auction)) (r : Redis) :
    ReflTransGen (CloseMove users plan) (r, some ⟨nowUtc, batch, .check, dirty⟩)
      ((closeAll users nowUtc plan batch r dirty).1,
        (closeAll users nowUtc plan batch r dirty).2.map fun dirty => ⟨nowUtc, [], .check, dirty⟩) := by
  induction batch generalizing dirty r with
  | nil => exact .refl
  | cons b rest ih =>
    have hone := closeOne_run users plan (p := ⟨nowUtc, b :: rest, .check, dirty⟩)
      (show _ = (b.1, b.2) :: rest from rfl) rfl r
    apply hone.trans
    simp only [closeAll]
    cases hout : (closeOne users nowUtc (plan b.1) b.1 b.2 r).2 with
    | broken => exact .refl
    | untouched => exact ih _ _
    | changed row => exact ih _ _

end OnlineAuction.Lifecycle
