import OnlineAuction.Bidding.PlaceBid
import OnlineAuction.Lifecycle.Polls

/-!
# The whole service

One process of the service with its two stores: any number of calls of `create_auction`
and `place_bid`, the two polls, of which at most one of each kind runs, the clock, and
the accidents: a fault of a store at any awaited command, a crash of the process, and the
loss of a hash. A step moves one of them by one awaited command, so a run is an
interleaving.

## What is proved

* `step_cases` — every step is one of the steps of `SysStep`.
* `SysStep.hash` — what a step can do to the hash and the history of one auction.
* `SysStep.row` — what a step can do to the row of one auction.
* `SysStep.users_cases` — what a step can do to the users.

## Honest scope

A request that `create_auction` refuses changes nothing and is no step. Users are never
removed. The clock does not run backwards.
-/

namespace OnlineAuction.System

open OnlineAuction.Foundation OnlineAuction.Store OnlineAuction.Lifecycle OnlineAuction.Bidding

/-- Where a call of `create_auction` is. -/
inductive CreatePc where
  /-- It awaits the `hset` of `_init_redis_hash`. -/
  | hset
  /-- It awaits the commit of `get_session`. -/
  | commit
  /-- It has answered or raised, or was lost in a crash. -/
  | ended
  deriving DecidableEq

/-- A call of `create_auction` that has flushed its row. -/
structure Create where
  /-- The row. -/
  row : Auction
  /-- What it awaits. -/
  pc : CreatePc
  deriving DecidableEq

/-- The state of the service. -/
structure Sys extends World where
  /-- The calls of `create_auction`, by the key of their auction. -/
  creates : Uuid → Option Create
  /-- The calls of `place_bid`, by the key of their bid. -/
  bids : Uuid → Option Call
  /-- The running start poll. -/
  starts : Option StartPoll
  /-- The running close poll. -/
  closes : Option ClosePoll

/-- The service before any auction, with some users. -/
def Sys.initial (now : ℤ) (users : List Uuid) : Sys where
  now := now
  redis := .empty
  pg := ⟨users, fun _ => none, [], [], [], []⟩
  accepted := fun _ => []
  creates := fun _ => none
  bids := fun _ => none
  starts := none
  closes := none

/-- The steps. The `Bool` of a step says whether its command raises. -/
inductive Act where
  /-- The clock turns. -/
  | tick (micros : ℕ)
  /-- A user registers. -/
  | register (user : Uuid)
  /-- `create_auction` up to its flush. -/
  | create (auctionId sellerId : Uuid) (data : AuctionCreate)
  /-- The next command of `create_auction`. -/
  | createStep (auctionId : Uuid) (fault : Bool)
  /-- `place_bid` is called. -/
  | bid (bidId auctionId bidderId : Uuid) (data : BidRequest)
  /-- The next command of `place_bid`. -/
  | bidStep (bidId : Uuid) (fault : Bool)
  /-- The select of the start poll. -/
  | startSelect (batch : List (Uuid × Auction))
  /-- The next auction of the start poll. -/
  | startStep (fault : Bool)
  /-- The commit of the start poll. -/
  | startCommit (fault : Bool)
  /-- The select of the close poll. -/
  | closeSelect (batch : List (Uuid × Auction))
  /-- The next command of the close poll. -/
  | closeStep (fault : Bool)
  /-- The commit of the close poll. -/
  | closeCommit (fault : Bool)
  /-- The process crashes and starts again. -/
  | crash
  /-- A hash is lost. -/
  | loseHash (auctionId : Uuid)

/-- Nothing goes wrong: no command raises, the process does not crash, no hash is lost. -/
def Act.faultless : Act → Bool
  | .createStep _ fault | .bidStep _ fault | .startStep fault | .startCommit fault
  | .closeStep fault | .closeCommit fault => !fault
  | .crash | .loseHash _ => false
  | _ => true

/-- A call after a crash. -/
def crashedCall (c : Call) : Call := if c.pc.running then { c with pc := .aborted } else c

/-- One step of the service. -/
def step (s : Sys) : Act → Option Sys
  | .tick micros => some { s with now := s.now + micros }
  | .register user => some { s with pg := { s.pg with users := user :: s.pg.users } }
  | .create a sellerId data =>
    if s.creates a = none ∧ data.startingPricePositive ∧ data.minIncrementPositive then
      match createAuction s.pg.users sellerId data s.now with
      | .ok row => some { s with
          creates := Function.update s.creates a
            (some ⟨row, if row.state = .active then .hset else .commit⟩) }
      | .error _ => none
    else none
  | .createStep a fault =>
    match s.creates a with
    | some ⟨row, .hset⟩ =>
      if fault then some { s with creates := Function.update s.creates a (some ⟨row, .ended⟩) }
      else some { s with
        redis := s.redis.hset a (initRedisHash row)
        creates := Function.update s.creates a (some ⟨row, .commit⟩) }
    | some ⟨row, .commit⟩ =>
      if fault then some { s with creates := Function.update s.creates a (some ⟨row, .ended⟩) }
      else some { s with
        pg := s.pg.writeAuctions [(a, row)]
        creates := Function.update s.creates a (some ⟨row, .ended⟩) }
    | _ => none
  | .bid b a bidderId data =>
    if s.bids b = none ∧ data.amountPositive then
      some { s with bids := Function.update s.bids b (some ⟨a, bidderId, data, s.now, .dbGet⟩) }
    else none
  | .bidStep b fault =>
    match s.bids b with
    | some c => (callStep b c fault s.toWorld).map fun out =>
      { s with toWorld := out.1, bids := Function.update s.bids b (some { c with pc := out.2 }) }
    | none => none
  | .startSelect batch =>
    if s.starts.isNone ∧ Selects s.pg (dueStart s.now) batch then
      some { s with starts := some ⟨batch, []⟩ }
    else none
  | .startStep fault =>
    match s.starts with
    | some p => (startStep fault s.redis p).map fun out =>
      { s with redis := out.1, starts := some out.2 }
    | none => none
  | .startCommit fault =>
    match s.starts with
    | some ⟨[], dirty⟩ =>
      some { s with pg := if fault then s.pg else s.pg.writeAuctions dirty, starts := none }
    | _ => none
  | .closeSelect batch =>
    if s.closes.isNone ∧ Selects s.pg (dueClose s.now) batch then
      some { s with closes := some ⟨s.now, batch, .check, []⟩ }
    else none
  | .closeStep fault =>
    match s.closes with
    | some p => (closeStep s.pg.users fault s.redis p).map fun out =>
      { s with redis := out.1, closes := out.2 }
    | none => none
  | .closeCommit fault =>
    match s.closes with
    | some ⟨_, [], _, dirty⟩ =>
      some { s with pg := if fault then s.pg else s.pg.writeAuctions dirty, closes := none }
    | _ => none
  | .crash =>
    some { s with
      pg := s.pg.rollbackAll
      creates := fun a => (s.creates a).map fun c => { c with pc := .ended }
      bids := fun b => (s.bids b).map crashedCall
      starts := none
      closes := none }
  | .loseHash a => some { s with redis := s.redis.loseHash a }

/-- The states that some run reaches, whatever raises, crashes or is lost. -/
def Reachable (now : ℤ) (users : List Uuid) (s : Sys) : Prop :=
  Reach step (fun _ _ _ => True) (.initial now users) s

/-- The steps, by what they do. -/
inductive SysStep (s : Sys) : Act → Sys → Prop where
  /-- The clock turns. -/
  | ticked {micros : ℕ} : SysStep s (.tick micros) { s with now := s.now + micros }
  /-- A user registers. -/
  | registered {user : Uuid} :
    SysStep s (.register user) { s with pg := { s.pg with users := user :: s.pg.users } }
  /-- A new row is flushed. -/
  | created {a sellerId : Uuid} {data : AuctionCreate} {row : Auction} (hnew : s.creates a = none)
    (hrow : createAuction s.pg.users sellerId data s.now = .ok row)
    (hstart : data.startingPricePositive) (hinc : data.minIncrementPositive) :
    SysStep s (.create a sellerId data) { s with
      creates := Function.update s.creates a
        (some ⟨row, if row.state = .active then .hset else .commit⟩) }
  /-- The hash of a new auction is written. -/
  | opened {a : Uuid} {row : Auction} (hc : s.creates a = some ⟨row, .hset⟩) :
    SysStep s (.createStep a false) { s with
      redis := s.redis.hset a (initRedisHash row)
      creates := Function.update s.creates a (some ⟨row, .commit⟩) }
  /-- A new row is committed. -/
  | stored {a : Uuid} {row : Auction} (hc : s.creates a = some ⟨row, .commit⟩) :
    SysStep s (.createStep a false) { s with
      pg := s.pg.writeAuctions [(a, row)]
      creates := Function.update s.creates a (some ⟨row, .ended⟩) }
  /-- A creation raises. -/
  | uncreated {a : Uuid} {row : Auction} {pc : CreatePc} (hc : s.creates a = some ⟨row, pc⟩)
    (hpc : pc ≠ .ended) :
    SysStep s (.createStep a true) { s with
      creates := Function.update s.creates a (some ⟨row, .ended⟩) }
  /-- A bid is made. -/
  | called {b a bidderId : Uuid} {data : BidRequest} (hnew : s.bids b = none)
    (hpos : data.amountPositive) :
    SysStep s (.bid b a bidderId data) { s with
      bids := Function.update s.bids b (some ⟨a, bidderId, data, s.now, .dbGet⟩) }
  /-- A bid moves. -/
  | moved {b : Uuid} {fault : Bool} {c : Call} {w : World} {pc : Pc} (hc : s.bids b = some c)
    (hstep : callStep b c fault s.toWorld = some (w, pc)) (hmove : CallStep b c s.toWorld w pc) :
    SysStep s (.bidStep b fault) { s with
      toWorld := w, bids := Function.update s.bids b (some { c with pc := pc }) }
  /-- The start poll selects. -/
  | startSelected {batch : List (Uuid × Auction)} (hidle : s.starts = none)
    (hbatch : Selects s.pg (dueStart s.now) batch) :
    SysStep s (.startSelect batch) { s with starts := some ⟨batch, []⟩ }
  /-- An auction is started, its hash written or not. -/
  | started {fault : Bool} {a : Uuid} {row : Auction} {rest dirty : List (Uuid × Auction)}
    (hp : s.starts = some ⟨(a, row) :: rest, dirty⟩) :
    SysStep s (.startStep fault) { s with
      redis := if fault then s.redis else s.redis.hset a (initRedisHash row)
      starts := some ⟨rest, dirty ++ [(a, { row with state := .active })]⟩ }
  /-- The started auctions are committed, or their commit fails. -/
  | startEnded {fault : Bool} {dirty : List (Uuid × Auction)} (hp : s.starts = some ⟨[], dirty⟩) :
    SysStep s (.startCommit fault) { s with
      pg := if fault then s.pg else s.pg.writeAuctions dirty, starts := none }
  /-- The close poll selects. -/
  | closeSelected {batch : List (Uuid × Auction)} (hidle : s.closes = none)
    (hbatch : Selects s.pg (dueClose s.now) batch) :
    SysStep s (.closeSelect batch) { s with closes := some ⟨s.now, batch, .check, []⟩ }
  /-- The close poll moves. -/
  | closed {fault : Bool} {p : ClosePoll} {a : Uuid} {row : Auction}
    {rest : List (Uuid × Auction)} {r : Redis} {p' : Option ClosePoll} (hp : s.closes = some p)
    (htodo : p.todo = (a, row) :: rest)
    (hstep : closeStep s.pg.users fault s.redis p = some (r, p'))
    (hmove : CloseStep s.pg.users fault s.redis p a row r p') :
    SysStep s (.closeStep fault) { s with redis := r, closes := p' }
  /-- The closed auctions are committed, or their commit fails. -/
  | closeEnded {fault : Bool} {nowUtc : ℤ} {pc : ClosePc} {dirty : List (Uuid × Auction)}
    (hp : s.closes = some ⟨nowUtc, [], pc, dirty⟩) :
    SysStep s (.closeCommit fault) { s with
      pg := if fault then s.pg else s.pg.writeAuctions dirty, closes := none }
  /-- The process crashes. -/
  | crashed :
    SysStep s .crash { s with
      pg := s.pg.rollbackAll
      creates := fun a => (s.creates a).map fun c => { c with pc := .ended }
      bids := fun b => (s.bids b).map crashedCall
      starts := none
      closes := none }
  /-- A hash is lost. -/
  | lost {a : Uuid} : SysStep s (.loseHash a) { s with redis := s.redis.loseHash a }

/-- **Every step** is one of these. -/
theorem step_cases {s t : Sys} {act : Act} (h : step s act = some t) : SysStep s act t := by
  cases act with
  | tick micros => cases h; exact .ticked
  | register user => cases h; exact .registered
  | create a sellerId data =>
    simp only [step] at h
    split_ifs at h with hok
    split at h
    · cases h; exact .created hok.1 ‹_› hok.2.1 hok.2.2
    · cases h
  | createStep a fault =>
    simp only [step] at h
    split at h
    · rename_i row hc
      cases fault
      · cases h; exact .opened hc
      · cases h; exact .uncreated hc (by simp)
    · rename_i row hc
      cases fault
      · cases h; exact .stored hc
      · cases h; exact .uncreated hc (by simp)
    · cases h
  | bid b a bidderId data =>
    simp only [step] at h
    split_ifs at h with hok
    cases h
    exact .called hok.1 hok.2
  | bidStep b fault =>
    simp only [step] at h
    split at h
    · rename_i c hc
      obtain ⟨⟨w, pc⟩, hstep, rfl⟩ := Option.map_eq_some_iff.mp h
      exact .moved hc hstep (callStep_cases hstep)
    · cases h
  | startSelect batch =>
    simp only [step] at h
    split_ifs at h with hok
    cases h
    exact .startSelected (Option.isNone_iff_eq_none.mp hok.1) hok.2
  | startStep fault =>
    simp only [step] at h
    split at h
    · rename_i p hp
      obtain ⟨todo, dirty⟩ := p
      cases todo with
      | nil => simp [Lifecycle.startStep] at h
      | cons b rest => cases h; exact .started hp
    · cases h
  | startCommit fault =>
    simp only [step] at h
    split at h
    · cases h; exact .startEnded ‹_›
    · cases h
  | closeSelect batch =>
    simp only [step] at h
    split_ifs at h with hok
    cases h
    exact .closeSelected (Option.isNone_iff_eq_none.mp hok.1) hok.2
  | closeStep fault =>
    simp only [step] at h
    split at h
    · rename_i p hp
      obtain ⟨⟨r, p'⟩, hstep, rfl⟩ := Option.map_eq_some_iff.mp h
      obtain ⟨a, row, rest, htodo, hmove⟩ := closeStep_cases hstep
      exact .closed hp htodo hstep hmove
    · cases h
  | closeCommit fault =>
    simp only [step] at h
    split at h
    · cases h; exact .closeEnded ‹_›
    · cases h
  | crash => cases h; exact .crashed
  | loseHash a => cases h; exact .lost

/-- The bid whose script a step runs, with the arguments of the script. -/
def scriptRun (s : Sys) : Act → Option (Call × Argv)
  | .bidStep b false =>
    match s.bids b with
    | some c =>
      match c.pc with
      | .evalsha endTs => some (c, c.argv b endTs)
      | _ => none
    | none => none
  | _ => none

/-- The auction on which a step accepts a bid. -/
def acceptsOn (s : Sys) (act : Act) : Option Uuid :=
  (scriptRun s act).bind fun (c, argv) =>
    if ∃ h ∈ s.redis.hash c.auctionId, Admits double h argv then some c.auctionId else none

theorem scriptRun_of_evalsha {s : Sys} {b : Uuid} {c : Call} {endTs : ℤ} (hc : s.bids b = some c)
    (hpc : c.pc = .evalsha endTs) : scriptRun s (.bidStep b false) = some (c, c.argv b endTs) := by
  simp only [scriptRun, hc, hpc]

theorem acceptsOn_of_admits {s : Sys} {b : Uuid} {c : Call} {endTs : ℤ} {h : AuctionHash}
    (hc : s.bids b = some c) (hpc : c.pc = .evalsha endTs) (hh : s.redis.hash c.auctionId = some h)
    (hadm : Admits double h (c.argv b endTs)) : acceptsOn s (.bidStep b false) = some c.auctionId := by
  rw [acceptsOn, scriptRun_of_evalsha hc hpc]
  exact if_pos ⟨h, hh, hadm⟩

/-- An accepted bid has passed the checks on its hash. -/
theorem admits_of_acceptsOn {s : Sys} {act : Act} {a : Uuid} (h : acceptsOn s act = some a) :
    ∃ h argv, s.redis.hash a = some h ∧ Admits double h argv := by
  rw [acceptsOn, Option.bind_eq_some_iff] at h
  obtain ⟨⟨c, argv⟩, -, hif⟩ := h
  simp only at hif
  split_ifs at hif with hadm
  cases hif
  obtain ⟨h, hh, hadm⟩ := hadm
  exact ⟨h, argv, hh, hadm⟩

/-- The script runs when its command does not raise. -/
theorem callStep_script {b : Uuid} {c : Call} {endTs : ℤ} {fault : Bool} {w w' : World} {pc : Pc}
    (hpc : c.pc = .evalsha endTs) (h : callStep b c fault w = some (w', pc)) :
    fault = false ∨ w' = w := by
  cases fault with
  | false => exact Or.inl rfl
  | true =>
    simp only [callStep, hpc, if_true, Option.some.injEq, Prod.mk.injEq] at h
    exact Or.inr h.1.symm

/-- A call keeps its arguments. -/
structure SameCall (c c' : Call) : Prop where
  /-- The auction. -/
  auctionId : c'.auctionId = c.auctionId
  /-- The bidder. -/
  bidderId : c'.bidderId = c.bidderId
  /-- The request. -/
  data : c'.data = c.data
  /-- The clock. -/
  nowTs : c'.nowTs = c.nowTs

/-- **Calls are never forgotten.** -/
theorem SysStep.call {s t : Sys} {act : Act} (h : SysStep s act t) {b : Uuid} {c : Call}
    (hc : s.bids b = some c) : ∃ c', t.bids b = some c' ∧ SameCall c c' := by
  cases h with
  | @called b' a bidderId data hnew hpos =>
    by_cases hb : b = b'
    · subst hb
      rw [hnew] at hc
      cases hc
    · exact ⟨c, (Function.update_of_ne hb _ _).trans hc, rfl, rfl, rfl, rfl⟩
  | @moved b' fault c' w pc hc' hstep hmove =>
    by_cases hb : b = b'
    · subst hb
      obtain rfl : c' = c := Option.some.inj (hc'.symm.trans hc)
      exact ⟨_, Function.update_self _ _ _, rfl, rfl, rfl, rfl⟩
    · exact ⟨c, (Function.update_of_ne hb _ _).trans hc, rfl, rfl, rfl, rfl⟩
  | crashed =>
    refine ⟨crashedCall c, by simp [hc], ?_⟩
    unfold crashedCall
    split_ifs <;> exact ⟨rfl, rfl, rfl, rfl⟩
  | _ => exact ⟨c, hc, rfl, rfl, rfl, rfl⟩

/-! ### One auction -/

/-- What a step can do to the hash and the history of the auction `a`. -/
inductive HashMove (s : Sys) (act : Act) (t : Sys) (a : Uuid) : Prop where
  /-- Nothing. -/
  | kept (hash : t.redis.hash a = s.redis.hash a) (log : t.accepted a = s.accepted a)
  /-- `_init_redis_hash`, for a new auction. -/
  | opened {row : Auction} (hact : act = .createStep a false) (src : s.creates a = some ⟨row, .hset⟩)
    (hash : t.redis.hash a = some (initRedisHash row ((s.redis.hash a).getD {})))
    (log : t.accepted a = s.accepted a)
  /-- `_init_redis_hash`, in the start poll. -/
  | started {row : Auction} {rest dirty : List (Uuid × Auction)} (hact : act = .startStep false)
    (src : s.starts = some ⟨(a, row) :: rest, dirty⟩)
    (hash : t.redis.hash a = some (initRedisHash row ((s.redis.hash a).getD {})))
    (log : t.accepted a = s.accepted a)
    (poll : t.starts = some ⟨rest, dirty ++ [(a, { row with state := .active })]⟩)
  /-- The script accepts a bid. -/
  | booked {b : Uuid} {c : Call} {endTs : ℤ} {h : AuctionHash}
    (hact : act = .bidStep b false) (src : s.bids b = some c) (hpc : c.pc = .evalsha endTs)
    (hauction : c.auctionId = a) (hfresh : s.redis.bidResult b = none)
    (hfound : s.redis.hash a = some h) (hadmits : Admits double h (c.argv b endTs))
    (hash : t.redis.hash a = some (bookBid (c.argv b endTs) h))
    (log : t.accepted a = s.accepted a ++
      [⟨c.argv b endTs, (c.argv b endTs).amount, h.sequenceNum.getD 0 + 1⟩])
    (call : t.bids b = some { c with
      pc := .flushBid endTs ⟨.accepted, some (c.argv b endTs).amount, h.sequenceNum.getD 0 + 1⟩ })
  /-- The close poll writes the state. -/
  | closed {p : ClosePoll} {obj : AuctionObj} {row : Auction} {rest : List (Uuid × Auction)}
    {fault : Bool} (hact : act = .closeStep fault) (src : s.closes = some p) (hpc : p.pc = .hset obj)
    (htodo : p.todo = (a, row) :: rest)
    (hash : t.redis.hash a = some (((s.redis.hash a).getD {}).setState obj.row.state))
    (log : t.accepted a = s.accepted a)
  /-- The hash is lost. -/
  | lost (hact : act = .loseHash a) (hash : t.redis.hash a = none)
    (log : t.accepted a = s.accepted a)

/-- **The hash of one auction**: what a step can do to it and to the history. -/
theorem SysStep.hash {s t : Sys} {act : Act} (h : SysStep s act t) (a : Uuid) :
    HashMove s act t a := by
  cases h with
  | @opened b row hc =>
    by_cases hab : a = b
    · subst hab
      exact .opened rfl hc (Redis.hset_hash_self _ _ _) rfl
    · exact .kept (Redis.hset_hash_of_ne hab _) rfl
  | @started fault b row rest dirty hp =>
    cases fault with
    | true => exact .kept rfl rfl
    | false =>
      by_cases hab : a = b
      · subst hab
        exact .started rfl hp (Redis.hset_hash_self _ _ _) rfl rfl
      · exact .kept (Redis.hset_hash_of_ne hab _) rfl
  | @moved b fault c w pc hc hstep hmove =>
    rcases hmove.hash with ⟨endTs, hpc, rfl⟩ | ⟨hhash, -, hlog⟩
    · obtain rfl | hw := callStep_script hpc hstep
      swap
      · exact .kept (congrArg (·.redis.hash a) hw) (congrArg (·.accepted a) hw)
      have httl : 0 < (c.argv b endTs).ttl := ttl_pos _ _
      rcases runScript_cases s.toWorld c.auctionId endTs httl with
        ⟨h, hA, hlog, hpc'⟩ | ⟨hD, hlog⟩
      · by_cases hab : c.auctionId = a
        · subst hab
          refine .booked rfl hc hpc rfl hA.fresh hA.hash hA.admits ?_ ?_ ?_
          · show ((s.toWorld.runScript _ _).redis).hash _ = _
            rw [hA.left, Redis.setResult_hash, Redis.hset_hash_self, hA.hash]
            rfl
          · show (s.toWorld.runScript _ _).accepted _ = _
            rw [hlog, Function.update_self]
          · simp only [callStep, hpc, hpc', Bool.false_eq_true, if_false, Option.some.injEq,
              Prod.mk.injEq] at hstep
            rw [← hstep.2]
            exact Function.update_self _ _ _
        · refine .kept ?_ ?_
          · show ((s.toWorld.runScript _ _).redis).hash _ = _
            rw [hA.left, Redis.setResult_hash, Redis.hset_hash_of_ne (Ne.symm hab)]
          · show (s.toWorld.runScript _ _).accepted _ = _
            rw [hlog, Function.update_of_ne (Ne.symm hab)]
      · exact .kept (congrFun hD.hash a) (congrFun hlog a)
    · exact .kept (congrFun hhash a) (congrFun hlog a)
  | @closed fault p b row rest r p' hp htodo hstep hmove =>
    cases hmove with
    | @closed obj hpc =>
      by_cases hab : a = b
      · subst hab
        exact .closed rfl hp hpc htodo (Redis.hset_hash_self _ _ _) rfl
      · exact .kept (Redis.hset_hash_of_ne hab _) rfl
    | _ => exact .kept rfl rfl
  | @lost b =>
    by_cases hab : a = b
    · subst hab
      exact .lost rfl (Function.update_self _ _ _) rfl
    · exact .kept (Function.update_of_ne hab _ _) rfl
  | _ => exact .kept rfl rfl

/-- **The users**: they are as before, or one has registered. -/
theorem SysStep.users_cases {s t : Sys} {act : Act} (h : SysStep s act t) :
    t.pg.users = s.pg.users ∨ ∃ user, act = .register user ∧ t.pg.users = user :: s.pg.users := by
  cases h with
  | registered => exact Or.inr ⟨_, rfl, rfl⟩
  | moved _ _ hmove => exact Or.inl hmove.auction.2.1
  | @startEnded fault => cases fault <;> exact Or.inl rfl
  | @closeEnded fault => cases fault <;> exact Or.inl rfl
  | _ => exact Or.inl rfl

/-- Users are never removed. -/
theorem SysStep.users {s t : Sys} {act : Act} (h : SysStep s act t) : s.pg.users ⊆ t.pg.users := by
  rcases h.users_cases with heq | ⟨user, -, heq⟩
  · exact heq ▸ List.Subset.refl _
  · exact heq ▸ List.subset_cons_self _ _

/-- What a step can do to the row of the auction `a`. -/
inductive RowMove (s : Sys) (act : Act) (t : Sys) (a : Uuid) : Prop where
  /-- Nothing. -/
  | kept (row : t.pg.auction a = s.pg.auction a)
  /-- It is created. -/
  | stored {row : Auction} (hact : act = .createStep a false) (src : s.creates a = some ⟨row, .commit⟩)
    (stored : t.pg.auction a = some row)
  /-- The start poll commits, or fails to. -/
  | started {dirty : List (Uuid × Auction)} (hact : act = .startCommit false)
    (src : s.starts = some ⟨[], dirty⟩) (hmem : a ∈ dirty.map Prod.fst)
    (row : t.pg.auction a = Pg.setRows dirty s.pg.auction a)
  /-- The close poll commits. -/
  | closed {nowUtc : ℤ} {pc : ClosePc} {dirty : List (Uuid × Auction)}
    (hact : act = .closeCommit false) (src : s.closes = some ⟨nowUtc, [], pc, dirty⟩)
    (hmem : a ∈ dirty.map Prod.fst) (row : t.pg.auction a = Pg.setRows dirty s.pg.auction a)

/-- **The row of one auction**: what a step can do to it. -/
theorem SysStep.row {s t : Sys} {act : Act} (h : SysStep s act t) (a : Uuid) :
    RowMove s act t a := by
  cases h with
  | @stored b row hc =>
    by_cases hab : a = b
    · subst hab
      exact .stored rfl hc (Function.update_self _ _ _)
    · exact .kept (Function.update_of_ne hab _ _)
  | moved hc hstep hmove => exact .kept (congrFun hmove.auction.1 a)
  | @startEnded fault dirty hp =>
    cases fault with
    | true => exact .kept rfl
    | false =>
      by_cases hmem : a ∈ dirty.map Prod.fst
      · exact .started rfl hp hmem rfl
      · exact .kept (Pg.setRows_of_not_mem hmem _)
  | @closeEnded fault nowUtc pc dirty hp =>
    cases fault with
    | true => exact .kept rfl
    | false =>
      by_cases hmem : a ∈ dirty.map Prod.fst
      · exact .closed rfl hp hmem rfl
      · exact .kept (Pg.setRows_of_not_mem hmem _)
  | _ => exact .kept rfl

/-- The commit of the start poll writes the rows it has changed. -/
theorem SysStep.startCommitted {s t : Sys} {dirty : List (Uuid × Auction)}
    (h : SysStep s (.startCommit false) t) (hp : s.starts = some ⟨[], dirty⟩) :
    t.pg = s.pg.writeAuctions dirty := by
  cases h with
  | startEnded hp' =>
    rw [hp] at hp'
    cases hp'
    rfl

/-! ### One call, one poll -/

/-- What a step can do to the creation of the auction `a`. -/
inductive CreateMove (s : Sys) (act : Act) (t : Sys) (a : Uuid) : Prop where
  /-- Nothing. -/
  | kept (hact : act ≠ .createStep a false) (create : t.creates a = s.creates a)
  /-- Its row is flushed. -/
  | created {sellerId : Uuid} {data : AuctionCreate} {row : Auction}
    (hact : act = .create a sellerId data) (hnew : s.creates a = none)
    (hrow : createAuction s.pg.users sellerId data s.now = .ok row)
    (hstart : data.startingPricePositive) (hinc : data.minIncrementPositive)
    (world : t.toWorld = s.toWorld)
    (create : t.creates a = some ⟨row, if row.state = .active then .hset else .commit⟩)
  /-- Its hash is written. -/
  | opened {row : Auction} (hact : act = .createStep a false) (src : s.creates a = some ⟨row, .hset⟩)
    (hash : t.redis.hash a = some (initRedisHash row ((s.redis.hash a).getD {})))
    (create : t.creates a = some ⟨row, .commit⟩)
  /-- It ends. -/
  | ended {c : Create} (src : s.creates a = some c)
    (create : t.creates a = some { c with pc := .ended })

theorem SysStep.creation {s t : Sys} {act : Act} (h : SysStep s act t) (a : Uuid) :
    CreateMove s act t a := by
  cases h with
  | @created b sellerId data row hnew hrow hstart hinc =>
    by_cases hab : a = b
    · subst hab
      exact .created rfl hnew hrow hstart hinc rfl (Function.update_self _ _ _)
    · exact .kept (by simp) (Function.update_of_ne hab _ _)
  | @opened b row hc =>
    by_cases hab : a = b
    · subst hab
      exact .opened rfl hc (Redis.hset_hash_self _ _ _) (Function.update_self _ _ _)
    · exact .kept (by simp [Ne.symm hab]) (Function.update_of_ne hab _ _)
  | @stored b row hc =>
    by_cases hab : a = b
    · subst hab
      exact .ended hc (Function.update_self _ _ _)
    · exact .kept (by simp [Ne.symm hab]) (Function.update_of_ne hab _ _)
  | @uncreated b row pc hc hpc =>
    by_cases hab : a = b
    · subst hab
      exact .ended hc (Function.update_self _ _ _)
    · exact .kept (by simp) (Function.update_of_ne hab _ _)
  | crashed =>
    cases hc : s.creates a with
    | none => exact .kept (by simp) (by simp [hc])
    | some c => exact .ended hc (by simp [hc])
  | _ => exact .kept (by simp) rfl

/-- What a step can do to the call of `place_bid` with the key `b`. -/
inductive BidMove (s : Sys) (act : Act) (t : Sys) (b : Uuid) : Prop where
  /-- Nothing. -/
  | kept (call : t.bids b = s.bids b)
  /-- It is made. -/
  | called {a bidderId : Uuid} {data : BidRequest} (hact : act = .bid b a bidderId data)
    (hnew : s.bids b = none) (hpos : data.amountPositive)
    (call : t.bids b = some ⟨a, bidderId, data, s.now, .dbGet⟩)
  /-- It moves. -/
  | moved {fault : Bool} {c : Call} {pc : Pc} (hact : act = .bidStep b fault)
    (src : s.bids b = some c) (hstep : callStep b c fault s.toWorld = some (t.toWorld, pc))
    (hmove : CallStep b c s.toWorld t.toWorld pc) (call : t.bids b = some { c with pc := pc })
  /-- It is lost in a crash. -/
  | crashed {c : Call} (hact : act = .crash) (src : s.bids b = some c) (hrunning : c.pc.running = true)
    (call : t.bids b = some { c with pc := .aborted })

theorem SysStep.bid {s t : Sys} {act : Act} (h : SysStep s act t) (b : Uuid) : BidMove s act t b := by
  cases h with
  | @called b' a bidderId data hnew hpos =>
    by_cases hb : b = b'
    · subst hb
      exact .called rfl hnew hpos (Function.update_self _ _ _)
    · exact .kept (Function.update_of_ne hb _ _)
  | @moved b' fault c w pc hc hstep hmove =>
    by_cases hb : b = b'
    · subst hb
      exact .moved rfl hc hstep hmove (Function.update_self _ _ _)
    · exact .kept (Function.update_of_ne hb _ _)
  | crashed =>
    cases hc : s.bids b with
    | none => exact .kept (by simp [hc])
    | some c =>
      cases hrun : c.pc.running with
      | false => exact .kept (by simp [hc, crashedCall, hrun])
      | true => exact .crashed rfl hc hrun (by simp [hc, crashedCall, hrun])
  | _ => exact .kept rfl

/-- What a step can do to the start poll. -/
inductive StartsMove (s : Sys) (act : Act) (t : Sys) : Prop where
  /-- Nothing. -/
  | kept (hact : act ≠ .startCommit false) (poll : t.starts = s.starts)
  /-- It selects. -/
  | selected {batch : List (Uuid × Auction)} (hact : act = .startSelect batch)
    (hidle : s.starts = none) (hbatch : Selects s.pg (dueStart s.now) batch)
    (poll : t.starts = some ⟨batch, []⟩)
  /-- It starts an auction. -/
  | started {fault : Bool} {a : Uuid} {row : Auction} {rest dirty : List (Uuid × Auction)}
    (hact : act = .startStep fault) (src : s.starts = some ⟨(a, row) :: rest, dirty⟩)
    (poll : t.starts = some ⟨rest, dirty ++ [(a, { row with state := .active })]⟩)
  /-- It is over. -/
  | gone (hact : act = .crash ∨ ∃ fault dirty, act = .startCommit fault ∧ s.starts = some ⟨[], dirty⟩)
    (poll : t.starts = none)

theorem SysStep.startPoll {s t : Sys} {act : Act} (h : SysStep s act t) : StartsMove s act t := by
  cases h with
  | startSelected hidle hbatch => exact .selected rfl hidle hbatch rfl
  | started hp => exact .started rfl hp rfl
  | startEnded hp => exact .gone (Or.inr ⟨_, _, rfl, hp⟩) rfl
  | crashed => exact .gone (Or.inl rfl) rfl
  | _ => exact .kept (by simp) rfl

/-- What a step can do to the close poll. -/
inductive ClosesMove (s : Sys) (act : Act) (t : Sys) : Prop where
  /-- Nothing. -/
  | kept (hact : act ≠ .closeCommit false) (hstep : ∀ fault, act ≠ .closeStep fault)
    (poll : t.closes = s.closes)
  /-- It selects. -/
  | selected {batch : List (Uuid × Auction)} (hact : act = .closeSelect batch)
    (hidle : s.closes = none) (hbatch : Selects s.pg (dueClose s.now) batch)
    (poll : t.closes = some ⟨s.now, batch, .check, []⟩)
  /-- It moves. -/
  | closed {fault : Bool} {p : ClosePoll} {a : Uuid} {row : Auction}
    {rest : List (Uuid × Auction)} (hact : act = .closeStep fault) (src : s.closes = some p)
    (htodo : p.todo = (a, row) :: rest)
    (hmove : CloseStep s.pg.users fault s.redis p a row t.redis t.closes)
  /-- It is over. -/
  | gone (poll : t.closes = none)

theorem SysStep.closePoll {s t : Sys} {act : Act} (h : SysStep s act t) : ClosesMove s act t := by
  cases h with
  | closeSelected hidle hbatch => exact .selected rfl hidle hbatch rfl
  | closed hp htodo hstep hmove => exact .closed rfl hp htodo hmove
  | closeEnded hp => exact .gone rfl
  | crashed => exact .gone rfl
  | _ => exact .kept (by simp) (by simp) rfl

end OnlineAuction.System
