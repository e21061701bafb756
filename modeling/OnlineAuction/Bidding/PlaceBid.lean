import OnlineAuction.Bidding.ScriptRuns

/-!
# A call of `place_bid`

A call of `place_bid` (`bid_service.py`) from its route, as a machine that moves from one
awaited command to the next. Between two moves anything else may happen to the stores. A
move may meet a fault, an exception of the store that leaves the store as it was; a move
that waits for a lock of another transaction is not enabled. A call that raises has its
transaction rolled back by `get_session`.

## What is proved

* `callStep_cases` — every move of a call is one of the moves of `CallStep`.
* `CallStep.auction` and `CallStep.hash` — a call changes no row of the table `auction`, and
  no hash or history but in its run of the script.
* `runScript_cases` and `afterScript_cases` — the script books the bid of a call and gives the
  verdict, or changes neither hashes nor history.
* `CallStep.of_accepted` and `CallStep.verdict` — an accepted verdict comes from the script, and a
  verdict lasts until the call raises.

## Honest scope

A fault is an exception before the command took effect; a reply that is lost after the
command took effect is not modelled. Two updates of one proxy bid do not wait for each
other.
-/

namespace OnlineAuction.Bidding

open OnlineAuction.Foundation OnlineAuction.Store OnlineAuction.Lifecycle

/-- What the calls and the polls share. -/
structure World where
  /-- The clock, in microseconds. -/
  now : ℤ
  /-- Redis. -/
  redis : Redis
  /-- PostgreSQL. -/
  pg : Pg
  /-- What the script accepted on each auction so far. -/
  accepted : Uuid → List Accept

/-- What a call knows after the script. -/
structure Verdict where
  /-- `ACCEPTED`, or `REJECTED` for a reason. -/
  status : BidStatus
  /-- The current price; `none` is the text `None`. -/
  currentPrice : Option DecStr
  /-- The sequence number. -/
  sequenceNum : ℕ
  deriving DecidableEq

/-- What a call that does not raise answers. -/
inductive Answer where
  /-- The bid was evaluated and stored. -/
  | placed (verdict : Verdict)
  /-- `AUCTION_NOT_FOUND`. -/
  | auctionNotFound
  /-- `LUA_SCRIPT_ERROR`. -/
  | luaScriptError
  deriving DecidableEq

/-- The command a call awaits next, with the variables it still needs; `endTs` is the end
of the auction in the row it loaded. -/
inductive Pc where
  /-- `db.get(Auction, auction_id)`. -/
  | dbGet
  /-- `redis.xadd`. -/
  | xadd (endTs : ℤ)
  /-- `redis.evalsha`. -/
  | evalsha (endTs : ℤ)
  /-- `redis.hgetall`, after a rejection. -/
  | hgetall (endTs : ℤ) (reason : Reason)
  /-- `db.flush` of the bid. -/
  | flushBid (endTs : ℤ) (verdict : Verdict)
  /-- `db.execute(select(ProxyBid))`. -/
  | selectProxy (endTs : ℤ) (verdict : Verdict)
  /-- `db.flush` of the proxy bid, which may exist already. -/
  | flushProxy (endTs : ℤ) (verdict : Verdict) (existing : Bool)
  /-- `redis.publish`. -/
  | publish (endTs : ℤ) (verdict : Verdict)
  /-- `session.commit` in `get_session`. -/
  | commit (verdict : Verdict)
  /-- The call has answered. -/
  | done (answer : Answer)
  /-- The call has raised, or was lost in a crash. -/
  | aborted
  deriving DecidableEq

/-- A call: its arguments, its clock and where it is. The key of the call is its
`bid_id`. -/
structure Call where
  /-- The auction. -/
  auctionId : Uuid
  /-- The bidder. -/
  bidderId : Uuid
  /-- The body of the request. -/
  data : BidRequest
  /-- `now_ts`, in microseconds. -/
  nowTs : ℤ
  /-- What it awaits. -/
  pc : Pc

/-- 48 hours, in seconds. -/
def fortyEightHours : ℤ := 48 * 3600

/-- The time to live of the dedup key: until 48 hours after the end, an hour at least. -/
def ttl (endTs nowTs : ℤ) : ℤ :=
  max 3600 (truncate (double (double (endTs / 1000000) - double (nowTs / 1000000))) +
    fortyEightHours)

theorem ttl_pos (endTs nowTs : ℤ) : 0 < ttl endTs nowTs := lt_max_of_lt_left (by norm_num)

namespace Call

variable (bidId : Uuid) (c : Call)

/-- The entry it appends to the stream. -/
def entry : StreamEntry :=
  ⟨bidId, c.bidderId, toDecimalStr (some (.float c.data.amount)), c.data.isProxy,
    unixSeconds c.nowTs⟩

/-- The arguments it gives to the script. -/
def argv (endTs : ℤ) : Argv :=
  ⟨bidId, c.bidderId, toDecimalStr (some (.float c.data.amount)), unixSeconds c.nowTs,
    ttl endTs c.nowTs⟩

/-- The row it makes of its bid. -/
def row (verdict : Verdict) (amount : Numeric) (now : ℤ) : Bid :=
  ⟨bidId, c.auctionId, c.bidderId, amount, c.data.isProxy, verdict.sequenceNum, verdict.status, now⟩

/-- The message it publishes. -/
def payload (endTs : ℤ) (verdict : Verdict) : Payload :=
  ⟨verdict.sequenceNum, verdict.currentPrice, c.bidderId, unixSeconds endTs⟩

/-- Where it goes from the reply of the script; `int(None)` raises. -/
def afterScript (endTs : ℤ) : Except LuaError Reply → Pc
  | .ok (.accepted price seq _) => .flushBid endTs ⟨.accepted, some price, seq⟩
  | .ok (.replayed price (some seq)) => .flushBid endTs ⟨.accepted, price, seq⟩
  | .ok (.replayed _ none) => .aborted
  | .ok (.rejected reason) => .hgetall endTs reason
  | .error _ => .done .luaScriptError

/-- The verdict on a rejected bid, from the hash read after the script. -/
def rejection (reason : Reason) (data : Option AuctionHash) : Verdict :=
  ⟨.rejected reason, some ((data.bind (·.highestBid)).getD (.dec 0)),
    (data.bind (·.sequenceNum)).getD 0⟩

/-- Where it goes when its rows are flushed: an accepted bid is published. -/
def afterRows (endTs : ℤ) (verdict : Verdict) : Pc :=
  if verdict.status = .accepted then .publish endTs verdict else .commit verdict

/-- Where it goes when its bid is flushed: a proxy bid is stored. -/
def afterBid (endTs : ℤ) (verdict : Verdict) : Pc :=
  if c.data.isProxy ∧ c.data.proxyMax.isSome then .selectProxy endTs verdict
  else afterRows endTs verdict

end Call

/-! ### The moves -/

/-- The outcome of a flush. -/
inductive Flushed where
  /-- A constraint is violated. -/
  | refused
  /-- An open transaction holds a row with the same unique key; the flush waits for it. -/
  | blocked
  /-- The row is written. -/
  | written (pg : Pg)

/-- Insert a row of the table `bid`. -/
def insertBid (pg : Pg) (row : Bid) : Flushed :=
  if row.bidderId ∉ pg.users ∨ integerMax < row.sequenceNum ∨ ∃ b ∈ pg.bid, row.SameKey b then
    .refused
  else if ∃ b ∈ pg.bidOpen, row.SameKey b then .blocked
  else .written { pg with bidOpen := pg.bidOpen ++ [row] }

/-- Write a row of the table `proxy_bid`: an update of an existing one, or an insert. -/
def writeProxy (pg : Pg) (bidId : Uuid) (proxy : ProxyBid) (existing : Bool) : Flushed :=
  if !existing ∧ ∃ p ∈ pg.proxyBid, proxy.SameKey p then .refused
  else if !existing ∧ ∃ p ∈ pg.proxyOpen, proxy.SameKey p.2 then .blocked
  else .written { pg with proxyOpen := pg.proxyOpen ++ [(bidId, proxy)] }

/-- The call raises: its transaction is rolled back. -/
def abort (bidId : Uuid) (w : World) : World × Pc :=
  ({ w with pg := w.pg.rollbackBid bidId }, .aborted)

/-- The script runs, and the history logs its reply. -/
def World.runScript (w : World) (auctionId : Uuid) (argv : Argv) : World :=
  let out := placeBidLua double auctionId argv w.redis
  { w with
    redis := out.1
    accepted := Function.update w.accepted auctionId
      (logReply argv out.2 (w.accepted auctionId)) }

/-- `place_bid`, one awaited command: the stores it leaves and what it awaits next, `none`
when it cannot move. -/
def callStep (bidId : Uuid) (c : Call) (fault : Bool) (w : World) : Option (World × Pc) :=
  match c.pc with
  | .dbGet =>
    if fault then some (abort bidId w)
    else
      match w.pg.auction c.auctionId with
      | none => some (w, .done .auctionNotFound)
      | some auction => some (w, .xadd auction.endTs)
  | .xadd endTs =>
    -- an exception of the stream is passed over
    some (if fault then w else { w with redis := w.redis.xadd c.auctionId (c.entry bidId) },
      .evalsha endTs)
  | .evalsha endTs =>
    if fault then some (w, .done .luaScriptError)
    else
      some (w.runScript c.auctionId (c.argv bidId endTs),
        Call.afterScript endTs (placeBidLua double c.auctionId (c.argv bidId endTs) w.redis).2)
  | .hgetall endTs reason =>
    if fault then some (abort bidId w)
    else some (w, .flushBid endTs (Call.rejection reason (w.redis.hash c.auctionId)))
  | .flushBid endTs verdict =>
    match fault, Numeric.ofNumber c.data.amount.val with
    | false, some amount =>
      match insertBid w.pg (c.row bidId verdict amount w.now) with
      | .refused => some (abort bidId w)
      | .blocked => none
      | .written pg => some ({ w with pg := pg }, c.afterBid endTs verdict)
    | _, _ => some (abort bidId w)
  | .selectProxy endTs verdict =>
    if fault then some (abort bidId w)
    else
      some (w, .flushProxy endTs verdict
        (w.pg.proxyBid.any fun p => p.auctionId = c.auctionId ∧ p.bidderId = c.bidderId))
  | .flushProxy endTs verdict existing =>
    match fault, c.data.proxyMax.bind fun x => Numeric.ofNumber x.val with
    | false, some maxBid =>
      match writeProxy w.pg bidId ⟨c.auctionId, c.bidderId, maxBid, true⟩ existing with
      | .refused => some (abort bidId w)
      | .blocked => none
      | .written pg => some ({ w with pg := pg }, Call.afterRows endTs verdict)
    | _, _ => some (abort bidId w)
  | .publish endTs verdict =>
    -- an exception of the channel is passed over
    some (if fault then w
      else { w with redis := w.redis.publish c.auctionId (c.payload endTs verdict) }, .commit verdict)
  | .commit verdict =>
    if fault then some (abort bidId w)
    else some ({ w with pg := w.pg.commitBid bidId }, .done (.placed verdict))
  | .done _ => none
  | .aborted => none

/-- The call has neither answered nor raised. -/
def Pc.running : Pc → Bool
  | .done _ => false
  | .aborted => false
  | _ => true

/-- The call has loaded the row of its auction and is still running. -/
def Pc.loaded : Pc → Bool
  | .dbGet => false
  | pc => pc.running

/-- The script has not run yet. -/
def Pc.beforeScript : Pc → Bool
  | .dbGet | .xadd _ | .evalsha _ => true
  | _ => false

/-- The verdict of a call that has one and has not raised. -/
def Pc.verdict : Pc → Option Verdict
  | .flushBid _ verdict | .selectProxy _ verdict | .flushProxy _ verdict _
  | .publish _ verdict | .commit verdict | .done (.placed verdict) => some verdict
  | _ => none

/-- The verdict of a call whose transaction holds its bid. -/
def Pc.flushed : Pc → Option Verdict
  | .selectProxy _ verdict | .flushProxy _ verdict _ | .publish _ verdict | .commit verdict =>
    some verdict
  | _ => none

/-- The verdict of a call that has committed. -/
def Pc.placed : Pc → Option Verdict
  | .done (.placed verdict) => some verdict
  | _ => none

/-- The moves of a call, by what they do to the stores. -/
inductive CallStep (bidId : Uuid) (c : Call) (w : World) : World → Pc → Prop where
  /-- The row of the auction is loaded. -/
  | found {auction : Auction} (hpc : c.pc = .dbGet) (hrow : w.pg.auction c.auctionId = some auction) :
    CallStep bidId c w w (.xadd auction.endTs)
  /-- There is no such auction. -/
  | notFound (hpc : c.pc = .dbGet) (hrow : w.pg.auction c.auctionId = none) :
    CallStep bidId c w w (.done .auctionNotFound)
  /-- The bid is appended to the stream, or not. -/
  | appended {endTs : ℤ} {r : Redis} (hpc : c.pc = .xadd endTs)
    (hr : r = w.redis ∨ r = w.redis.xadd c.auctionId (c.entry bidId)) :
    CallStep bidId c w { w with redis := r } (.evalsha endTs)
  /-- The script runs. -/
  | script {endTs : ℤ} (hpc : c.pc = .evalsha endTs) :
    CallStep bidId c w (w.runScript c.auctionId (c.argv bidId endTs))
      (Call.afterScript endTs (placeBidLua double c.auctionId (c.argv bidId endTs) w.redis).2)
  /-- The script cannot be reached. -/
  | noScript {endTs : ℤ} (hpc : c.pc = .evalsha endTs) :
    CallStep bidId c w w (.done .luaScriptError)
  /-- The hash is read after a rejection. -/
  | looked {endTs : ℤ} {reason : Reason} (hpc : c.pc = .hgetall endTs reason) :
    CallStep bidId c w w (.flushBid endTs (Call.rejection reason (w.redis.hash c.auctionId)))
  /-- The bid is flushed. -/
  | flushed {endTs : ℤ} {verdict : Verdict} {amount : Numeric} (hpc : c.pc = .flushBid endTs verdict)
    (hamount : Numeric.ofNumber c.data.amount.val = some amount)
    (huser : c.bidderId ∈ w.pg.users)
    (hnew : ∀ b ∈ w.pg.bid ++ w.pg.bidOpen, ¬ (c.row bidId verdict amount w.now).SameKey b) :
    CallStep bidId c w
      { w with pg := { w.pg with bidOpen := w.pg.bidOpen ++ [c.row bidId verdict amount w.now] } }
      (c.afterBid endTs verdict)
  /-- The proxy bids are searched. -/
  | selected {endTs : ℤ} {verdict : Verdict} {existing : Bool}
    (hpc : c.pc = .selectProxy endTs verdict) :
    CallStep bidId c w w (.flushProxy endTs verdict existing)
  /-- The proxy bid is flushed. -/
  | proxied {endTs : ℤ} {verdict : Verdict} {existing : Bool} {proxy : ProxyBid}
    (hpc : c.pc = .flushProxy endTs verdict existing) :
    CallStep bidId c w { w with pg := { w.pg with proxyOpen := w.pg.proxyOpen ++ [(bidId, proxy)] } }
      (Call.afterRows endTs verdict)
  /-- The acceptance is published, or not. -/
  | published {endTs : ℤ} {verdict : Verdict} {r : Redis} (hpc : c.pc = .publish endTs verdict)
    (hr : r = w.redis ∨ ∃ p, r = w.redis.publish c.auctionId p) :
    CallStep bidId c w { w with redis := r } (.commit verdict)
  /-- The transaction commits. -/
  | committed {verdict : Verdict} (hpc : c.pc = .commit verdict) :
    CallStep bidId c w { w with pg := w.pg.commitBid bidId } (.done (.placed verdict))
  /-- The call raises. -/
  | raised (hpc : c.pc.running = true) (hscript : ∀ endTs, c.pc ≠ .evalsha endTs) :
    CallStep bidId c w { w with pg := w.pg.rollbackBid bidId } .aborted

/-- **Every move of a call** is one of these. -/
theorem callStep_cases {bidId : Uuid} {c : Call} {fault : Bool} {w w' : World} {pc : Pc}
    (h : callStep bidId c fault w = some (w', pc)) : CallStep bidId c w w' pc := by
  unfold callStep at h
  have hraise : c.pc.running = true → (∀ endTs, c.pc ≠ .evalsha endTs) →
      some (abort bidId w) = some (w', pc) → CallStep bidId c w w' pc := by
    intro hrun hscript heq
    cases heq
    exact .raised hrun hscript
  cases hpc : c.pc with
  | dbGet =>
    simp only [hpc] at h
    split at h
    · exact hraise (by rw [hpc]; rfl) (by simp [hpc]) h
    · split at h
      · cases h; exact .notFound hpc ‹_›
      · cases h; exact .found hpc ‹_›
  | xadd endTs =>
    simp only [hpc] at h
    cases h
    cases fault
    · exact .appended hpc (Or.inr rfl)
    · exact .appended hpc (Or.inl rfl)
  | evalsha endTs =>
    simp only [hpc] at h
    split at h
    · cases h; exact .noScript hpc
    · cases h; exact .script hpc
  | hgetall endTs reason =>
    simp only [hpc] at h
    split at h
    · exact hraise (by rw [hpc]; rfl) (by simp [hpc]) h
    · cases h; exact .looked hpc
  | flushBid endTs verdict =>
    simp only [hpc] at h
    split at h
    · rename_i amount hamount
      unfold insertBid at h
      split_ifs at h with hbad hopen
      · exact hraise (by rw [hpc]; rfl) (by simp [hpc]) h
      · cases h
        push Not at hbad hopen
        refine .flushed hpc hamount hbad.1 ?_
        intro b hb
        rcases List.mem_append.mp hb with hb | hb
        · exact hbad.2.2 b hb
        · exact hopen b hb
    · exact hraise (by rw [hpc]; rfl) (by simp [hpc]) h
  | selectProxy endTs verdict =>
    simp only [hpc] at h
    split at h
    · exact hraise (by rw [hpc]; rfl) (by simp [hpc]) h
    · cases h; exact .selected hpc
  | flushProxy endTs verdict existing =>
    simp only [hpc] at h
    split at h
    · unfold writeProxy at h
      split_ifs at h
      · exact hraise (by rw [hpc]; rfl) (by simp [hpc]) h
      · cases h; exact .proxied hpc
    · exact hraise (by rw [hpc]; rfl) (by simp [hpc]) h
  | publish endTs verdict =>
    simp only [hpc] at h
    cases h
    cases fault
    · exact .published hpc (Or.inr ⟨_, rfl⟩)
    · exact .published hpc (Or.inl rfl)
  | commit verdict =>
    simp only [hpc] at h
    split at h
    · exact hraise (by rw [hpc]; rfl) (by simp [hpc]) h
    · cases h; exact .committed hpc
  | done answer => simp [hpc] at h
  | aborted => simp [hpc] at h

/-- A call writes no row of the table `auction`, no user, and does not turn the clock. -/
theorem CallStep.auction {bidId : Uuid} {c : Call} {w w' : World} {pc : Pc}
    (h : CallStep bidId c w w' pc) :
    w'.pg.auction = w.pg.auction ∧ w'.pg.users = w.pg.users ∧ w'.now = w.now := by
  cases h <;> exact ⟨rfl, rfl, rfl⟩

/-- Outside its run of the script a call changes no hash, no dedup key and no history. -/
theorem CallStep.hash {bidId : Uuid} {c : Call} {w w' : World} {pc : Pc}
    (h : CallStep bidId c w w' pc) :
    (∃ endTs, c.pc = .evalsha endTs ∧ w' = w.runScript c.auctionId (c.argv bidId endTs)) ∨
      w'.redis.hash = w.redis.hash ∧ w'.redis.bidResult = w.redis.bidResult ∧
        w'.accepted = w.accepted := by
  cases h with
  | script hpc => exact Or.inl ⟨_, hpc, rfl⟩
  | appended hpc hr => right; rcases hr with rfl | rfl <;> exact ⟨rfl, rfl, rfl⟩
  | published hpc hr => right; rcases hr with rfl | ⟨p, rfl⟩ <;> exact ⟨rfl, rfl, rfl⟩
  | _ => exact Or.inr ⟨rfl, rfl, rfl⟩

/-- **The script of a call** books the bid and gives the verdict, or it changes neither hashes nor
history. -/
theorem runScript_cases (w : World) (auctionId : Uuid) {argv : Argv} (endTs : ℤ)
    (httl : 0 < argv.ttl) :
    (∃ h, Accepts double auctionId argv w.redis (w.runScript auctionId argv).redis h ∧
      (w.runScript auctionId argv).accepted = Function.update w.accepted auctionId
        (w.accepted auctionId ++ [⟨argv, argv.amount, h.sequenceNum.getD 0 + 1⟩]) ∧
      Call.afterScript endTs (placeBidLua double auctionId argv w.redis).2 =
        .flushBid endTs ⟨.accepted, some argv.amount, h.sequenceNum.getD 0 + 1⟩) ∨
    (Declines argv w.redis (w.runScript auctionId argv).redis
        (placeBidLua double auctionId argv w.redis).2 ∧
      (w.runScript auctionId argv).accepted = w.accepted) := by
  rcases placeBidLua_cases double auctionId w.redis httl with ⟨h, hA, hrep⟩ | hD
  · refine Or.inl ⟨h, hA, ?_, ?_⟩
    · simp only [World.runScript, hrep, logReply]
    · rw [hrep]
      rfl
  · refine Or.inr ⟨hD, ?_⟩
    simp only [World.runScript, hD.log, Function.update_eq_self]

/-- Of a call that has no dedup key, it gives the verdict or none. -/
theorem afterScript_cases {w : World} (auctionId : Uuid) {argv : Argv} (endTs : ℤ)
    (httl : 0 < argv.ttl) (hfresh : w.redis.bidResult argv.bidId = none) :
    (∃ h, Accepts double auctionId argv w.redis (w.runScript auctionId argv).redis h ∧
      (w.runScript auctionId argv).accepted = Function.update w.accepted auctionId
        (w.accepted auctionId ++ [⟨argv, argv.amount, h.sequenceNum.getD 0 + 1⟩]) ∧
      Call.afterScript endTs (placeBidLua double auctionId argv w.redis).2 =
        .flushBid endTs ⟨.accepted, some argv.amount, h.sequenceNum.getD 0 + 1⟩) ∨
    ((w.runScript auctionId argv).redis.hash = w.redis.hash ∧
      (w.runScript auctionId argv).accepted = w.accepted ∧
      ((∃ reason, Call.afterScript endTs (placeBidLua double auctionId argv w.redis).2 =
          .hgetall endTs reason) ∨
        Call.afterScript endTs (placeBidLua double auctionId argv w.redis).2 =
          .done .luaScriptError)) := by
  rcases runScript_cases w auctionId endTs httl with hbooked | ⟨hD, hlog⟩
  · exact Or.inl hbooked
  · have hrep := hD.reply
    have hplay := hD.fresh hfresh
    refine Or.inr ⟨hD.hash, hlog, ?_⟩
    generalize (placeBidLua double auctionId argv w.redis).2 = res at hrep hplay ⊢
    cases res with
    | error e => exact Or.inr rfl
    | ok reply =>
      cases reply with
      | accepted price seq endTs' => exact absurd rfl (hrep _ _ _)
      | replayed price seq => exact absurd rfl (hplay _ _)
      | rejected reason => exact Or.inl ⟨reason, rfl⟩

@[simp] theorem Call.afterRows_flushed (endTs : ℤ) (v : Verdict) :
    (Call.afterRows endTs v).flushed = some v := by
  unfold Call.afterRows
  split_ifs <;> rfl

@[simp] theorem Call.afterRows_verdict (endTs : ℤ) (v : Verdict) :
    (Call.afterRows endTs v).verdict = some v := by
  unfold Call.afterRows
  split_ifs <;> rfl

@[simp] theorem Call.afterBid_flushed (c : Call) (endTs : ℤ) (v : Verdict) :
    (c.afterBid endTs v).flushed = some v := by
  unfold Call.afterBid
  split_ifs
  · rfl
  · exact Call.afterRows_flushed endTs v

@[simp] theorem Call.afterBid_verdict (c : Call) (endTs : ℤ) (v : Verdict) :
    (c.afterBid endTs v).verdict = some v := by
  unfold Call.afterBid
  split_ifs
  · rfl
  · exact Call.afterRows_verdict endTs v

@[simp] theorem Call.afterRows_placed (endTs : ℤ) (v : Verdict) :
    (Call.afterRows endTs v).placed = none := by
  unfold Call.afterRows
  split_ifs <;> rfl

@[simp] theorem Call.afterBid_placed (c : Call) (endTs : ℤ) (v : Verdict) :
    (c.afterBid endTs v).placed = none := by
  unfold Call.afterBid
  split_ifs
  · rfl
  · exact Call.afterRows_placed endTs v

@[simp] theorem Call.afterScript_flushed (endTs : ℤ) (res : Except LuaError Reply) :
    (Call.afterScript endTs res).flushed = none := by
  unfold Call.afterScript
  split <;> rfl

@[simp] theorem Call.afterScript_placed (endTs : ℤ) (res : Except LuaError Reply) :
    (Call.afterScript endTs res).placed = none := by
  unfold Call.afterScript
  split <;> rfl

theorem Pc.placed_of_running {pc : Pc} (h : pc.running = true) : pc.placed = none := by
  cases pc with
  | done answer => cases h
  | _ => rfl

/-- A call with a verdict goes on or has answered with it. -/
theorem Pc.running_or_placed {pc : Pc} {v : Verdict} (h : pc.verdict = some v) :
    pc.running = true ∨ pc.placed = some v := by
  cases pc with
  | done answer => exact Or.inr (by cases answer <;> exact h)
  | aborted => cases h
  | _ => exact Or.inl rfl

theorem Pc.verdict_of_placed {pc : Pc} {v : Verdict} (h : pc.placed = some v) :
    pc.verdict = some v := by
  cases pc with
  | done answer => cases answer <;> exact h
  | _ => cases h

/-- A call keeps its verdict until it raises. -/
theorem CallStep.verdict {bidId : Uuid} {c : Call} {w w' : World} {pc : Pc}
    (h : CallStep bidId c w w' pc) {v : Verdict} (hv : c.pc.verdict = some v) :
    pc.verdict = some v ∨ pc = .aborted := by
  cases h with
  | raised => exact Or.inr rfl
  | found hpc | notFound hpc | appended hpc | script hpc | noScript hpc | looked hpc =>
    rw [hpc] at hv
    cases hv
  | flushed hpc | selected hpc | proxied hpc | published hpc | committed hpc =>
    rw [hpc] at hv
    cases hv
    left
    first | exact Call.afterBid_verdict _ _ _ | exact Call.afterRows_verdict _ _ | rfl

/-- An accepted verdict comes from the script. -/
theorem CallStep.of_accepted {bidId : Uuid} {c : Call} {w w' : World} {pc : Pc}
    (h : CallStep bidId c w w' pc) {v : Verdict} (hv : pc.verdict = some v)
    (hacc : v.status = .accepted) :
    c.pc.verdict = some v ∨ ∃ endTs, c.pc = .evalsha endTs ∧
      w' = w.runScript c.auctionId (c.argv bidId endTs) ∧
      pc = Call.afterScript endTs (placeBidLua double c.auctionId (c.argv bidId endTs) w.redis).2 := by
  cases h with
  | script hpc => exact Or.inr ⟨_, hpc, rfl, rfl⟩
  | looked => cases hv; cases hacc
  | found | notFound | appended | noScript | raised => cases hv
  | flushed hpc => left; rw [hpc, ← hv]; exact (Call.afterBid_verdict _ _ _).symm
  | proxied hpc => left; rw [hpc, ← hv]; exact (Call.afterRows_verdict _ _).symm
  | selected hpc | published hpc | committed hpc => left; rw [hpc, ← hv]; rfl

/-- A call that has raised or answered does not move. -/
theorem CallStep.running {bidId : Uuid} {c : Call} {w w' : World} {pc : Pc}
    (h : CallStep bidId c w w' pc) : c.pc.running = true := by
  cases h with
  | raised hpc => exact hpc
  | found hpc | notFound hpc | appended hpc | script hpc | noScript hpc | looked hpc | flushed hpc
  | selected hpc | proxied hpc | published hpc | committed hpc => rw [hpc]; rfl

end OnlineAuction.Bidding
