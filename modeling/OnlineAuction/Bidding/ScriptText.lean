import OnlineAuction.Bidding.Script
import OnlineAuction.Store.Keyspace

/-!
# The script, on texts

`place_bid.lua` (`redis_client.py`, `register_scripts`) as Lua runs it: over the keyspace, with texts
for `KEYS`, `ARGV` and the fields of the hash, `tonumber` where it converts them, and one
`redis.call` after the other. A missing field is `false`, a text that is no number becomes `nil`, and
an error leaves what was written before it.

## What is proved

* `placeBidText_simulates` — on the texts of structures it does what `placeBidLua` does on the
  structures, and returns the texts of what that returns.

## Honest scope

The integers are small (`HashFits`, `ArgvFits`): Lua's numbers hold them exactly, and Redis takes them.
-/

namespace OnlineAuction.Bidding

open OnlineAuction.Foundation OnlineAuction.Store

/-! ### Lua -/

/-- How a script fails. -/
inductive ScriptError where
  /-- A comparison with a value that is no number. -/
  | compareNil
  /-- Arithmetic on a value that is no number. -/
  | arithmeticNil
  /-- Redis refuses a command. -/
  | redis (e : RedisError)
  deriving DecidableEq

/-- A script: it changes the keyspace, also when it fails. -/
abbrev LuaScript := ExceptT ScriptError (StateM Keyspace)

/-- A run of a script. -/
def exec {α : Type} (script : LuaScript α) (ks : Keyspace) : Keyspace × Except ScriptError α :=
  let out := Id.run (script.run.run ks)
  (out.2, out.1)

/-- `redis.call`. -/
def call {α : Type} (command : Command α) : LuaScript α := do
  match command (← get) with
  | .ok (ks, reply) =>
    set ks
    pure reply
  | .error e => throw (.redis e)

/-- `x + y`. -/
def luaAdd (R : Rounding) : Option Number → Option Number → LuaScript Number
  | some x, some y => pure (x.add R y)
  | _, _ => throw .arithmeticNil

/-- `x <= y`. -/
def luaLe : Option Number → Option Number → LuaScript Bool
  | some x, some y => pure (decide (x ≤ y))
  | _, _ => throw .compareNil

/-- `x < y`. -/
def luaLt : Option Number → Option Number → LuaScript Bool
  | some x, some y => pure (decide (x < y))
  | _, _ => throw .compareNil

/-- `p and q`. -/
def luaAnd (p : Bool) (q : LuaScript Bool) : LuaScript Bool := if p then q else pure false

/-- A value that a script returns. -/
inductive Value where
  /-- An integer: Lua's numbers lose their fraction. -/
  | int (n : ℤ)
  /-- A string. -/
  | bulk (text : Text)
  /-- `false`. -/
  | nil
  deriving DecidableEq

/-- The reply of an `HGET`, returned. -/
def Value.ofText (text : Option Text) : Value := text.elim .nil .bulk

/-- `ARGV`. -/
structure ArgvText where
  /-- `ARGV[1]`. -/
  bidId : Text
  /-- `ARGV[2]`. -/
  bidderId : Text
  /-- `ARGV[3]`. -/
  amount : Text
  /-- `ARGV[4]`. -/
  nowTs : Text
  /-- `ARGV[5]`. -/
  ttl : Text
  deriving DecidableEq

/-- Step 4 of the script. -/
def acceptText (R : Rounding) (key₁ key₂ : Text) (argv : ArgvText) : LuaScript (List Value) := do
  call (.hset key₁ [(HashField.highestBid.text, argv.amount),
    (HashField.highestBidder.text, argv.bidderId), (HashField.lastBidTs.text, argv.nowTs)])
  let seq ← call (.hincr key₁ HashField.sequenceNum.text)
  call (.setEx key₂ "ACCEPTED".toList argv.ttl)
  let endTs ← call (.hget key₁ HashField.endTs.text)
  pure [.int 1, .bulk argv.amount, .int (truncate (R seq)), .ofText endTs]

/-- A rejection. -/
def rejectText (key₂ : Text) (argv : ArgvText) (reason : Text) : LuaScript (List Value) := do
  call (.setEx key₂ reason argv.ttl)
  pure [.int 0, .bulk reason]

/-- Step 3 of the script. -/
def amountText (R : Rounding) (key₁ key₂ : Text) (argv : ArgvText) : LuaScript (List Value) := do
  let price ← call (.hget key₁ HashField.highestBid.text)
  let current := price.elim (some (.fin 0)) (luaNumber R)
  let increment ← call (.hget key₁ HashField.minIncrement.text)
  let minBid ← luaAdd R current (increment.bind (luaNumber R))
  let amount := luaNumber R argv.amount
  let bidder ← call (.hget key₁ HashField.highestBidder.text)
  let self ← luaAnd (bidder = some argv.bidderId) (luaLe amount current)
  if self then rejectText key₂ argv "SELF_OUTBID".toList
  else
    let low ← luaLt amount (some minBid)
    if low then rejectText key₂ argv "BID_TOO_LOW".toList
    else acceptText R key₁ key₂ argv

/-- Steps 1 and 2 of the script. -/
def checkText (R : Rounding) (key₁ key₂ : Text) (argv : ArgvText) : LuaScript (List Value) := do
  let state ← call (.hget key₁ HashField.state.text)
  if state ≠ some "ACTIVE".toList then rejectText key₂ argv "AUCTION_NOT_ACTIVE".toList
  else
    let endTs ← call (.hget key₁ HashField.endTs.text)
    let ended ← luaLe (endTs.bind (luaNumber R)) (luaNumber R argv.nowTs)
    if ended then rejectText key₂ argv "AUCTION_ENDED".toList
    else amountText R key₁ key₂ argv

/-- Step 0 of the script, for a bid that was already processed. -/
def cachedText (key₁ cached : Text) : LuaScript (List Value) :=
  if cached = "ACCEPTED".toList then do
    let price ← call (.hget key₁ HashField.highestBid.text)
    let seq ← call (.hget key₁ HashField.sequenceNum.text)
    pure [.int 1, .ofText price, .ofText seq]
  else pure [.int 0, .bulk cached]

/-- The script. -/
def placeBidText (R : Rounding) (key₁ key₂ : Text) (argv : ArgvText) : LuaScript (List Value) := do
  match ← call (.get key₂) with
  | some cached => cachedText key₁ cached
  | none => checkText R key₁ key₂ argv

section Exec

variable {α β : Type} {ks ks' : Keyspace}

@[simp] theorem exec_pure (a : α) : exec (pure a) ks = (ks, .ok a) := rfl

theorem exec_throw (e : ScriptError) : exec (throw e : LuaScript α) ks = (ks, .error e) := rfl

theorem exec_bind (script : LuaScript α) (k : α → LuaScript β) :
    exec (script >>= k) ks = match exec script ks with
      | (ks', .ok a) => exec (k a) ks'
      | (ks', .error e) => (ks', .error e) := by
  simp only [exec, ExceptT.run_bind, StateT.run_bind, Id.run_bind]
  cases (StateT.run (ExceptT.run script) ks).run.1 <;> rfl

/-- A script goes on after a part of it that does not fail. -/
theorem exec_ok {script : LuaScript α} {a : α} (h : exec script ks = (ks', .ok a))
    (k : α → LuaScript β) : exec (script >>= k) ks = exec (k a) ks' := by
  rw [exec_bind, h]

/-- A command that Redis takes. -/
theorem exec_call {command : Command α} {a : α} (h : command ks = .ok (ks', a))
    (k : α → LuaScript β) : exec (call command >>= k) ks = exec (k a) ks' := by
  have hget : (StateT.run (ExceptT.run (get : LuaScript Keyspace)) ks).run = (.ok ks, ks) := rfl
  have hcall : exec (call command) ks = (ks', .ok a) := by
    unfold exec call
    simp only [ExceptT.run_bind, StateT.run_bind, Id.run_bind, hget, h]
    rfl
  exact exec_ok hcall k

/-- A command that Redis refuses. -/
theorem exec_call_error {command : Command α} {e : RedisError} (h : command ks = .error e)
    (k : α → LuaScript β) : exec (call command >>= k) ks = (ks, .error (.redis e)) := by
  have hget : (StateT.run (ExceptT.run (get : LuaScript Keyspace)) ks).run = (.ok ks, ks) := rfl
  have hcall : exec (call command) ks = (ks, .error (.redis e)) := by
    unfold exec call
    simp only [ExceptT.run_bind, StateT.run_bind, Id.run_bind, hget, h]
    rfl
  rw [exec_bind, hcall]

end Exec

/-! ### The texts of the structures -/

/-- A hash whose bidder is a UUID and whose integers are small. -/
structure HashFits (h : AuctionHash) : Prop where
  /-- The bidder. -/
  bidder : ∀ b, h.highestBidder = some (some b) → IsUuid b
  /-- The end. -/
  endTs : ∀ e, h.endTs = some e → IsSmall e
  /-- The sequence number, also when it is counted up. -/
  sequenceNum : h.sequenceNum.getD 0 < 2 ^ 52

/-- Arguments whose ids are UUIDs and whose integers are small. -/
structure ArgvFits (argv : Argv) : Prop where
  /-- The bid. -/
  bidId : IsUuid argv.bidId
  /-- The bidder. -/
  bidderId : IsUuid argv.bidderId
  /-- The clock. -/
  nowTs : IsSmall argv.nowTs
  /-- The time to live. -/
  ttl : IsSmall argv.ttl

/-- The texts of the arguments. -/
def Argv.text (argv : Argv) : ArgvText :=
  ⟨uuidText argv.bidId, uuidText argv.bidderId, argv.amount.text, intText argv.nowTs, intText argv.ttl⟩

/-- The failures, on texts. -/
def LuaError.onText : LuaError → ScriptError
  | .compareNil => .compareNil
  | .arithmeticNil => .arithmeticNil
  | .invalidExpire => .redis .invalidExpire

/-- The values of a reply. -/
def Reply.values : Reply → List Value
  | .accepted price seq endTs => [.int 1, .bulk price.text, .int seq, .ofText (endTs.map intText)]
  | .replayed price seq =>
    [.int 1, .ofText (price.map DecStr.text), .ofText (seq.map fun n : ℕ => intText n)]
  | .rejected reason => [.int 0, .bulk reason.text]

/-- What a run returns, on texts. -/
def onText : Except LuaError Reply → Except ScriptError (List Value)
  | .ok reply => .ok reply.values
  | .error e => .error e.onText

/-- A run on texts leaves and returns the texts of what the run on structures leaves and returns. -/
def Simulates (out : Keyspace × Except ScriptError (List Value)) (out' : Redis × Except LuaError Reply) :
    Prop := Encodes out.1 out'.1 ∧ out.2 = onText out'.2

theorem luaNumber_intText {n : ℤ} (h : IsSmall n) : luaNumber double (intText n) = some (.fin n) := by
  have hkept : double (n : ℚ) = n := binary64.round_intCast (by decide) h
  rw [luaNumber, readNumber_intText keepsNumerals_cSpace, Option.map_some, Number.round_fin, hkept]

theorem luaNumber_text (s : DecStr) : luaNumber double s.text = some (tonumber double s) := by
  rw [luaNumber, readNumber_text keepsNumerals_cSpace]
  rfl

theorem truncate_intCast (n : ℤ) : truncate n = n := by
  unfold truncate
  split_ifs
  · exact Int.floor_intCast n
  · exact Int.ceil_intCast n

/-- The `HSET` of step 4. -/
def setBid (argv : Argv) (h : AuctionHash) : AuctionHash :=
  { h with highestBid := some argv.amount, highestBidder := some (some argv.bidderId),
           lastBidTs := some argv.nowTs }

section Simulation

variable {ks : Keyspace} {r : Redis} {argv : Argv} {a : Uuid}

/-- Setting the dedup key. -/
theorem setEx_simulates (h : Encodes ks r) (hfits : ArgvFits argv) (status : BidStatus) (reply : Reply)
    {k : LuaScript (List Value)}
    (hk : ∀ ks', Encodes ks' (r.setResult argv.bidId status) → exec k ks' = (ks', .ok reply.values)) :
    Simulates (exec (call (.setEx (resultKey argv.bidId) status.text argv.text.ttl) >>= fun _ => k) ks)
      (markAndReturn r argv status reply) := by
  have hread : readInt64 argv.text.ttl = .ok argv.ttl := readInt64_intText hfits.ttl
  have hsmall := abs_le.mp hfits.ttl
  by_cases hpos : 0 < argv.ttl
  · have hset : Command.setEx (resultKey argv.bidId) status.text argv.text.ttl ks =
        .ok (Function.update ks (resultKey argv.bidId) (some (.str status.text)), ()) := by
      have hok : ¬ (argv.ttl ≤ 0 ∨ int64Max / 1000 < argv.ttl) := by
        unfold int64Max
        omega
      simp only [Command.setEx, hread]
      rw [if_neg hok]
    have hencodes := h.setEx hfits.bidId status
    rw [exec_call hset, hk _ hencodes, markAndReturn_of_pos hpos]
    exact ⟨hencodes, rfl⟩
  · have hset : Command.setEx (resultKey argv.bidId) status.text argv.text.ttl ks =
        .error .invalidExpire := by
      simp only [Command.setEx, hread]
      rw [if_pos (Or.inl (not_lt.mp hpos))]
    rw [exec_call_error hset, markAndReturn, if_neg hpos]
    exact ⟨h, rfl⟩

/-- A rejection. -/
theorem reject_simulates (h : Encodes ks r) (hfits : ArgvFits argv) (reason : Reason) {text : Text}
    (htext : text = reason.text) :
    Simulates (exec (rejectText (resultKey argv.bidId) argv.text text) ks)
      (markAndReturn r argv (.rejected reason) (.rejected reason)) := by
  subst htext
  exact setEx_simulates h hfits (.rejected reason) (.rejected reason) fun _ _ => rfl

/-- An acceptance. -/
theorem accept_simulates (h : Encodes ks r) (ha : IsUuid a) (hfits : ArgvFits argv) {data : AuctionHash}
    (hdata : r.hash a = some data) (hhash : HashFits data) :
    Simulates (exec (acceptText double (auctionKey a) (resultKey argv.bidId) argv.text) ks)
      (markAndReturn (r.hset a (bookBid argv)) argv .accepted (.accepted argv.amount
        (((r.hset a (bookBid argv)).hget a (·.sequenceNum)).getD 0)
        ((r.hset a (bookBid argv)).hget a (·.endTs)))) := by
  -- the three fields of the `HSET`
  have hwrite : (setBid argv ((r.hash a).getD {})).get = setFields ((r.hash a).getD {}).get
      [(.highestBid, argv.amount.text), (.highestBidder, uuidText argv.bidderId),
        (.lastBidTs, intText argv.nowTs)] := by
    funext field
    rw [hdata]
    cases field <;> simp [setFields, AuctionHash.get, setBid, Function.update, bidderText]
  obtain ⟨ks₁, hset, h₁⟩ := h.hset ha hwrite
  -- the sequence number
  obtain ⟨ks₂, hincr, h₂⟩ := h₁.hincr ha (Redis.hset_hash_self _ _ _)
    (by simpa [hdata, setBid] using hhash.sequenceNum)
  have hbooked : (r.hset a (setBid argv)).hset a AuctionHash.countUp = r.hset a (bookBid argv) := by
    simp [Redis.hset, hdata, bookBid, setBid, AuctionHash.countUp]
  rw [hbooked] at h₂
  have hsmall : IsSmall (data.sequenceNum.getD 0 + 1 : ℤ) := by
    have := hhash.sequenceNum
    rw [IsSmall, abs_le]
    omega
  have hkept : double ((data.sequenceNum.getD 0 + 1 : ℤ) : ℚ) = (data.sequenceNum.getD 0 + 1 : ℤ) :=
    binary64.round_intCast (by decide) hsmall
  have hset : Command.hset (auctionKey a) [(HashField.highestBid.text, argv.text.amount),
      (HashField.highestBidder.text, argv.text.bidderId), (HashField.lastBidTs.text, argv.text.nowTs)] ks =
      .ok (ks₁, ()) := hset
  rw [acceptText, exec_call hset, exec_call hincr]
  refine setEx_simulates h₂ hfits .accepted _ fun ks₃ h₃ => ?_
  have hend := h₃.hget ha .endTs
  rw [Redis.setResult_hash, Redis.hset_hash_self, hdata, Option.getD_some, Option.bind_some] at hend
  rw [exec_call hend, exec_pure]
  simp only [hdata, Option.getD_some, setBid, hkept, truncate_intCast]
  simp [Reply.values, Redis.hget, hdata, bookBid, AuctionHash.get, Argv.text]

/-- Step 3. -/
theorem amount_simulates (h : Encodes ks r) (ha : IsUuid a) (hfits : ArgvFits argv) {data : AuctionHash}
    (hdata : r.hash a = some data) (hhash : HashFits data) :
    Simulates (exec (amountText double (auctionKey a) (resultKey argv.bidId) argv.text) ks)
      (match data.minIncrement with
      | none => (r, .error .arithmeticNil)
      | some minIncrement =>
        if data.highestBidder = some (some argv.bidderId) ∧
            tonumber double argv.amount ≤ currentPrice double data.highestBid then
          markAndReturn r argv (.rejected .selfOutbid) (.rejected .selfOutbid)
        else if tonumber double argv.amount <
            (currentPrice double data.highestBid).add double (tonumber double minIncrement) then
          markAndReturn r argv (.rejected .bidTooLow) (.rejected .bidTooLow)
        else
          markAndReturn (r.hset a (bookBid argv)) argv .accepted (.accepted argv.amount
            (((r.hset a (bookBid argv)).hget a (·.sequenceNum)).getD 0)
            ((r.hset a (bookBid argv)).hget a (·.endTs)))) := by
  have hprice := h.hget ha .highestBid
  have hincrement := h.hget ha .minIncrement
  have hbidder := h.hget ha .highestBidder
  simp only [hdata, Option.bind_some, AuctionHash.get] at hprice hincrement hbidder
  have hcurrent : (data.highestBid.map DecStr.text).elim (some (.fin 0)) (luaNumber double) =
      some (currentPrice double data.highestBid) := by
    cases data.highestBid with
    | none => rfl
    | some s => exact luaNumber_text s
  have hsame : data.highestBidder.map bidderText = some argv.text.bidderId ↔
      data.highestBidder = some (some argv.bidderId) := by
    show _ = some (uuidText argv.bidderId) ↔ _
    cases hb : data.highestBidder with
    | none => simp
    | some b =>
      cases b with
      | none => simpa [bidderText] using (uuidText_ne_nil argv.bidderId).symm
      | some b =>
        simp only [Option.map_some, bidderText, Option.some.injEq]
        exact ⟨uuidText_inj (hhash.bidder b hb) hfits.bidderId, fun h => h ▸ rfl⟩
  rw [amountText, exec_call hprice, exec_call hincrement, hcurrent]
  cases hinc : data.minIncrement with
  | none => exact ⟨h, rfl⟩
  | some minIncrement =>
    have hadd : exec (luaAdd double (some (currentPrice double data.highestBid))
        (((some minIncrement).map DecStr.text).bind (luaNumber double))) ks = (ks, .ok
          ((currentPrice double data.highestBid).add double (tonumber double minIncrement))) := by
      rw [Option.map_some, Option.bind_some, luaNumber_text]
      rfl
    have hself : exec (luaAnd (data.highestBidder.map bidderText = some argv.text.bidderId)
        (luaLe (luaNumber double argv.text.amount) (some (currentPrice double data.highestBid)))) ks =
        (ks, .ok (decide (data.highestBidder = some (some argv.bidderId) ∧
          tonumber double argv.amount ≤ currentPrice double data.highestBid))) := by
      rw [show luaNumber double argv.text.amount = _ from luaNumber_text argv.amount, luaAnd]
      by_cases hleads : data.highestBidder = some (some argv.bidderId)
      · rw [if_pos (decide_eq_true (hsame.mpr hleads))]
        simp only [hleads, true_and]
        rfl
      · rw [if_neg (by simpa using mt hsame.mp hleads)]
        simp [hleads]
    have hlow : exec (luaLt (luaNumber double argv.text.amount) (some ((currentPrice double
        data.highestBid).add double (tonumber double minIncrement)))) ks =
        (ks, .ok (decide (tonumber double argv.amount < (currentPrice double
          data.highestBid).add double (tonumber double minIncrement)))) := by
      rw [show luaNumber double argv.text.amount = _ from luaNumber_text argv.amount]
      rfl
    rw [exec_ok hadd, exec_call hbidder]
    simp only
    rw [exec_ok hself]
    by_cases h₁ : data.highestBidder = some (some argv.bidderId) ∧
        tonumber double argv.amount ≤ currentPrice double data.highestBid
    · rw [if_pos (decide_eq_true h₁), if_pos h₁]
      exact reject_simulates h hfits .selfOutbid rfl
    · rw [if_neg (ne_true_of_eq_false (decide_eq_false h₁)), if_neg h₁, exec_ok hlow]
      by_cases h₂ : tonumber double argv.amount <
          (currentPrice double data.highestBid).add double (tonumber double minIncrement)
      · rw [if_pos (decide_eq_true h₂), if_pos h₂]
        exact reject_simulates h hfits .bidTooLow rfl
      · rw [if_neg (ne_true_of_eq_false (decide_eq_false h₂)), if_neg h₂]
        exact accept_simulates h ha hfits hdata hhash

/-- Steps 1 and 2. -/
theorem check_simulates (h : Encodes ks r) (ha : IsUuid a) (hfits : ArgvFits argv)
    (hhash : ∀ data, r.hash a = some data → HashFits data) (hfresh : r.bidResult argv.bidId = none) :
    Simulates (exec (checkText double (auctionKey a) (resultKey argv.bidId) argv.text) ks)
      (placeBidLua double a argv r) := by
  have hstate := h.hget ha .state
  have hend := h.hget ha .endTs
  rw [checkText, exec_call hstate, placeBidLua]
  simp only [hfresh]
  by_cases hactive : r.hget a (·.state) = some .active
  · obtain ⟨data, hdata⟩ : ∃ data, r.hash a = some data := by
      cases hdata : r.hash a with
      | none => simp [Redis.hget, hdata] at hactive
      | some data => exact ⟨data, rfl⟩
    have hfields := hhash data hdata
    simp only [hget_of_hash hdata] at hactive ⊢
    simp only [hdata, Option.bind_some, AuctionHash.get, hactive, Option.map_some] at hend ⊢
    have htext : ¬ some AuctionState.active.text ≠ some "ACTIVE".toList := not_not.mpr rfl
    rw [if_neg htext, exec_call hend]
    cases he : data.endTs with
    | none => exact ⟨h, rfl⟩
    | some endTs =>
      have hended : exec (luaLe (((some endTs).map intText).bind (luaNumber double))
          (luaNumber double argv.text.nowTs)) ks = (ks, .ok (decide (endTs ≤ argv.nowTs))) := by
        rw [Option.map_some, Option.bind_some, luaNumber_intText (hfields.endTs endTs he),
          show luaNumber double argv.text.nowTs = _ from luaNumber_intText hfits.nowTs]
        simp [luaLe]
      rw [exec_ok hended]
      simp only
      by_cases htime : endTs ≤ argv.nowTs
      · rw [if_pos (decide_eq_true htime), if_pos htime]
        exact reject_simulates h hfits .auctionEnded rfl
      · rw [if_neg (ne_true_of_eq_false (decide_eq_false htime)), if_neg htime]
        exact amount_simulates h ha hfits hdata hfields
  · have htext : ((r.hash a).bind fun h => h.get .state) ≠ some "ACTIVE".toList := by
      intro htext
      obtain ⟨data, hdata, htext⟩ := Option.bind_eq_some_iff.mp htext
      obtain ⟨state, hs, heq⟩ := Option.map_eq_some_iff.mp htext
      rw [hget_of_hash hdata, hs, AuctionState.text_eq_active.mp heq] at hactive
      exact hactive rfl
    rw [if_pos hactive, if_pos htext]
    exact reject_simulates h hfits .auctionNotActive rfl

/-- Step 0, for a bid that was already processed. -/
theorem cached_simulates (h : Encodes ks r) (ha : IsUuid a) {status : BidStatus}
    (hresult : r.bidResult argv.bidId = some status) :
    Simulates (exec (cachedText (auctionKey a) status.text) ks) (placeBidLua double a argv r) := by
  cases status with
  | accepted =>
    have hlua : placeBidLua double a argv r =
        (r, .ok (.replayed (r.hget a (·.highestBid)) (r.hget a (·.sequenceNum)))) := by
      simp only [placeBidLua, hresult]
    have htext : BidStatus.accepted.text = "ACCEPTED".toList := rfl
    rw [hlua, cachedText, if_pos htext, exec_call (h.hget ha .highestBid),
      exec_call (h.hget ha .sequenceNum), exec_pure]
    refine ⟨h, ?_⟩
    cases hdata : r.hash a <;> simp [onText, Reply.values, Redis.hget, hdata, AuctionHash.get]
  | rejected reason =>
    have hlua : placeBidLua double a argv r = (r, .ok (.rejected reason)) := by
      simp only [placeBidLua, hresult]
    rw [hlua, cachedText, if_neg (show (BidStatus.rejected reason).text ≠ _ from reason.text_ne_accepted)]
    exact ⟨h, rfl⟩

/-- **The script on texts simulates the script on structures**: on a keyspace of their texts it leaves
and returns the texts of what that leaves and returns, also when it fails. -/
theorem placeBidText_simulates (h : Encodes ks r) (ha : IsUuid a) (hfits : ArgvFits argv)
    (hhash : ∀ data, r.hash a = some data → HashFits data) :
    Simulates (exec (placeBidText double (auctionKey a) (resultKey argv.bidId) argv.text) ks)
      (placeBidLua double a argv r) := by
  rw [placeBidText, exec_call (h.get hfits.bidId)]
  cases hresult : r.bidResult argv.bidId with
  | some status => exact cached_simulates h ha hresult
  | none => exact check_simulates h ha hfits hhash hresult

end Simulation

end OnlineAuction.Bidding
