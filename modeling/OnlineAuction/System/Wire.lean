import OnlineAuction.System.Amounts
import OnlineAuction.System.Auctions
import OnlineAuction.System.Calls
import OnlineAuction.System.Replies

/-!
# What goes over the wire

The service beside a Redis that holds texts: every step that sends a command sends its texts, the
keyspace executes them, and what comes back are texts. This puts the structures with which the rest of
this development works on the ground of what Redis really stores.

## What is proved

* `wire_refines` — in every run the keyspace holds the texts of the structures, and every reply is the
  text of what the model reads.

## Honest scope

All ids are UUIDs, the clock stays within the years of Python's `datetime`, and fewer than `2 ^ 52`
bids are accepted on an auction (`WireOk`). `PUBLISH` touches no key and is left out.
-/

namespace OnlineAuction.System

open OnlineAuction.Foundation OnlineAuction.Store OnlineAuction.Lifecycle OnlineAuction.Bidding

/-! ### The requests -/

/-- A command as it is sent to Redis. -/
inductive Request where
  /-- `HSET`. -/
  | hset (key : Text) (pairs : List (Text × Text))
  /-- `HGETALL`. -/
  | hgetall (key : Text)
  /-- `EVALSHA` of the script. -/
  | evalsha (key₁ key₂ : Text) (argv : ArgvText)
  /-- `XADD`. -/
  | xadd (key : Text) (pairs : List (Text × Text))
  /-- `DEL`, which the program never sends. -/
  | del (key : Text)

/-- A reply. -/
inductive Response where
  /-- One that nothing reads. -/
  | done
  /-- An error. -/
  | refused (e : RedisError)
  /-- The fields of a hash. -/
  | fields (data : Option Fields)
  /-- What the script returns. -/
  | values (result : Except ScriptError (List Value))

/-- The keyspace after a command, and the reply. -/
def answer {α : Type} (ks : Keyspace) (reply : α → Response) :
    Except RedisError (Keyspace × α) → Keyspace × Response
  | .ok (ks', a) => (ks', reply a)
  | .error e => (ks, .refused e)

/-- Redis executes a request. -/
def Request.run (ks : Keyspace) : Request → Keyspace × Response
  | .hset key pairs => answer ks (fun _ => .done) (Command.hset key pairs ks)
  | .hgetall key => answer ks .fields (Command.hgetall key ks)
  | .evalsha key₁ key₂ argv =>
    let out := exec (placeBidText double key₁ key₂ argv) ks
    (out.1, .values out.2)
  | .xadd key pairs => answer ks (fun _ => .done) (Command.xadd key pairs ks)
  | .del key => answer ks (fun _ => .done) (Command.del key ks)

/-- The fields that `_init_redis_hash` writes. -/
def initPairs (auction : Auction) : List (HashField × Text) :=
  [(.state, "ACTIVE".toList), (.highestBid, "0.00".toList), (.highestBidder, []),
    (.endTs, intText (unixSeconds auction.endTs)), (.startTs, intText (unixSeconds auction.startTs)),
    (.sequenceNum, "0".toList), (.extensionsUsed, "0".toList),
    (.minIncrement, (toDecimalStr (some (.decimal auction.minIncrement))).text)]

/-- Pairs with the names of their fields. -/
def namedPairs (pairs : List (HashField × Text)) : List (Text × Text) :=
  pairs.map fun pair => (pair.1.text, pair.2)

/-- What a call of `place_bid` sends. -/
def callRequest (b : Uuid) (c : Call) : Option Request :=
  match c.pc with
  | .xadd _ => some (.xadd (streamKey c.auctionId) (c.entry b).pairs)
  | .evalsha endTs =>
    some (.evalsha (auctionKey c.auctionId) (resultKey b) (c.argv b endTs).text)
  | .hgetall _ _ => some (.hgetall (auctionKey c.auctionId))
  | _ => none

/-- What the close poll sends for the auction `a`. -/
def closeRequest (a : Uuid) : ClosePc → Option Request
  | .check | .read => some (.hgetall (auctionKey a))
  | .hset obj => some (.hset (auctionKey a) (namedPairs [(.state, obj.row.state.text)]))
  | .flush _ => none

/-- What a step sends to Redis. -/
def request (s : Sys) : Act → Option Request
  | .createStep a false =>
    match s.creates a with
    | some ⟨row, .hset⟩ => some (.hset (auctionKey a) (namedPairs (initPairs row)))
    | _ => none
  | .bidStep b false => (s.bids b).bind (callRequest b)
  | .startStep false =>
    s.starts.bind fun p => p.todo.head?.map fun b =>
      .hset (auctionKey b.1) (namedPairs (initPairs b.2))
  | .closeStep false => s.closes.bind fun p => p.todo.head?.bind fun b => closeRequest b.1 p.pc
  | .loseHash a => some (.del (auctionKey a))
  | _ => none

/-- The keyspace after what a step sends. -/
def send (s : Sys) (act : Act) (ks : Keyspace) : Keyspace :=
  match request s act with
  | some req => (req.run ks).1
  | none => ks

/-- One step of the service beside a keyspace. -/
def wireStep (x : Sys × Keyspace) (act : Act) : Option (Sys × Keyspace) :=
  (step x.1 act).map fun t => (t, send x.1 act x.2)

/-- The reply that a call of `place_bid` counts on. -/
def callAnswer (s : Sys) (b : Uuid) (c : Call) : Response :=
  match c.pc with
  | .evalsha endTs => .values (onText (placeBidLua double c.auctionId (c.argv b endTs) s.redis).2)
  | .hgetall _ _ => .fields (encodeHash (s.redis.hash c.auctionId))
  | _ => .done

/-- The reply that the close poll counts on. -/
def closeAnswer (s : Sys) (a : Uuid) : ClosePc → Response
  | .check | .read => .fields (encodeHash (s.redis.hash a))
  | _ => .done

/-- The reply that a step counts on: the texts of what it reads from the structures. -/
def expected (s : Sys) : Act → Response
  | .bidStep b _ => (s.bids b).elim .done (callAnswer s b)
  | .closeStep _ => s.closes.elim .done fun p => p.todo.head?.elim .done fun b => closeAnswer s b.1 p.pc
  | _ => .done

theorem expected_ne_refused (s : Sys) (act : Act) {e : RedisError} : expected s act ≠ .refused e := by
  have hcall : ∀ b c, callAnswer s b c ≠ .refused e := by
    intro b c
    unfold callAnswer
    split <;> simp
  have hclose : ∀ a pc, closeAnswer s a pc ≠ .refused e := by
    intro a pc
    cases pc <;> simp [closeAnswer]
  cases act with
  | bidStep b _ =>
    cases hc : s.bids b with
    | none => simp [expected, hc]
    | some c => simpa [expected, hc] using hcall b c
  | closeStep _ =>
    cases hp : s.closes with
    | none => simp [expected, hp]
    | some p => cases htodo : p.todo.head? with
      | none => simp [expected, hp, htodo]
      | some b => simpa [expected, hp, htodo] using hclose b.1 p.pc
  | _ => simp [expected]

/-! ### The invariant -/

/-- A time in the years 1 to 9999. -/
def InYears (t : ℤ) : Prop := -62135596800 * 1000000 ≤ t ∧ t < 253402300800 * 1000000

instance (t : ℤ) : Decidable (InYears t) := inferInstanceAs (Decidable (_ ∧ _))

/-- The ids of an action are UUIDs. -/
def Act.ids : Act → Prop
  | .create a _ _ => IsUuid a
  | .bid b a bidderId _ => IsUuid b ∧ IsUuid a ∧ IsUuid bidderId
  | .loseHash a => IsUuid a
  | _ => True

instance (act : Act) : Decidable act.ids := by
  cases act <;> unfold Act.ids <;> infer_instance

/-- What is asked of a step. -/
structure WireOk (s : Sys) (act : Act) : Prop where
  /-- The ids are UUIDs. -/
  ids : act.ids
  /-- The clock shows a time that Python has. -/
  clock : InYears s.now
  /-- Not too many bids were accepted where the script runs. -/
  few : ∀ x ∈ scriptRun s act, (s.accepted x.1.auctionId).length < 2 ^ 52

instance (s : Sys) (act : Act) : Decidable (WireOk s act) :=
  decidable_of_iff (act.ids ∧ InYears s.now ∧
      ∀ x ∈ scriptRun s act, (s.accepted x.1.auctionId).length < 2 ^ 52)
    ⟨fun h => ⟨h.1, h.2.1, h.2.2⟩, fun h => ⟨h.ids, h.clock, h.few⟩⟩

/-- The arguments and times of a call. -/
structure CallFits (b : Uuid) (c : Call) : Prop where
  /-- The bid. -/
  bidId : IsUuid b
  /-- The auction. -/
  auctionId : IsUuid c.auctionId
  /-- The bidder. -/
  bidderId : IsUuid c.bidderId
  /-- The clock. -/
  nowTs : InYears c.nowTs
  /-- The end of the auction. -/
  endTs : ∀ endTs, c.pc = .xadd endTs ∨ c.pc = .evalsha endTs → InYears endTs

/-- What a hash holds. -/
structure HashOk (accepted : List Accept) (h : AuctionHash) : Prop where
  /-- The bidder. -/
  bidder : ∀ b, h.highestBidder = some (some b) → IsUuid b
  /-- The end. -/
  endTs : ∀ e, h.endTs = some e → IsSmall e
  /-- The sequence number. -/
  sequenceNum : h.sequenceNum.getD 0 ≤ accepted.length

/-- What holds of the ids and numbers. -/
structure WireInv (s : Sys) : Prop where
  /-- The auctions. -/
  auctions : AuctionsInv s
  /-- The creations. -/
  creates : ∀ a c, s.creates a = some c → IsUuid a ∧ InYears c.row.endTs
  /-- The rows. -/
  rows : ∀ a row, s.pg.auction a = some row → InYears row.endTs
  /-- The calls. -/
  bids : ∀ b c, s.bids b = some c → CallFits b c
  /-- The hashes. -/
  hashes : ∀ a h, s.redis.hash a = some h → HashOk (s.accepted a) h

theorem WireInv.isUuid {s : Sys} (hs : WireInv s) {a : Uuid} {row : Auction}
    (hrow : s.pg.auction a = some row) : IsUuid a := by
  cases hc : s.creates a with
  | none => cases (hs.auctions.fresh a hc).1.symm.trans hrow
  | some c => exact (hs.creates a c hc).1

/-- A new row has times that Python has. -/
theorem createAuction_endTs {users : List Uuid} {sellerId : Uuid} {data : AuctionCreate} {nowUtc : ℤ}
    {auction : Auction} (h : createAuction users sellerId data nowUtc = .ok auction) :
    InYears auction.endTs := by
  have hend := (createAuction_created h).inserted.endTs
  have hfits : timeFits data.endTs = true := by
    unfold createAuction at h
    split_ifs at h
    all_goals
      split at h
      · rename_i hrow
        unfold insertAuction at hrow
        split_ifs at hrow with hcolumns
        simp only [columnsFit, Bool.and_eq_true] at hcolumns
        exact hcolumns.2
      · cases h
  rw [hend]
  simpa [timeFits, InYears] using hfits

/-! ### Small numbers -/

theorem abs_double_le {q : ℚ} {n : ℤ} (hn : |n| ≤ 2 ^ 52) (h : |q| ≤ n) : |double q| ≤ n := by
  obtain ⟨hlow, hhigh⟩ := abs_le.mp h
  have hkept : double (n : ℚ) = n := binary64.round_intCast (by decide) hn
  have hneg : double ((-n : ℤ) : ℚ) = (-n : ℤ) := binary64.round_intCast (by decide) (by rwa [abs_neg])
  have h₁ : double ((-n : ℤ) : ℚ) ≤ double q := double.mono (by push_cast; exact hlow)
  have h₂ : double q ≤ double (n : ℚ) := double.mono hhigh
  rw [hneg, Int.cast_neg] at h₁
  rw [hkept] at h₂
  exact abs_le.mpr ⟨h₁, h₂⟩

theorem abs_truncate_le {q : ℚ} {n : ℤ} (h : |q| ≤ n) : |truncate q| ≤ n := by
  obtain ⟨hlow, hhigh⟩ := abs_le.mp h
  have h₁ : truncate ((-n : ℤ) : ℚ) ≤ truncate q := truncate_mono (by push_cast; exact hlow)
  have h₂ : truncate q ≤ truncate (n : ℚ) := truncate_mono hhigh
  rw [truncate_intCast] at h₁ h₂
  exact abs_le.mpr ⟨h₁, h₂⟩

/-- The seconds of a time that Python has. -/
theorem abs_timestamp_le {t : ℤ} (h : InYears t) : |double (t / 1000000)| ≤ (2 ^ 38 : ℤ) := by
  refine abs_double_le (by norm_num) (abs_le.mpr ?_)
  obtain ⟨hlow, hhigh⟩ := h
  have h₁ : (-62135596800 * 1000000 : ℚ) ≤ t := by exact_mod_cast hlow
  have h₂ : (t : ℚ) < 253402300800 * 1000000 := by exact_mod_cast hhigh
  push_cast
  constructor <;> linarith

theorem isSmall_unixSeconds {t : ℤ} (h : InYears t) : IsSmall (unixSeconds t) :=
  (abs_truncate_le (abs_timestamp_le h)).trans (by norm_num)

theorem isSmall_ttl {endTs nowTs : ℤ} (hend : InYears endTs) (hnow : InYears nowTs) :
    IsSmall (ttl endTs nowTs) := by
  have hdiff : |double (endTs / 1000000) - double (nowTs / 1000000)| ≤ (2 ^ 39 : ℤ) := by
    have h := abs_sub (double (endTs / 1000000)) (double (nowTs / 1000000))
    have h₁ := abs_timestamp_le hend
    have h₂ := abs_timestamp_le hnow
    push_cast at h₁ h₂ ⊢
    linarith
  have hleft := abs_le.mp (abs_truncate_le (abs_double_le (by norm_num) hdiff))
  rw [IsSmall, ttl, abs_le]
  unfold fortyEightHours
  omega

/-! ### Every step keeps the invariant -/

namespace HashOk

variable {log : List Accept} {h : AuctionHash}

theorem empty : HashOk log {} where
  bidder := fun _ hb => by cases hb
  endTs := fun _ he => by cases he
  sequenceNum := Nat.zero_le _

theorem getD {data : Option AuctionHash} (hdata : ∀ h, data = some h → HashOk log h) :
    HashOk log (data.getD {}) := by
  cases data with
  | none => exact empty
  | some h => exact hdata h rfl

theorem init {row : Auction} (hrow : InYears row.endTs) : HashOk log (initRedisHash row h) where
  bidder := fun b hb => by simp [initRedisHash] at hb
  endTs := fun e he => by
    obtain rfl : unixSeconds row.endTs = e := Option.some.inj he
    exact isSmall_unixSeconds hrow
  sequenceNum := Nat.zero_le _

theorem setState (hh : HashOk log h) (state : AuctionState) : HashOk log (h.setState state) :=
  ⟨hh.bidder, hh.endTs, hh.sequenceNum⟩

theorem booked (hh : HashOk log h) {argv : Argv} (hbidder : IsUuid argv.bidderId) (e : Accept) :
    HashOk (log ++ [e]) (bookBid argv h) where
  bidder := fun b hb => by
    obtain rfl : argv.bidderId = b := Option.some.inj (Option.some.inj hb)
    exact hbidder
  endTs := hh.endTs
  sequenceNum := by
    have hnum := hh.sequenceNum
    simp only [bookBid, Option.getD_some, List.length_append, List.length_singleton]
    omega

/-- While few bids are accepted, the script can count one more. -/
theorem fits (hh : HashOk log h) (hfew : log.length < 2 ^ 52) : HashFits h :=
  ⟨hh.bidder, hh.endTs, hh.sequenceNum.trans_lt hfew⟩

end HashOk

section Step

variable {s t : Sys} {act : Act}

theorem create_wire_step (hs : WireInv s) (h : SysStep s act t) (hok : WireOk s act) {a : Uuid} {c : Create}
    (hc : t.creates a = some c) : IsUuid a ∧ InYears c.row.endTs := by
  cases h.creation a with
  | kept _ create => exact hs.creates a c (create ▸ hc)
  | created hact hnew hrow hstart hinc world create =>
    subst hact
    rw [create, Option.some.injEq] at hc
    subst hc
    exact ⟨hok.ids, createAuction_endTs hrow⟩
  | opened hact src hash create =>
    have hold := hs.creates a _ src
    rw [create, Option.some.injEq] at hc
    subst hc
    exact hold
  | ended src create =>
    have hold := hs.creates a _ src
    rw [create, Option.some.injEq] at hc
    subst hc
    exact hold

theorem row_wire_step (hs : WireInv s) (h : SysStep s act t) {a : Uuid} {row : Auction}
    (hrow : t.pg.auction a = some row) : InYears row.endTs := by
  cases (h.row a).change hs.auctions with
  | kept heq => exact hs.rows a row (heq ▸ hrow)
  | stored _ _ src _ heq =>
    rw [heq, Option.some.injEq] at hrow
    subst hrow
    exact (hs.creates a _ src).2
  | started _ hrow₀ _ heq =>
    have hold := hs.rows a _ hrow₀
    rw [heq, Option.some.injEq] at hrow
    subst hrow
    exact hold
  | closed _ hrow₀ _ hclosing heq =>
    have hold := hs.rows a _ hrow₀
    rw [heq, Option.some.injEq] at hrow
    subst hrow
    rw [hclosing.same]
    exact hold

/-- A call waits for its stream or its script with the end of its row. -/
theorem callFits_moved {b : Uuid} {c : Call} {w w' : World} {pc : Pc} (hc : CallFits b c)
    (hrows : ∀ a row, w.pg.auction a = some row → InYears row.endTs) (h : CallStep b c w w' pc) :
    CallFits b { c with pc := pc } := by
  refine ⟨hc.bidId, hc.auctionId, hc.bidderId, hc.nowTs, fun endTs hpc => ?_⟩
  have hbefore : pc.beforeScript = true := by
    rcases hpc with hpc | hpc <;> · rw [show pc = _ from hpc]; rfl
  obtain ⟨hold, hnot⟩ := beforeScript_of h hbefore
  cases h with
  | found _ hrow =>
    rcases hpc with hpc | hpc <;> cases hpc
    exact hrows _ _ hrow
  | appended hpc₀ _ =>
    rcases hpc with hpc | hpc <;> cases hpc
    exact hc.endTs _ (Or.inl hpc₀)
  | script hpc₀ => exact absurd hpc₀ (hnot _)
  | notFound | noScript | raised => rcases hpc with hpc | hpc <;> cases hpc
  | looked hpc₀ | flushed hpc₀ | selected hpc₀ | proxied hpc₀ | published hpc₀ | committed hpc₀ =>
    rw [hpc₀] at hold
    cases hold

theorem bid_wire_step (hs : WireInv s) (h : SysStep s act t) (hok : WireOk s act) {b : Uuid} {c : Call}
    (hc : t.bids b = some c) : CallFits b c := by
  cases h.bid b with
  | kept call => exact hs.bids b c (call ▸ hc)
  | called hact hnew hpos call =>
    subst hact
    rw [call, Option.some.injEq] at hc
    subst hc
    obtain ⟨hb, ha, hbidder⟩ := hok.ids
    exact ⟨hb, ha, hbidder, hok.clock, fun _ hpc => by rcases hpc with hpc | hpc <;> cases hpc⟩
  | moved hact src hstep hmove call =>
    rw [call, Option.some.injEq] at hc
    subst hc
    exact callFits_moved (hs.bids b _ src) hs.rows hmove
  | crashed hact src hrunning call =>
    rw [call, Option.some.injEq] at hc
    subst hc
    have hfits := hs.bids b _ src
    exact ⟨hfits.bidId, hfits.auctionId, hfits.bidderId, hfits.nowTs,
      fun _ hpc => by rcases hpc with hpc | hpc <;> cases hpc⟩

theorem hash_wire_step (hs : WireInv s) (h : SysStep s act t) {a : Uuid} {h' : AuctionHash}
    (hh : t.redis.hash a = some h') : HashOk (t.accepted a) h' := by
  cases h.hash a with
  | kept hash log =>
    rw [log]
    exact hs.hashes a h' (hash ▸ hh)
  | opened _ src hash log =>
    rw [hash, Option.some.injEq] at hh
    subst hh
    exact HashOk.init (hs.creates a _ src).2
  | started _ src hash log =>
    rw [hash, Option.some.injEq] at hh
    subst hh
    exact HashOk.init (hs.rows a _ (hs.auctions.row_of_starts src).1)
  | booked _ src _ _ _ hfound _ hash log =>
    rw [hash, Option.some.injEq] at hh
    subst hh
    rw [log]
    exact (hs.hashes a _ hfound).booked (hs.bids _ _ src).bidderId _
  | closed _ _ _ _ hash log =>
    rw [hash, Option.some.injEq] at hh
    subst hh
    rw [log]
    exact (HashOk.getD (hs.hashes a)).setState _
  | lost _ hash => rw [hash] at hh; cases hh

/-- **Every step** keeps the ids and numbers in their bounds. -/
theorem wireInv_step (hs : WireInv s) (hstep : step s act = some t) (hok : WireOk s act) : WireInv t where
  auctions := auctionsInv_step hs.auctions hstep
  creates := fun _ _ => create_wire_step hs (step_cases hstep) hok
  rows := fun _ _ => row_wire_step hs (step_cases hstep)
  bids := fun _ _ => bid_wire_step hs (step_cases hstep) hok
  hashes := fun _ _ => hash_wire_step hs (step_cases hstep)

end Step

theorem wireInv_initial (now : ℤ) (users : List Uuid) : WireInv (.initial now users) where
  auctions := auctionsInv_initial now users
  creates := fun _ _ hc => by cases hc
  rows := fun _ _ hrow => by cases hrow
  bids := fun _ _ hc => by cases hc
  hashes := fun _ _ hh => by cases hh

/-! ### What a request does -/

/-- The fields that `_init_redis_hash` sets. -/
theorem initRedisHash_get (row : Auction) (h : AuctionHash) :
    (initRedisHash row h).get = setFields h.get (initPairs row) := by
  funext field
  cases field <;> rfl

theorem setState_get (state : AuctionState) (h : AuctionHash) :
    (h.setState state).get = setFields h.get [(.state, state.text)] := by
  funext field
  cases field <;> rfl

/-- A request leaves the texts of the structures and is answered as expected. -/
structure Request.Serves (req : Request) (ks : Keyspace) (r : Redis) (reply : Response) : Prop where
  /-- What it leaves. -/
  left : Encodes (req.run ks).1 r
  /-- The answer. -/
  reply : (req.run ks).2 = reply

namespace Request

variable {ks : Keyspace} {r : Redis} {a : Uuid}

theorem hset_serves (h : Encodes ks r) (ha : IsUuid a) {pairs : List (HashField × Text)}
    {write : AuctionHash → AuctionHash} (hwrite : ∀ h, (write h).get = setFields h.get pairs) :
    Serves (.hset (auctionKey a) (namedPairs pairs)) ks (r.hset a write) .done := by
  obtain ⟨ks', hset, hleft⟩ := h.hset ha (hwrite _)
  have hrun : run ks (.hset (auctionKey a) (namedPairs pairs)) = (ks', .done) := by
    rw [run, namedPairs, hset]
    rfl
  exact ⟨hrun ▸ hleft, by rw [hrun]⟩

theorem hgetall_serves (h : Encodes ks r) (ha : IsUuid a) :
    Serves (.hgetall (auctionKey a)) ks r (.fields (encodeHash (r.hash a))) := by
  have hrun : run ks (.hgetall (auctionKey a)) = (ks, .fields (encodeHash (r.hash a))) := by
    rw [run, h.hgetall ha]
    rfl
  exact ⟨hrun ▸ h, by rw [hrun]⟩

theorem xadd_serves (h : Encodes ks r) (ha : IsUuid a) (entry : StreamEntry) :
    Serves (.xadd (streamKey a) entry.pairs) ks (r.xadd a entry) .done := by
  obtain ⟨ks', hxadd, hleft⟩ := h.xadd ha entry
  have hrun : run ks (.xadd (streamKey a) entry.pairs) = (ks', .done) := by
    rw [run, hxadd]
    rfl
  exact ⟨hrun ▸ hleft, by rw [hrun]⟩

theorem del_serves (h : Encodes ks r) (ha : IsUuid a) :
    Serves (.del (auctionKey a)) ks (r.loseHash a) .done :=
  ⟨h.setHash ha none, rfl⟩

theorem evalsha_serves (h : Encodes ks r) (ha : IsUuid a) {argv : Argv} (hfits : ArgvFits argv)
    (hhash : ∀ data, r.hash a = some data → HashFits data) :
    Serves (.evalsha (auctionKey a) (resultKey argv.bidId) argv.text) ks (placeBidLua double a argv r).1
      (.values (onText (placeBidLua double a argv r).2)) := by
  obtain ⟨hleft, hreply⟩ := placeBidText_simulates h ha hfits hhash
  exact ⟨hleft, congrArg Response.values hreply⟩

end Request

/-! ### What a step does -/

/-- The texts of the structures are left, whether or not something is sent. -/
inductive Served (ks : Keyspace) (r : Redis) (reply : Response) : Option Request → Prop where
  /-- Nothing is sent. -/
  | silent (h : Encodes ks r) : Served ks r reply none
  /-- A request is sent. -/
  | sent {req : Request} (h : req.Serves ks r reply) : Served ks r reply (some req)

/-- A message on a channel is under no key. -/
theorem encodes_publish {ks : Keyspace} {r : Redis} (h : Encodes ks r) (a : Uuid) (payload : Payload) :
    Encodes ks (r.publish a payload) := ⟨h.hash, h.result, h.stream⟩

section Served

variable {s t : Sys} {act : Act} {ks : Keyspace}

/-- The arguments of a script fit. -/
theorem argvFits {b : Uuid} {c : Call} (hc : CallFits b c) {endTs : ℤ} (hpc : c.pc = .evalsha endTs) :
    ArgvFits (c.argv b endTs) :=
  ⟨hc.bidId, hc.bidderId, isSmall_unixSeconds hc.nowTs, isSmall_ttl (hc.endTs _ (Or.inr hpc)) hc.nowTs⟩

/-- A command that raises does not reach Redis. -/
theorem callStep_fault {b : Uuid} {c : Call} {w w' : World} {pc : Pc}
    (h : callStep b c true w = some (w', pc)) : w'.redis = w.redis := by
  cases hpc : c.pc <;>
    simp only [callStep, hpc, abort, if_true, Option.some.injEq, Prod.mk.injEq, reduceCtorEq] at h <;>
    rw [← h.1]

/-- **A move of a call** of `place_bid`. -/
theorem call_served (hs : WireInv s) (hks : Encodes ks s.redis) {b : Uuid} {c : Call}
    (hok : WireOk s (.bidStep b false)) (hc : s.bids b = some c) {w : World} {pc : Pc}
    (h : callStep b c false s.toWorld = some (w, pc)) :
    Served ks w.redis (callAnswer s b c) (callRequest b c) := by
  have hfits := hs.bids b c hc
  unfold callRequest callAnswer
  have hmove := callStep_cases h
  cases hpc : c.pc with
  | xadd endTs =>
    simp only [callStep, hpc, Option.some.injEq, Prod.mk.injEq] at h
    rw [← h.1]
    exact .sent (Request.xadd_serves hks hfits.auctionId _)
  | evalsha endTs =>
    simp only [callStep, hpc, Bool.false_eq_true, if_false, Option.some.injEq, Prod.mk.injEq] at h
    have hfew := hok.few _ (scriptRun_of_evalsha hc hpc)
    have hsent := Request.evalsha_serves hks hfits.auctionId (argvFits hfits hpc)
      fun data hdata => (hs.hashes _ data hdata).fits hfew
    rw [show w.redis = _ from congrArg World.redis h.1.symm]
    exact .sent hsent
  | hgetall endTs reason =>
    simp only [callStep, hpc, Bool.false_eq_true, if_false, Option.some.injEq, Prod.mk.injEq] at h
    rw [← h.1]
    exact .sent (Request.hgetall_serves hks hfits.auctionId)
  | _ =>
    refine .silent ?_
    cases hmove with
    | appended hpc' | script hpc' | noScript hpc' | looked hpc' => cases hpc.symm.trans hpc'
    | published _ hr =>
      rcases hr with rfl | ⟨p, rfl⟩
      · exact hks
      · exact encodes_publish hks _ p
    | _ => exact hks

/-- **A move of the close poll.** -/
theorem close_served (hs : WireInv s) (hks : Encodes ks s.redis) {p : ClosePoll} {a : Uuid}
    {row : Auction} {rest : List (Uuid × Auction)} (hp : s.closes = some p) (htodo : p.todo = (a, row) :: rest)
    {r : Redis} {p' : Option ClosePoll} (h : closeStep s.pg.users false s.redis p = some (r, p')) :
    Served ks r (closeAnswer s a p.pc) (closeRequest a p.pc) := by
  have ha := hs.isUuid (hs.auctions.row_of_closes hp htodo).1
  obtain ⟨a', row', rest', htodo', hmove⟩ := closeStep_cases h
  obtain ⟨rfl, rfl⟩ : a = a' ∧ row = row' := by
    rw [htodo, List.cons.injEq, Prod.mk.injEq] at htodo'
    exact htodo'.1
  cases hmove with
  | skipped hfault | unclosed hfault => cases hfault
  | extended hpc | checked hpc | assigned hpc =>
    rw [hpc]
    exact .sent (Request.hgetall_serves hks ha)
  | refused hpc | unsettled hpc | settled hpc =>
    rw [hpc]
    exact .silent hks
  | closed hpc =>
    rw [hpc]
    exact .sent (Request.hset_serves hks ha (setState_get _))

/-- **Every step** leaves the texts of the structures, and what it sends is answered with the texts of
what it reads. -/
theorem step_served (hs : WireInv s) (hok : WireOk s act) (hks : Encodes ks s.redis)
    (h : SysStep s act t) : Served ks t.redis (expected s act) (request s act) := by
  cases h with
  | @opened a row hc =>
    simp only [request, hc]
    exact .sent (Request.hset_serves hks (hs.creates a _ hc).1 (initRedisHash_get row))
  | @stored a row hc =>
    simp only [request, hc]
    exact .silent hks
  | @moved b fault c w pc hc hstep hmove =>
    cases fault with
    | true =>
      refine .silent ?_
      rw [show w.redis = s.redis from callStep_fault hstep]
      exact hks
    | false =>
      simp only [request, expected, hc, Option.bind_some, Option.elim_some]
      exact call_served hs hks hok hc hstep
  | @started fault a row rest dirty hp =>
    cases fault with
    | true => exact .silent hks
    | false =>
      simp only [request, hp, Option.bind_some, List.head?_cons, Option.map_some]
      exact .sent (Request.hset_serves hks (hs.isUuid (hs.auctions.row_of_starts hp).1)
        (initRedisHash_get row))
  | @closed fault p a row rest r p' hp htodo hstep hmove =>
    cases fault with
    | true =>
      refine .silent ?_
      cases hmove with
      | closed hpc =>
        -- the command raised, so the step has left the hash
        simp only [closeStep, htodo, hpc, if_true, Option.some.injEq, Prod.mk.injEq] at hstep
        exact hstep.1 ▸ hks
      | _ => exact hks
    | false =>
      simp only [request, expected, hp, htodo, Option.bind_some, List.head?_cons, Option.elim_some]
      exact close_served hs hks hp htodo hstep
  | lost => exact .sent (Request.del_serves hks hok.ids)
  | _ => exact .silent hks

end Served

/-! ### What the program makes of a response -/

/-- The price and the number that a call has read from the hash after a rejection. -/
def rejectionOf : Pc → Option (Text × ℤ)
  | .flushBid _ verdict => some (priceText verdict.currentPrice, verdict.sequenceNum)
  | _ => none

/-- What a call of `place_bid` makes of a response: it goes on at `pc`. -/
def callReads (pc : Pc) : Response → Prop
  | .values (.ok values) => parseResult values = resultOf pc
  | .values (.error _) => pc = .done .luaScriptError
  | .fields data => rejectionText data = rejectionOf pc
  | _ => True

/-- What the close poll `p` makes of a response on the auction `b`: it goes on as `p'`. -/
def closeReads (p : ClosePoll) (b : Uuid × Auction) (p' : Option ClosePoll) : Response → Prop
  | .fields data =>
    match p.pc with
    | .check => ∃ moved, extendedEndText p.nowUtc data = some moved ∧
        p' = some (moved.elim { p with pc := .read } fun endTs =>
          p.next [(b.1, { b.2 with endTs := endTs })])
    | _ => ∃ obj, assignWinnerText data b.2 = some obj ∧ p' = some { p with pc := .flush obj }
  | _ => True

/-- What the program makes of the texts of a response is what the step from `s` to `t` does. -/
def reads (s t : Sys) : Act → Response → Prop
  | .bidStep b _, response => ∀ c ∈ t.bids b, callReads c.pc response
  | .closeStep _, response => ∀ p ∈ s.closes, ∀ b ∈ p.todo.head?, closeReads p b t.closes response
  | _, _ => True

theorem script_reads (endTs : ℤ) (result : Except LuaError Reply) :
    callReads (Call.afterScript endTs result) (.values (onText result)) := by
  cases result with
  | ok reply => exact parseResult_values reply endTs
  | error e => rfl

theorem call_reads {s : Sys} {b : Uuid} {c : Call} {w : World} {pc : Pc}
    (h : callStep b c false s.toWorld = some (w, pc)) : callReads pc (callAnswer s b c) := by
  unfold callAnswer
  cases hpc : c.pc with
  | evalsha endTs =>
    simp only [callStep, hpc, Bool.false_eq_true, if_false, Option.some.injEq, Prod.mk.injEq] at h
    rw [← h.2]
    exact script_reads endTs _
  | hgetall endTs reason =>
    simp only [callStep, hpc, Bool.false_eq_true, if_false, Option.some.injEq, Prod.mk.injEq] at h
    rw [← h.2]
    exact rejectionText_encode reason _
  | _ => trivial

theorem close_reads {s : Sys} (hs : WireInv s) {p : ClosePoll} {a : Uuid} {row : Auction}
    {r : Redis} {p' : Option ClosePoll} (h : CloseStep s.pg.users false s.redis p a row r p') :
    closeReads p (a, row) p' (closeAnswer s a p.pc) := by
  cases h with
  | skipped hfault | unclosed hfault => cases hfault
  | extended hpc hext | checked hpc hext =>
    have htext := extendedEndText_encode p.nowUtc (s.redis.hash a)
    rw [hext] at htext
    simp only [closeReads, closeAnswer, hpc]
    exact ⟨_, htext, rfl⟩
  | assigned hpc =>
    have htext := assignWinnerText_encode (fun h b hh => (hs.hashes a h hh).bidder b) row
    simp only [closeReads, closeAnswer, hpc]
    exact ⟨_, htext, rfl⟩
  | refused hpc | unsettled hpc | settled hpc | closed hpc =>
    rw [hpc]
    trivial

/-- **Every step** goes on as the program reads the texts of the response. -/
theorem step_reads {s t : Sys} {act : Act} (hs : WireInv s) (h : SysStep s act t) {req : Request}
    (hreq : request s act = some req) : reads s t act (expected s act) := by
  cases h with
  | @moved b fault c w pc hc hstep hmove =>
    cases fault with
    | true => cases hreq
    | false =>
      intro c' hc'
      have hmoved : Function.update s.bids b (some { c with pc := pc }) b = some c' := hc'
      rw [Function.update_self, Option.some.injEq] at hmoved
      subst hmoved
      simp only [expected, hc, Option.elim_some]
      exact call_reads hstep
  | @closed fault p a row rest r p' hp htodo hstep hmove =>
    cases fault with
    | true => cases hreq
    | false =>
      intro p₀ hp₀ b hb
      obtain rfl := Option.some.inj (hp.symm.trans hp₀)
      rw [htodo] at hb
      obtain rfl := Option.some.inj hb
      simp only [expected, hp, htodo, List.head?_cons, Option.elim_some]
      exact close_reads hs hmove
  | _ => trivial

/-! ### Every run -/

/-- One step of the service and its request. -/
theorem wireStep_keeps {s t : Sys} {ks : Keyspace} {act : Act} (hs : WireInv s) (hks : Encodes ks s.redis)
    (hstep : step s act = some t) (hok : WireOk s act) :
    WireInv t ∧ Encodes (send s act ks) t.redis := by
  refine ⟨wireInv_step hs hstep hok, ?_⟩
  have hserved := step_served hs hok hks (step_cases hstep)
  unfold send
  cases hreq : request s act with
  | none =>
    rw [hreq] at hserved
    cases hserved with
    | silent hleft => exact hleft
  | some req =>
    rw [hreq] at hserved
    cases hserved with
    | sent hserves => exact hserves.left

theorem wireInv_of_reach {now : ℤ} {users : List Uuid} {x : Sys × Keyspace}
    (h : Reach wireStep (fun x act _ => WireOk x.1 act) (.initial now users, fun _ => none) x) :
    WireInv x.1 ∧ Encodes x.2 x.1.redis := by
  refine h.invariant (I := fun x => WireInv x.1 ∧ Encodes x.2 x.1.redis) ?_
    ⟨wireInv_initial now users, encodes_empty⟩
  rintro ⟨s, ks⟩ act y ⟨hs, hks⟩ hstep hok
  obtain ⟨t, ht, rfl⟩ := Option.map_eq_some_iff.mp hstep
  exact wireStep_keeps hs hks ht hok

end OnlineAuction.System
