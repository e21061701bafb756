import OnlineAuction.Bidding.PlaceBid

/-!
# Runs of the script to the end

Redis does not roll a script back, so a script that stops with a runtime error after its `HSET`
would leave a bid booked without its dedup key. On a hash that has its numbers it cannot.

## What is proved

* `placeBidLua_of_numbered` — when an active hash has every field the script counts with and the
  time to live is positive, the script ends with a reply that `place_bid` can read, and either books
  the bid with its dedup key or writes no hash.
* `Ends.resolved` — the call then knows whether its bid is accepted, or why not.

## Honest scope

The sequence number has no largest value; `HINCRBY` would refuse to count past `2 ^ 63 - 1`.
-/

namespace OnlineAuction.Bidding

open OnlineAuction.Foundation OnlineAuction.Store OnlineAuction.Lifecycle

/-! ### The numbers of a hash -/

/-- When the hash is active, the fields the script counts with are there. -/
structure Numbered (h : AuctionHash) : Prop where
  /-- The end. -/
  endTs : h.state = some .active → h.endTs ≠ none
  /-- The increment. -/
  minIncrement : h.state = some .active → h.minIncrement ≠ none
  /-- The price. -/
  highestBid : h.state = some .active → h.highestBid ≠ none
  /-- The sequence number. -/
  sequenceNum : h.state = some .active → h.sequenceNum ≠ none

theorem numbered_initRedisHash (row : Auction) (h : AuctionHash) :
    Numbered (initRedisHash row h) := by
  constructor <;> simp [initRedisHash]

/-- A booked bid keeps the end and the increment, and writes the price and the number. -/
theorem Numbered.bookBid {h : AuctionHash} (hh : Numbered h) (argv : Argv) :
    Numbered (bookBid argv h) where
  endTs := hh.endTs
  minIncrement := hh.minIncrement
  highestBid := by simp [Bidding.bookBid]
  sequenceNum := by simp [Bidding.bookBid]

/-- A hash that is not active has nothing to keep. -/
theorem numbered_of_state {h : AuctionHash} (hstate : h.state ≠ some .active) : Numbered h :=
  ⟨fun hs => absurd hs hstate, fun hs => absurd hs hstate, fun hs => absurd hs hstate,
    fun hs => absurd hs hstate⟩

/-! ### The script -/

/-- How many elements the array of a reply has. -/
def Reply.length : Reply → ℕ
  | .accepted _ _ _ => 4
  | .replayed _ _ => 3
  | .rejected _ => 2

/-- A reply is never too short for `place_bid`. -/
theorem Reply.two_le_length (reply : Reply) : 2 ≤ reply.length := by
  cases reply <;> simp [Reply.length]

/-- A run of the script that ends: what it leaves is whole. -/
structure Ends (auctionId : Uuid) (argv : Argv) (r r' : Redis) (res : Except LuaError Reply) :
    Prop where
  /-- It ends with a reply. -/
  reply : ∃ reply, res = .ok reply ∧ 2 ≤ reply.length
  /-- No hash is written, or the bid is booked and its dedup key set. -/
  whole : r'.hash = r.hash ∨ r' = (r.hset auctionId (bookBid argv)).setResult argv.bidId .accepted

theorem ends_mark {a : Uuid} {r : Redis} {argv : Argv} (httl : 0 < argv.ttl) (status : BidStatus)
    (reason : Reason) :
    Ends a argv r (markAndReturn r argv status (.rejected reason)).1
      (markAndReturn r argv status (.rejected reason)).2 := by
  rw [markAndReturn_of_pos httl]
  exact ⟨⟨_, rfl, Reply.two_le_length _⟩, Or.inl rfl⟩

/-- **The script ends** when the hash has its numbers and the time to live is positive. -/
theorem placeBidLua_of_numbered (R : Rounding) {a : Uuid} {argv : Argv} {r : Redis}
    (hnum : ∀ h, r.hash a = some h → Numbered h) (httl : 0 < argv.ttl) :
    Ends a argv r (placeBidLua R a argv r).1 (placeBidLua R a argv r).2 := by
  cases hres : r.bidResult argv.bidId with
  | some status =>
    cases status with
    | accepted =>
      simp only [placeBidLua, hres]
      exact ⟨⟨_, rfl, Reply.two_le_length _⟩, Or.inl rfl⟩
    | rejected reason =>
      simp only [placeBidLua, hres]
      exact ⟨⟨_, rfl, Reply.two_le_length _⟩, Or.inl rfl⟩
  | none =>
    by_cases hstate : r.hget a (·.state) = some .active
    · obtain ⟨h, hh⟩ : ∃ h, r.hash a = some h := by
        cases hh : r.hash a with
        | none => rw [Redis.hget, hh] at hstate; cases hstate
        | some h => exact ⟨h, rfl⟩
      have hactive : h.state = some .active := by rwa [hget_of_hash hh] at hstate
      obtain ⟨endTs, hend⟩ := Option.ne_none_iff_exists'.mp ((hnum h hh).endTs hactive)
      obtain ⟨inc, hinc⟩ := Option.ne_none_iff_exists'.mp ((hnum h hh).minIncrement hactive)
      simp only [placeBidLua, hres, hget_of_hash hh, hactive, hend, hinc]
      rw [if_neg (by simp)]
      split_ifs with htime hself hlow
      · exact ends_mark httl _ _
      · exact ends_mark httl _ _
      · exact ends_mark httl _ _
      · rw [markAndReturn_of_pos httl]
        exact ⟨⟨_, rfl, Reply.two_le_length _⟩, Or.inr rfl⟩
    · simp only [placeBidLua, hres, ne_eq, hstate, not_false_eq_true, if_true]
      exact ends_mark httl _ _

/-! ### The call -/

/-- The call awaits its script. -/
def Pc.atScript : Pc → Bool
  | .evalsha _ => true
  | _ => false

/-- The call has appended its bid to the stream. -/
def Pc.appended (pc : Pc) : Bool := !pc.beforeScript || pc.atScript

/-- Where a call goes when its script ends: it knows whether it is accepted, or why not. -/
def Resolved (endTs : ℤ) (pc : Pc) : Prop :=
  (∃ verdict, pc = .flushBid endTs verdict) ∨ ∃ reason, pc = .hgetall endTs reason

/-- A bid without a dedup key is resolved by a script that ends. -/
theorem Ends.resolved {a : Uuid} {argv : Argv} {r r' : Redis} {endTs : ℤ}
    {res : Except LuaError Reply} (h : Ends a argv r r' res)
    (hfresh : ∀ price seq, res ≠ .ok (.replayed price seq)) :
    Resolved endTs (Call.afterScript endTs res) := by
  obtain ⟨reply, rfl, -⟩ := h.reply
  cases reply with
  | accepted price seq endTs' => exact Or.inl ⟨_, rfl⟩
  | replayed price seq => exact absurd rfl (hfresh price seq)
  | rejected reason => exact Or.inr ⟨reason, rfl⟩

/-- `LUA_SCRIPT_ERROR` is answered at the script only. -/
theorem CallStep.of_luaScriptError {bidId : Uuid} {c : Call} {w w' : World} {pc : Pc}
    (h : CallStep bidId c w w' pc) (hpc : pc = .done .luaScriptError) :
    ∃ endTs, c.pc = .evalsha endTs := by
  cases h with
  | script hat | noScript hat => exact ⟨_, hat⟩
  | flushed =>
    have := congrArg Pc.flushed hpc
    rw [Call.afterBid_flushed] at this
    cases this
  | proxied =>
    have := congrArg Pc.flushed hpc
    rw [Call.afterRows_flushed] at this
    cases this
  | _ => cases hpc

end OnlineAuction.Bidding
