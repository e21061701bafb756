import OnlineAuction.Bidding.Script
import OnlineAuction.Foundation.Book
import OnlineAuction.Foundation.Runs
import OnlineAuction.Lifecycle.AuctionService

/-!
# Runs of the script on one auction

The script is run any number of times on the hash that `_init_redis_hash` wrote, while
dedup keys expire and a close may set the state of the hash. A history keeps what every
acceptance was asked and what it answered. `Tracks` says how the hash follows from the
history, and `Booked` that the history is a `Book`, the record of an ascending auction.

## What is proved

* `run_cases` — one run of the script books the bid and logs it, or changes neither the
  hashes nor the history.
* `scriptStep_cases` — what one action of a run can do to the hash and the history.
* `admits_iff_book` — in exact arithmetic the checks of the script are those of the book.
* `scriptRun_booked` — after any run the history is a book with the row's increment, and
  the hash holds its length, its price and its leader.
-/

namespace OnlineAuction.Bidding

open OnlineAuction.Foundation OnlineAuction.Store OnlineAuction.Lifecycle

/-! ### The history -/

/-- An acceptance: what the script was asked and what it answered. -/
structure Accept where
  /-- The arguments. -/
  argv : Argv
  /-- The price answered. -/
  price : DecStr
  /-- The sequence number answered. -/
  seq : ℕ
  deriving DecidableEq

/-- Log an acceptance. -/
def logReply (argv : Argv) (reply : Except LuaError Reply) (accepted : List Accept) : List Accept :=
  match reply with
  | .ok (.accepted price seq _) => accepted ++ [⟨argv, price, seq⟩]
  | _ => accepted

/-- A reply that is no acceptance is not logged. -/
theorem Declines.log {argv : Argv} {r r' : Redis} {res : Except LuaError Reply}
    (h : Declines argv r r' res) (acc : List Accept) : logReply argv res acc = acc := by
  unfold logReply
  split
  · exact absurd rfl (h.reply _ _ _)
  · rfl

/-- **One run of the script**: it books and logs the bid, or leaves hashes and history. -/
theorem run_cases (R : Rounding) (auctionId : Uuid) {argv : Argv} (r : Redis)
    (acc : List Accept) (httl : 0 < argv.ttl) :
    (∃ h, Accepts R auctionId argv r (placeBidLua R auctionId argv r).1 h ∧
      logReply argv (placeBidLua R auctionId argv r).2 acc =
        acc ++ [⟨argv, argv.amount, h.sequenceNum.getD 0 + 1⟩]) ∨
    ((placeBidLua R auctionId argv r).1.hash = r.hash ∧
      logReply argv (placeBidLua R auctionId argv r).2 acc = acc) := by
  rcases placeBidLua_cases R auctionId r httl with ⟨h, hA, hrep⟩ | hD
  · exact Or.inl ⟨h, hA, by rw [hrep]; rfl⟩
  · exact Or.inr ⟨hD.hash, hD.log acc⟩

/-- The hash follows from the history: it counts the acceptances and holds the last. -/
structure Tracks (h : AuctionHash) (acc : List Accept) : Prop where
  /-- The sequence number counts the acceptances. -/
  sequenceNum : h.sequenceNum = some acc.length
  /-- The highest bid is the last accepted, `0.00` if there is none. -/
  highestBid : h.highestBid = some ((acc.getLast?.map (·.argv.amount)).getD (.dec 0))
  /-- The highest bidder is the last accepted, the empty text if there is none. -/
  highestBidder : h.highestBidder = some (acc.getLast?.map (·.argv.bidderId))
  /-- The `k`-th acceptance was answered with `k`. -/
  numbered : acc.map (·.seq) = List.range' 1 acc.length
  /-- Every acceptance was answered with its own amount. -/
  answered : ∀ e ∈ acc, e.price = e.argv.amount

theorem tracks_init (row : Auction) (h : AuctionHash) : Tracks (initRedisHash row h) [] :=
  ⟨rfl, rfl, rfl, rfl, by simp⟩

/-- A booked bid is tracked. -/
theorem Tracks.book {h : AuctionHash} {acc : List Accept} (ht : Tracks h acc) (argv : Argv) :
    Tracks (bookBid argv h) (acc ++ [⟨argv, argv.amount, h.sequenceNum.getD 0 + 1⟩]) where
  sequenceNum := by simp [bookBid, ht.sequenceNum]
  highestBid := by simp [bookBid]
  highestBidder := by simp [bookBid]
  numbered := by
    rw [List.map_append, ht.numbered, List.length_append, List.length_singleton,
      List.range'_concat, ht.sequenceNum]
    simp [Nat.add_comm]
  answered := by
    intro e he
    rcases List.mem_append.mp he with he | he
    · exact ht.answered e he
    · rw [List.mem_singleton.mp he]

/-- Setting the state changes nothing that is tracked. -/
theorem Tracks.setState {h : AuctionHash} {acc : List Accept} (ht : Tracks h acc)
    (state : AuctionState) : Tracks (h.setState state) acc :=
  ⟨ht.sequenceNum, ht.highestBid, ht.highestBidder, ht.numbered, ht.answered⟩

/-- A booked bid leaves what the hash holds of its row. -/
theorem ofRow_book {auction : Auction} {h : AuctionHash} (hrow : OfRow auction h) (argv : Argv) :
    OfRow auction (bookBid argv h) := ⟨hrow.endTs, hrow.minIncrement⟩

/-! ### The history as a book -/

/-- The history is the book `k`, and the hash holds its length, price and leader. -/
structure Booked {m : ℤ} (k : Book Uuid m) (h : AuctionHash) (acc : List Accept) : Prop where
  /-- Bidders and amounts are those of the book, in cents. -/
  bids : acc.map (fun e => (e.argv.bidderId, e.argv.amount)) = k.bids.map fun b => (b.1, .dec b.2)
  /-- The `k`-th acceptance was answered with `k`. -/
  numbered : acc.map (·.seq) = List.range' 1 acc.length
  /-- Every acceptance was answered with its own amount. -/
  answered : ∀ e ∈ acc, e.price = e.argv.amount
  /-- The sequence number counts the acceptances. -/
  sequenceNum : h.sequenceNum = some acc.length
  /-- The highest bid is the price of the book. -/
  highestBid : h.highestBid = some (.dec k.price)
  /-- The highest bidder is the leader of the book. -/
  highestBidder : h.highestBidder = some k.leader
  /-- The highest bid is the maximum of all amounts accepted. -/
  maximum : ∀ b ∈ k.bids, b.2 ≤ k.price

theorem Tracks.booked {m : ℤ} (hm : 0 ≤ m) {k : Book Uuid m} {h : AuctionHash} {acc : List Accept}
    (ht : Tracks h acc)
    (hbids : acc.map (fun e => (e.argv.bidderId, e.argv.amount)) =
      k.bids.map fun b => (b.1, .dec b.2)) : Booked k h acc := by
  have hlast := congrArg List.getLast? hbids
  rw [List.getLast?_map, List.getLast?_map] at hlast
  refine ⟨hbids, ht.numbered, ht.answered, ht.sequenceNum, ?_, ?_, fun b hb => k.le_price hm hb⟩
  · rw [ht.highestBid, Book.price, lastAmount]
    cases ha : acc.getLast? <;> cases hk : k.bids.getLast? <;> simp_all
  · rw [ht.highestBidder, Book.leader]
    cases ha : acc.getLast? <;> cases hk : k.bids.getLast? <;> simp_all

/-- **In exact arithmetic the script's checks**: the auction is active and not ended, the amount
is at least the increment above the price, and strictly above it for the leader `l`. -/
theorem admits_iff_exact {h : AuctionHash} {argv : Argv} {p m c : ℤ} {l : Option Uuid}
    (hbid : h.highestBid = some (.dec p)) (hbidder : h.highestBidder.join = l)
    (hinc : h.minIncrement = some (.dec m)) (hc : argv.amount = .dec c) :
    Admits .exact h argv ↔ (h.state = some .active ∧ ∃ endTs, h.endTs = some endTs ∧
      argv.nowTs < endTs) ∧ p + m ≤ c ∧ (l = some argv.bidderId → p < c) := by
  have hsum : ¬ tonumber .exact argv.amount <
      (currentPrice .exact h.highestBid).add .exact (tonumber .exact (.dec m)) ↔ p + m ≤ c := by
    rw [hc, hbid]
    simp only [currentPrice, tonumber_dec, Number.add_fin, Number.fin_lt_fin, not_lt]
    show ((p : ℚ) / 100 + m / 100 ≤ c / 100) ↔ _
    rw [← add_div, div_le_div_iff_of_pos_right (by norm_num)]
    exact_mod_cast Iff.rfl
  have hself : ¬ (h.highestBidder = some (some argv.bidderId) ∧
      tonumber .exact argv.amount ≤ currentPrice .exact h.highestBid) ↔
      (l = some argv.bidderId → p < c) := by
    rw [hc, hbid, ← hbidder, Option.join_eq_some_iff, not_and]
    simp only [currentPrice, tonumber_dec, Number.fin_le_fin, not_le]
    show (_ → (p : ℚ) / 100 < c / 100) ↔ _
    rw [div_lt_div_iff_of_pos_right (by norm_num)]
    exact_mod_cast Iff.rfl
  constructor
  · rintro ⟨endTs, m', hstate, hend, htime, hinc', hns, hlow⟩
    rw [hinc, Option.some.injEq] at hinc'
    subst hinc'
    exact ⟨⟨hstate, endTs, hend, htime⟩, hsum.mp hlow, hself.mp hns⟩
  · rintro ⟨⟨hstate, endTs, hend, htime⟩, hle, hlead⟩
    exact ⟨endTs, .dec m, hstate, hend, htime, hinc, hself.mpr hlead, hsum.mpr hle⟩

/-- **In exact arithmetic the script's checks are the book's.** -/
theorem admits_iff_book {m : ℤ} {k : Book Uuid m} {h : AuctionHash} {argv : Argv} {c : ℤ}
    (hbid : h.highestBid = some (.dec k.price)) (hbidder : h.highestBidder = some k.leader)
    (hinc : h.minIncrement = some (.dec m)) (hc : argv.amount = .dec c) :
    Admits .exact h argv ↔ (h.state = some .active ∧ ∃ endTs, h.endTs = some endTs ∧
      argv.nowTs < endTs) ∧ k.Admits argv.bidderId c :=
  admits_iff_exact hbid (by rw [hbidder]; rfl) hinc hc

/-! ### Runs -/

/-- What happens to one auction: the contents of Redis and the history. -/
structure ScriptState where
  /-- Redis. -/
  redis : Redis
  /-- The acceptances so far. -/
  accepted : List Accept

/-- The actions of a run. -/
inductive ScriptAct where
  /-- The script runs. -/
  | run (argv : Argv)
  /-- `close_auction` sets the state of the hash. -/
  | close (state : AuctionState)
  /-- A dedup key expires. -/
  | expire (bidId : Uuid)
  deriving DecidableEq

/-- One action on the auction. -/
def scriptStep (R : Rounding) (auctionId : Uuid) (s : ScriptState) : ScriptAct → Option ScriptState
  | .run argv =>
    let out := placeBidLua R auctionId argv s.redis
    some ⟨out.1, logReply argv out.2 s.accepted⟩
  | .close state =>
    if state = .sold ∨ state = .unsold then
      some ⟨s.redis.hset auctionId (.setState state), s.accepted⟩
    else none
  | .expire bidId => some ⟨s.redis.expireResult bidId, s.accepted⟩

/-- What an action can do to the hash `h` of the auction and to the history. -/
inductive ScriptMove (R : Rounding) (auctionId : Uuid) (s : ScriptState) (a : ScriptAct)
    (t : ScriptState) (h : AuctionHash) : Prop where
  /-- The script accepts a bid. -/
  | booked {argv : Argv} (hact : a = .run argv) (hadm : Admits R h argv)
    (hash : t.redis.hash auctionId = some (bookBid argv h))
    (log : t.accepted = s.accepted ++ [⟨argv, argv.amount, h.sequenceNum.getD 0 + 1⟩])
  /-- Nothing. -/
  | kept (hash : t.redis.hash auctionId = some h) (log : t.accepted = s.accepted)
  /-- The state is set. -/
  | closed {state : AuctionState} (hash : t.redis.hash auctionId = some (h.setState state))
    (log : t.accepted = s.accepted)

theorem scriptStep_cases {R : Rounding} {auctionId : Uuid} {s t : ScriptState} {a : ScriptAct}
    {h : AuctionHash} (hh : s.redis.hash auctionId = some h)
    (httl : ∀ argv, a = .run argv → 0 < argv.ttl) (hstep : scriptStep R auctionId s a = some t) :
    ScriptMove R auctionId s a t h := by
  cases a with
  | run argv =>
    cases hstep
    rcases run_cases R auctionId s.redis s.accepted (httl argv rfl) with
      ⟨h', hA, hlog⟩ | ⟨hsame, hlog⟩
    · obtain rfl := Option.some.inj (hh.symm.trans hA.hash)
      refine .booked rfl hA.admits ?_ hlog
      show (placeBidLua R auctionId argv s.redis).1.hash auctionId = _
      rw [hA.left, Redis.setResult_hash, Redis.hset_hash_self, hh]
      rfl
    · exact .kept ((congrFun hsame auctionId).trans hh) hlog
  | close state =>
    simp only [scriptStep] at hstep
    split_ifs at hstep
    cases hstep
    exact .closed (by rw [Redis.hset_hash_self, hh]; rfl) rfl
  | expire bidId =>
    cases hstep
    exact .kept hh rfl

/-- The bid of an action, if it is one, is a number of cents that is not negative, and its
dedup key gets a positive time to live, as `place_bid` gives it. -/
def CentsBid : ScriptAct → Bool
  | .run argv =>
    match argv.amount with
    | .dec c => 0 ≤ c ∧ 0 < argv.ttl
    | _ => false
  | _ => true

theorem centsBid_run {argv : Argv} (h : CentsBid (.run argv) = true) :
    ∃ c, argv.amount = .dec c ∧ 0 ≤ c ∧ 0 < argv.ttl := by
  unfold CentsBid at h
  split at h
  · rename_i argv' heq
    cases heq
    split at h
    · rename_i c hc
      exact ⟨c, hc, of_decide_eq_true h⟩
    · cases h
  · simp_all

/-- The state of a run on a hash with increment `m`: the history is a book. -/
def BookState (auctionId : Uuid) (m : ℤ) (s : ScriptState) : Prop :=
  ∃ (k : Book Uuid m) (h : AuctionHash), s.redis.hash auctionId = some h ∧
    h.minIncrement = some (.dec m) ∧ Tracks h s.accepted ∧
    s.accepted.map (fun e => (e.argv.bidderId, e.argv.amount)) = k.bids.map fun b => (b.1, .dec b.2)

/-- One action keeps the history a book. -/
theorem bookState_step {auctionId : Uuid} {m : ℤ} (hm : 0 ≤ m) {s t : ScriptState} {a : ScriptAct}
    (hs : BookState auctionId m s) (hstep : scriptStep .exact auctionId s a = some t)
    (hok : CentsBid a = true) : BookState auctionId m t := by
  obtain ⟨k, h, hh, hinc, ht, hk⟩ := hs
  have httl : ∀ argv, a = .run argv → 0 < argv.ttl := by
    rintro argv rfl
    obtain ⟨c, -, -, httl⟩ := centsBid_run hok
    exact httl
  cases scriptStep_cases hh httl hstep with
  | @booked argv hact hadm hash log =>
    subst hact
    obtain ⟨c, hc, -, -⟩ := centsBid_run hok
    have hb := ht.booked hm hk
    obtain ⟨-, hle, -⟩ := (admits_iff_book hb.highestBid hb.highestBidder hinc hc).mp hadm
    refine ⟨k.record argv.bidderId c hle, _, hash, hinc, log ▸ ht.book argv, ?_⟩
    rw [log, List.map_append, hk, Book.bids_record, List.map_append]
    simp [hc]
  | kept hash log => exact ⟨k, h, hash, hinc, log ▸ ht, log ▸ hk⟩
  | closed hash log => exact ⟨k, _, hash, hinc, log ▸ ht.setState _, log ▸ hk⟩

/-- The start of a run: `_init_redis_hash` has written the hash. -/
def ScriptState.init (r : Redis) (auctionId : Uuid) (row : Auction) : ScriptState :=
  ⟨r.hset auctionId (initRedisHash row), []⟩

/-- **Runs of the script keep a book**: with an increment of `m` cents, after any run the
accepted bids are a book whose consecutive amounts are `m` apart, the hash holds its
length, price and leader, and a run that is not an acceptance leaves the hash. -/
theorem scriptRun_booked {auctionId : Uuid} {row : Auction} {m : ℤ} {hfits : |m| < 10 ^ 12}
    (hrow : row.minIncrement = .dec m hfits) (hm : 0 ≤ m) (r : Redis) {s : ScriptState}
    (hrun : Reach (scriptStep .exact auctionId) (fun _ a _ => CentsBid a = true)
      (.init r auctionId row) s) :
    (∃ (k : Book Uuid m) (h : AuctionHash), s.redis.hash auctionId = some h ∧
      Booked k h s.accepted) ∧
    ∀ argv, 0 < argv.ttl →
      Reply.isAccepted (placeBidLua .exact auctionId argv s.redis).2 = false →
      (placeBidLua .exact auctionId argv s.redis).1.hash auctionId = s.redis.hash auctionId := by
  have hinit : BookState auctionId m (.init r auctionId row) := by
    refine ⟨Book.empty, _, Redis.hset_hash_self _ _ _, ?_, tracks_init row _, rfl⟩
    simp only [initRedisHash, hrow, toDecimalStr_cents hfits]
  obtain ⟨k, h, hh, -, ht, hk⟩ := hrun.invariant
    (fun hs hstep hok => bookState_step hm hs hstep hok) hinit
  refine ⟨⟨k, h, hh, ht.booked hm hk⟩, ?_⟩
  intro argv httl hrej
  rcases placeBidLua_cases .exact auctionId s.redis httl with
    ⟨h', -, hrep⟩ | hD
  · rw [hrep] at hrej
    cases hrej
  · rw [hD.hash]

/-- Three bids, one of them sent twice, around the close of the camera's auction. -/
def cameraBids : List ScriptAct :=
  [.run ⟨1, 7, .dec 100, 1000, 3600⟩, .run ⟨1, 7, .dec 100, 1001, 3600⟩,
    .run ⟨2, 8, .dec 250, 1000, 3600⟩, .close .sold, .run ⟨3, 9, .dec 900, 1002, 3600⟩]

theorem scriptRun_booked_camera : ∃ s : ScriptState, s.accepted.length = 2 ∧
    ∃ (k : Book Uuid 100) (h : AuctionHash), s.redis.hash 5 = some h ∧ Booked k h s.accepted := by
  obtain ⟨s, hs, hlen⟩ := exists_reach (scriptStep .exact 5)
    (fun _ a _ => CentsBid a = true) cameraBids (s := .init .empty 5 cameraRow)
    (p := fun s => s.accepted.length = 2) (by decide +kernel)
  exact ⟨s, of_decide_eq_true hlen, (scriptRun_booked rfl (by decide) .empty hs).1⟩

end OnlineAuction.Bidding
