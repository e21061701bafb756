import OnlineAuction.Bidding.Minimum
import OnlineAuction.Foundation.Auctioneer
import OnlineAuction.System.Deadline
import OnlineAuction.System.House

/-!
# The rulings on bids

Calls of `place_bid` overlap, and polls run between their commands. Their answers are those of an
auctioneer to one offer after the other: a bid is offered when its script runs. That is after the call
was made and before it answers, so a call that has answered is ruled on before one that is made later.

## What is proved

* `known_afterScript` — the reply of the script is the ruling on the offer.
* `ruled_step` — a step continues the session of the auctioneer.
* `bids_linearize` — the answers of every sane run are the rulings of one session, in which each bid
  is offered once.

## Honest scope

Runs are sane (`Sane`). The auctioneer adds price and increment as binary64 numbers (`TooLow`), and
whether an offer is in time goes by the clock of its call.
-/

namespace OnlineAuction.System

open OnlineAuction.Foundation OnlineAuction.Store OnlineAuction.Lifecycle OnlineAuction.Bidding
  Relation

/-! ### The ruling of the script -/

/-- The auctioneer finds an offer of `n` cents too low: it is below the price plus the increment, or
just that sum and rounded away. -/
def TooLow (price increment n : ℤ) : Prop := n < price + increment ∨ RoundedAway price increment n

instance (price increment n : ℤ) : Decidable (TooLow price increment n) :=
  inferInstanceAs (Decidable (_ ∨ _))

theorem le_of_not_tooLow (price increment n : ℤ) (h : ¬ TooLow price increment n) :
    price + increment ≤ n := not_lt.mp fun hlt => h (Or.inl hlt)

/-- The status that a ruling gives a bid. -/
def statusOf : Ruling → BidStatus
  | .taken => .accepted
  | .notOpen => .rejected .auctionNotActive
  | .timeUp => .rejected .auctionEnded
  | .own => .rejected .selfOutbid
  | .low => .rejected .bidTooLow

theorem statusOf_eq_accepted {ruling : Ruling} : statusOf ruling = .accepted ↔ ruling = .taken := by
  cases ruling <;> simp [statusOf]

/-- The status of a call whose script has replied, and which has not raised. -/
def known : Pc → Option BidStatus
  | .hgetall _ reason => some (.rejected reason)
  | pc => pc.verdict.map (·.status)

section Script

variable {a : Uuid} {argv : Argv} {r : Redis} {h : AuctionHash}

/-- An auction that is not active. -/
theorem known_of_inactive (httl : 0 < argv.ttl) (hfresh : r.bidResult argv.bidId = none)
    (hstate : r.hget a (·.state) ≠ some .active) (e : ℤ) :
    known (Call.afterScript e (placeBidLua double a argv r).2) =
      some (.rejected .auctionNotActive) := by
  unfold placeBidLua
  simp only [hfresh]
  rw [if_pos hstate, markAndReturn_of_pos httl]
  rfl

/-- **The script rules** as the auctioneer does who keeps its book. -/
theorem known_afterScript {terms : Terms ℤ} {book : Book Uuid terms.increment} {acc : List Accept}
    {endTs n : ℤ} (httl : 0 < argv.ttl) (hfresh : r.bidResult argv.bidId = none)
    (hh : r.hash a = some h) (hactive : h.state = some .active) (hend : h.endTs = some endTs)
    (hinc : h.minIncrement = some (.dec terms.increment)) (hbook : Booked book h acc)
    (hamount : argv.amount = .dec n) (hm : |terms.increment| < 10 ^ 12) (hp : 0 ≤ book.price)
    (hp' : book.price < 10 ^ 12) (hn : 0 ≤ n) (hn' : n < 10 ^ 12) (e : ℤ) :
    known (Call.afterScript e (placeBidLua double a argv r).2) =
      some (statusOf ((Lot.opened terms book).rule TooLow (decide (endTs ≤ argv.nowTs))
        argv.bidderId n)) := by
  have hself : (h.highestBidder = some (some argv.bidderId) ∧
      tonumber double argv.amount ≤ currentPrice double h.highestBid) ↔
      (book.leader = some argv.bidderId ∧ n ≤ book.price) := by
    rw [hbook.highestBidder, hamount, hbook.highestBid, Option.some.injEq]
    simp only [currentPrice, tonumber_dec, Number.fin_le_fin]
    refine and_congr_right fun _ => ⟨fun hle => ?_, fun hle => ?_⟩
    · by_contra hlt
      exact absurd hle (not_le.mpr (round_cents_lt hp (not_le.mp hlt) hn'.le))
    · exact double.mono (div_le_div_of_nonneg_right (by exact_mod_cast hle) (by norm_num))
  have hlow : tonumber double argv.amount < (currentPrice double h.highestBid).add double
      (tonumber double (.dec terms.increment)) ↔ TooLow book.price terms.increment n := by
    rw [hamount, hbook.highestBid]
    exact Number.fin_lt_fin.trans (minBid_lt_iff (abs_lt.mpr ⟨by omega, hp'⟩) hm
      (abs_lt.mpr ⟨by omega, hn'⟩))
  unfold placeBidLua Lot.rule
  simp only [hfresh, hget_of_hash hh, hactive, hend, hinc, decide_eq_true_eq]
  rw [if_neg (by simp)]
  simp only [hself, hlow, markAndReturn_of_pos httl]
  split_ifs <;> rfl

end Script

/-! ### The offers -/

/-- The answers of the auctioneer, known by the keys of the bids. -/
abbrev Minutes := List (Offer Uuid Uuid Uuid ℤ × Ruling)

/-- The offer that a call makes. -/
structure OfferOf (s : Sys) (c : Call) (o : Offer Uuid Uuid Uuid ℤ) : Prop where
  /-- The auction. -/
  lot : o.lot = c.auctionId
  /-- The bidder. -/
  bidder : o.bidder = c.bidderId
  /-- The amount, in cents. -/
  amount : toDecimalStr (some (.float c.data.amount)) = .dec o.amount
  /-- It is over when the clock of the call has passed the end of the auction, in seconds. -/
  timeUp : ∃ endTs, (s.pg.auction c.auctionId).map (·.endTs) = some endTs ∧
    o.timeUp = decide (unixSeconds endTs ≤ unixSeconds c.nowTs)

/-- An answer is that to a call whose script has run, and the call knows it until it raises. -/
def Entered (s : Sys) (e : Offer Uuid Uuid Uuid ℤ × Ruling) : Prop :=
  ∃ c, s.bids e.1.key = some c ∧ c.pc.beforeScript = false ∧ OfferOf s c e.1 ∧
    ∀ status, known c.pc = some status → status = statusOf e.2

/-- The answers are those that the calls have got, one for each. -/
structure Minuted (s : Sys) (l : Minutes) : Prop where
  /-- No call is answered twice. -/
  nodup : (l.map (·.1.key)).Nodup
  /-- Each answer is that to a call. -/
  entered : ∀ e ∈ l, Entered s e
  /-- Each call that knows its status was answered. -/
  answered : ∀ b c status, s.bids b = some c → known c.pc = some status → ∃ e ∈ l, e.1.key = b

@[simp] theorem known_afterRows (endTs : ℤ) (v : Verdict) :
    known (Call.afterRows endTs v) = some v.status := by
  unfold Call.afterRows
  split_ifs <;> rfl

@[simp] theorem known_afterBid (c : Call) (endTs : ℤ) (v : Verdict) :
    known (c.afterBid endTs v) = some v.status := by
  unfold Call.afterBid
  split_ifs
  · rfl
  · exact known_afterRows endTs v

/-- But for its script, a call learns nothing of its status. -/
theorem known_of_move {b : Uuid} {c : Call} {w w' : World} {pc : Pc} (h : CallStep b c w w' pc)
    (hscript : ∀ endTs, c.pc ≠ .evalsha endTs) {status : BidStatus} (hstatus : known pc = some status) :
    known c.pc = some status := by
  cases h with
  | script hpc | noScript hpc => exact absurd hpc (hscript _)
  | found | notFound | appended | raised => cases hstatus
  | looked hpc | selected hpc | published hpc | committed hpc =>
    rw [hpc]
    exact hstatus
  | flushed hpc =>
    rw [known_afterBid] at hstatus
    rw [hpc]
    exact hstatus
  | proxied hpc =>
    rw [known_afterRows] at hstatus
    rw [hpc]
    exact hstatus

/-- A script that has run is not run again. -/
theorem not_beforeScript_of_move {b : Uuid} {c : Call} {w w' : World} {pc : Pc}
    (h : CallStep b c w w' pc) (hpc : c.pc.beforeScript = false) : pc.beforeScript = false := by
  by_contra hbefore
  rw [(beforeScript_of h (Bool.of_not_eq_false hbefore)).1] at hpc
  cases hpc

section Step

variable {s t : Sys} {act : Act} {l : Minutes}

/-- An offer stays that of its call. -/
theorem OfferOf.step (hs : AuctionsInv s) (h : SysStep s act t) {c : Call}
    {o : Offer Uuid Uuid Uuid ℤ} (ho : OfferOf s c o) (pc : Pc) : OfferOf t { c with pc := pc } o := by
  obtain ⟨endTs, hend, hover⟩ := ho.timeUp
  exact ⟨ho.lot, ho.bidder, ho.amount, endTs, endTs_step hs h hend, hover⟩

/-- **An answer stays that of its call.** -/
theorem Entered.step (hs : AuctionsInv s) (h : SysStep s act t)
    {e : Offer Uuid Uuid Uuid ℤ × Ruling} (he : Entered s e) : Entered t e := by
  obtain ⟨c, hc, hpc, ho, hstatus⟩ := he
  cases h.bid e.1.key with
  | kept call => exact ⟨c, call.trans hc, hpc, ho.step hs h c.pc, hstatus⟩
  | called _ hnew => cases hnew.symm.trans hc
  | moved _ src _ hmove call =>
    obtain rfl := Option.some.inj (hc.symm.trans src)
    refine ⟨_, call, not_beforeScript_of_move hmove hpc, ho.step hs h _, fun status hknown => ?_⟩
    refine hstatus status (known_of_move hmove (fun endTs hscript => ?_) hknown)
    rw [hscript] at hpc
    cases hpc
  | crashed _ src _ call =>
    obtain rfl := Option.some.inj (hc.symm.trans src)
    exact ⟨_, call, rfl, ho.step hs h _, fun status hknown => by cases hknown⟩

/-- A step that runs no script answers nobody. -/
theorem Minuted.quiet (hs : AuctionsInv s) (h : SysStep s act t)
    (hquiet : ∀ b fault c endTs, act = .bidStep b fault → s.bids b = some c → c.pc ≠ .evalsha endTs)
    (hl : Minuted s l) : Minuted t l where
  nodup := hl.nodup
  entered := fun e he => (hl.entered e he).step hs h
  answered := by
    intro b c status hc hstatus
    cases h.bid b with
    | kept call => exact hl.answered b c status (call ▸ hc) hstatus
    | called _ _ _ call | crashed _ _ _ call =>
      obtain rfl := Option.some.inj (call.symm.trans hc)
      cases hstatus
    | moved hact src _ hmove call =>
      obtain rfl := Option.some.inj (call.symm.trans hc)
      exact hl.answered b _ status src
        (known_of_move hmove (fun endTs => hquiet b _ _ endTs hact src) hstatus)

/-- **The script of a call answers it.** -/
theorem Minuted.ruled (hs : AuctionsInv s) {b : Uuid} {c : Call} {pc : Pc}
    (h : SysStep s (.bidStep b false) t) (hl : Minuted s l) (hc : s.bids b = some c)
    (hbefore : c.pc.beforeScript = true) (hcall : t.bids b = some { c with pc := pc })
    (hpc : pc.beforeScript = false) {o : Offer Uuid Uuid Uuid ℤ} (hkey : o.key = b)
    (ho : OfferOf s c o) {ruling : Ruling} (hstatus : known pc = some (statusOf ruling)) :
    Minuted t (l ++ [(o, ruling)]) where
  nodup := by
    rw [List.map_append, List.nodup_append]
    refine ⟨hl.nodup, List.nodup_singleton _, ?_⟩
    intro b₁ hb₁ b₂ hb₂ heq
    obtain ⟨e, he, rfl⟩ := List.mem_map.mp hb₁
    obtain ⟨c', hc', hafter, -⟩ := hl.entered e he
    obtain rfl : e.1.key = b := heq.trans ((List.mem_singleton.mp hb₂).trans hkey)
    obtain rfl := Option.some.inj (hc.symm.trans hc')
    exact absurd hbefore (by rw [hafter]; simp)
  entered := by
    intro e he
    rcases List.mem_append.mp he with he | he
    · exact (hl.entered e he).step hs h
    · rw [List.mem_singleton.mp he]
      refine ⟨_, hkey ▸ hcall, hpc, ho.step hs h pc, fun status hknown => ?_⟩
      exact Option.some.inj (hknown.symm.trans hstatus)
  answered := by
    intro b' c' status hc' hknown
    by_cases hb : b' = b
    · exact ⟨_, List.mem_append_right _ (List.mem_singleton_self _), hkey.trans hb.symm⟩
    · have hsame : s.bids b' = some c' := by
        cases h.bid b' with
        | kept call => exact call ▸ hc'
        | called hact => cases hact
        | moved hact => exact absurd (Act.bidStep.inj hact).1.symm hb
        | crashed hact => cases hact
      obtain ⟨e, he, hkey'⟩ := hl.answered b' c' status hsame hknown
      exact ⟨e, List.mem_append_left _ he, hkey'⟩

end Step

/-! ### One step -/

section Ruled

variable {now : ℤ} {users : List Uuid} {s t : Sys} {act : Act} {house : House Uuid Uuid ℤ} {l : Minutes}

/-- The bids of a lot are those that the script accepted. -/
theorem Shows.bids (hs : HammerInv s) {a : Uuid} {lot : Lot Uuid ℤ} (h : Shows s a lot) :
    (s.accepted a).map (fun e => (e.argv.bidderId, e.argv.amount)) =
      lot.record.2.map fun b => (b.1, .dec b.2) := by
  cases h with
  | unlisted hrow =>
    rw [hs.states.before.auctions.accepted a hrow]
    rfl
  | waiting _ _ _ hhash =>
    rw [(hs.settlement.history a).follows.missing hhash]
    rfl
  | opened _ _ _ _ _ hbook | closed _ _ _ _ hbook => exact hbook.bids

/-- Two lists of bids in cents that are written alike are the same. -/
theorem eq_of_written {bids bids' : List (Uuid × ℤ)}
    (h : bids.map (fun b => (b.1, DecStr.dec b.2)) = bids'.map fun b => (b.1, .dec b.2)) :
    bids = bids' := by
  refine List.map_injective_iff.mpr ?_ h
  rintro ⟨b, n⟩ ⟨b', n'⟩ heq
  cases heq
  rfl

/-- The price of a lot fits the column. -/
theorem price_lt (hs : HammerInv s) {a : Uuid} {m : ℤ} {book : Book Uuid m} {h : AuctionHash}
    (hbook : Booked book h (s.accepted a)) : book.price < 10 ^ 12 := by
  unfold Book.price lastAmount
  cases hlast : book.bids.getLast? with
  | none => norm_num
  | some b =>
    have hmem : (b.1, DecStr.dec b.2) ∈ (s.accepted a).map
        fun e => (e.argv.bidderId, e.argv.amount) := by
      rw [hbook.bids]
      exact List.mem_map_of_mem (List.mem_of_getLast? hlast)
    obtain ⟨e, he, heq⟩ := List.mem_map.mp hmem
    obtain ⟨n, -, hlt, hn⟩ := hs.isCents he
    obtain rfl := DecStr.dec.inj (hn.symm.trans (Prod.mk.inj heq).2)
    exact hlt

/-- The offer of a call that has loaded its auction. -/
theorem exists_offerOf (hs : HammerInv s) {b : Uuid} {c : Call} (hc : s.bids b = some c)
    (hloaded : c.pc.loaded = true) : ∃ o : Offer Uuid Uuid Uuid ℤ, o.key = b ∧ OfferOf s c o ∧
      0 ≤ o.amount ∧ o.amount < 10 ^ 12 := by
  obtain ⟨n, hfits, hpos, hprint, -⟩ := wholeCents_spec (hs.states.bids b c hc).2
  obtain ⟨row, hrow⟩ :=
    Option.ne_none_iff_exists'.mp (hs.states.before.auctions.loaded b c hc hloaded)
  refine ⟨⟨b, c.auctionId, c.bidderId, n, decide (unixSeconds row.endTs ≤ unixSeconds c.nowTs)⟩, rfl,
    ⟨rfl, rfl, hprint, row.endTs, ?_, rfl⟩, hpos.le, (abs_lt.mp hfits).2⟩
  rw [hrow]
  rfl

/-- **The script rules on the offer**, for the lot as the stores show it. -/
theorem known_of_shows (hreach : Reachable now users s) (hs : HammerInv s) {b : Uuid} {c : Call}
    {endTs : ℤ} (hc : s.bids b = some c) (hpc : c.pc = .evalsha endTs) {lot : Lot Uuid ℤ}
    (hlot : Shows s c.auctionId lot) {o : Offer Uuid Uuid Uuid ℤ} (ho : OfferOf s c o)
    (hn : 0 ≤ o.amount) (hn' : o.amount < 10 ^ 12) :
    known (Call.afterScript endTs
      (placeBidLua double c.auctionId (c.argv b endTs) s.redis).2) =
      some (statusOf (lot.rule TooLow o.timeUp o.bidder o.amount)) := by
  have httl : 0 < (c.argv b endTs).ttl := ttl_pos _ _
  have hfresh := hs.settlement.history c.auctionId |>.calls.fresh hc hpc
  have hloaded := hs.states.before.auctions.loaded b c hc (by rw [hpc]; rfl)
  cases hlot with
  | unlisted hrow => exact absurd hrow hloaded
  | waiting _ _ _ hhash =>
    exact known_of_inactive httl hfresh (by simp [Redis.hget, hhash]) endTs
  | closed _ _ hhash hshut =>
    exact known_of_inactive httl hfresh (by rw [hget_of_hash hhash]; exact hshut) endTs
  | @opened row terms book h hrow hterms hstate hhash hactive hbook =>
    obtain ⟨hm, hm', hinc⟩ := increment_of_terms hs hrow hterms
    have hend := endTs_of_active hreach (Or.inl hrow) hhash hactive
    obtain ⟨e, he, hover⟩ := ho.timeUp
    obtain rfl : row.endTs = e := by simpa [hrow] using he
    rw [hover, ho.bidder]
    exact known_afterScript httl hfresh hhash hactive hend (hinc h hhash) hbook ho.amount
      (abs_lt.mpr ⟨by omega, hm'⟩) (book.price_nonneg hm) (price_lt hs hbook) hn hn' endTs

/-- A step in which nobody bids is a session without offers. -/
theorem session_of_quiet (hs : HammerInv s) (hstep : step s act = some t) (hok : Sane s act)
    (hhouse : ShowsHouse s house) (haccepted : t.accepted = s.accepted) :
    ∃ house', Session TooLow house ([] : Minutes) house' ∧ ShowsHouse t house' := by
  obtain ⟨house', hmoves, hhouse'⟩ := showsHouse_step hs hstep hok hhouse
  refine ⟨house', .of_moves hmoves fun a => eq_of_written ?_, hhouse'⟩
  rw [← (hhouse' a).bids (hammerInv_step hs hstep hok), ← (hhouse a).bids hs, haccepted]

/-- A step in which a bid is accepted. -/
theorem shows_accepted (hs : HammerInv s) (hstep : step s act = some t) (hok : Sane s act)
    (hhouse : ShowsHouse s house) {a bidder : Uuid} {n : ℤ} {e : Accept}
    (htouched : touched s act = some a) (haccepted : t.accepted a = s.accepted a ++ [e])
    (hbidder : e.argv.bidderId = bidder) (hamount : e.argv.amount = .dec n) :
    ShowsHouse t (Function.update house a ((house a).offered bidder n)) := by
  intro a'
  obtain ⟨lot, hlot, hmove⟩ := shows_step hs hstep hok (hhouse a')
  by_cases ha : a' = a
  · subst ha
    rw [Function.update_self]
    have hrecord : lot.record.2 = (house a').record.2 ++ [(bidder, n)] := by
      apply eq_of_written
      rw [← hlot.bids (hammerInv_step hs hstep hok), haccepted, List.map_append,
        (hhouse a').bids hs, List.map_append, List.map_singleton, hbidder, hamount]
      rfl
    rcases hmove with rfl | ⟨hmove, -⟩
    · have hlen := congrArg List.length hrecord
      simp at hlen
    · rwa [← hmove.eq_offered hrecord]
  · rw [Function.update_of_ne ha]
    rcases hmove with rfl | ⟨-, htouched'⟩
    · exact hlot
    · exact absurd (Option.some.inj (htouched'.symm.trans htouched)) ha

/-- A step that is no script of a call accepts no bid. -/
theorem accepted_of_quiet (h : SysStep s act t)
    (hquiet : ∀ b fault c endTs, act = .bidStep b fault → s.bids b = some c → c.pc ≠ .evalsha endTs) :
    t.accepted = s.accepted := by
  funext a
  cases h.hash a with
  | booked hact src hpc => exact absurd hpc (hquiet _ _ _ _ hact src)
  | kept _ log | opened _ _ _ log | started _ _ _ log | closed _ _ _ _ _ log | lost _ _ log => exact log

/-- What the script of a call does as a step. -/
theorem script_step {b : Uuid} {c : Call} {endTs : ℤ} (hc : s.bids b = some c)
    (hpc : c.pc = .evalsha endTs) (hstep : step s (.bidStep b false) = some t) :
    callStep b c false s.toWorld = some (s.toWorld.runScript c.auctionId (c.argv b endTs),
      Call.afterScript endTs (placeBidLua double c.auctionId (c.argv b endTs) s.redis).2) ∧
    t.accepted = (s.toWorld.runScript c.auctionId (c.argv b endTs)).accepted ∧
    t.bids b = some { c with
      pc := Call.afterScript endTs (placeBidLua double c.auctionId (c.argv b endTs) s.redis).2 } := by
  have hout : callStep b c false s.toWorld = some (s.toWorld.runScript c.auctionId (c.argv b endTs),
      Call.afterScript endTs (placeBidLua double c.auctionId (c.argv b endTs) s.redis).2) := by
    simp [callStep, hpc]
  simp only [step, hc, hout, Option.map_some, Option.some.injEq] at hstep
  subst hstep
  exact ⟨hout, rfl, Function.update_self _ _ _⟩

/-- The script of a call, as a step: the call is ruled on. -/
theorem ruled_script (hreach : Reachable now users s) (hs : HammerInv s) {b : Uuid} {c : Call}
    {endTs : ℤ} (hc : s.bids b = some c) (hpc : c.pc = .evalsha endTs)
    (hstep : step s (.bidStep b false) = some t) (hok : Sane s (.bidStep b false))
    (hhouse : ShowsHouse s house) (hl : Minuted s l) :
    ∃ (more : Minutes) (house' : House Uuid Uuid ℤ),
      Session TooLow house more house' ∧ ShowsHouse t house' ∧ Minuted t (l ++ more) := by
  obtain ⟨o, hkey, ho, hn, hn'⟩ := exists_offerOf hs hc (by rw [hpc]; rfl)
  have hknown := known_of_shows hreach hs hc hpc (hhouse c.auctionId) ho hn hn'
  have hfresh := (hs.settlement.history c.auctionId).calls.fresh hc hpc
  obtain ⟨hout, haccepts, hcall⟩ := script_step hc hpc hstep
  have hafter : (Call.afterScript endTs
      (placeBidLua double c.auctionId (c.argv b endTs) s.redis).2).beforeScript = false := by
    by_contra hbefore
    exact (beforeScript_of (callStep_cases hout) (Bool.of_not_eq_false hbefore)).2 endTs hpc
  have hminuted := hl.ruled hs.states.before.auctions (step_cases hstep) hc (by rw [hpc]; rfl) hcall
    hafter hkey ho hknown
  rcases @afterScript_cases s.toWorld c.auctionId (c.argv b endTs) endTs (ttl_pos _ _) hfresh with
    ⟨h, -, hlog, hverdict⟩ | ⟨-, hlog, hverdict⟩
  · -- accepted, so it was taken
    rw [hverdict] at hknown
    have hrule := statusOf_eq_accepted.mp (Option.some.inj hknown).symm
    rw [hrule] at hminuted
    have htouched : touched s (.bidStep b false) = some c.auctionId := by
      rw [touched, hc]
      rfl
    have haccepted : t.accepted c.auctionId = s.accepted c.auctionId ++
        [⟨c.argv b endTs, (c.argv b endTs).amount, h.sequenceNum.getD 0 + 1⟩] := by
      rw [haccepts, hlog, Function.update_self]
    have hshows := shows_accepted hs hstep hok hhouse htouched haccepted ho.bidder.symm ho.amount
    rw [← ho.lot] at hrule hshows
    exact ⟨[(o, .taken)], _, .taken .nil hrule, hshows, hminuted⟩
  · -- rejected, so it was not taken
    have haccepted : t.accepted = s.accepted := haccepts.trans hlog
    have hrule : (house c.auctionId).rule TooLow o.timeUp o.bidder o.amount ≠ .taken := by
      intro htaken
      rw [htaken] at hknown
      rcases hverdict with ⟨reason, hverdict⟩ | hverdict <;> rw [hverdict] at hknown <;> cases hknown
    obtain ⟨house', hsession, hhouse'⟩ := session_of_quiet hs hstep hok hhouse haccepted
    rw [← ho.lot] at hrule hminuted
    exact ⟨_, house', .append (.refused .nil hrule) hsession, hhouse', by simpa using hminuted⟩

/-- **A step continues the session.** -/
theorem ruled_step (hreach : Reachable now users s) (hs : HammerInv s) (hstep : step s act = some t)
    (hok : Sane s act) (hhouse : ShowsHouse s house) (hl : Minuted s l) :
    ∃ (more : Minutes) (house' : House Uuid Uuid ℤ),
      Session TooLow house more house' ∧ ShowsHouse t house' ∧ Minuted t (l ++ more) := by
  by_cases hscript : ∃ b fault c endTs, act = .bidStep b fault ∧ s.bids b = some c ∧ c.pc = .evalsha endTs
  · obtain ⟨b, fault, c, endTs, rfl, hc, hpc⟩ := hscript
    obtain rfl : fault = false := by simpa [Act.faultless] using proper_faultless hok.proper
    exact ruled_script hreach hs hc hpc hstep hok hhouse hl
  · have hquiet : ∀ b fault c endTs, act = .bidStep b fault → s.bids b = some c →
        c.pc ≠ .evalsha endTs := fun b fault c endTs hact hc hpc =>
      hscript ⟨b, fault, c, endTs, hact, hc, hpc⟩
    have h := step_cases hstep
    obtain ⟨house', hsession, hhouse'⟩ :=
      session_of_quiet hs hstep hok hhouse (accepted_of_quiet h hquiet)
    refine ⟨[], house', hsession, hhouse', ?_⟩
    rw [List.append_nil]
    exact hl.quiet hs.states.before.auctions h hquiet

end Ruled

/-! ### Every run -/

/-- A run continues the session. -/
theorem ruled_run {now : ℤ} {users : List Uuid} {s t : Sys}
    (hs : Reach step (fun s act _ => Sane s act) (.initial now users) s)
    (ht : Reach step (fun s act _ => Sane s act) s t) {house : House Uuid Uuid ℤ} {l : Minutes}
    (hhouse : ShowsHouse s house) (hl : Minuted s l) :
    ∃ (more : Minutes) (house' : House Uuid Uuid ℤ),
      Session TooLow house more house' ∧ ShowsHouse t house' ∧ Minuted t (l ++ more) := by
  refine ht.invariant_with
    (J := fun t => Reach step (fun s act _ => Sane s act) (.initial now users) t)
    (I := fun t => ∃ (more : Minutes) (house' : House Uuid Uuid ℤ),
      Session TooLow house more house' ∧ ShowsHouse t house' ∧ Minuted t (l ++ more))
    (fun hu hstep hok => hu.tail ⟨_, hstep, hok⟩) ?_ hs ⟨[], house, .nil, hhouse, by simpa using hl⟩
  rintro u act v hu ⟨more, house', hsession, hhouse', hl'⟩ hstep hok
  obtain ⟨more', house'', hsession', hhouse'', hl''⟩ :=
    ruled_step (hu.weaken fun _ => trivial) (hammerInv_of_reach hu) hstep hok hhouse' hl'
  refine ⟨more ++ more', house'', hsession.append hsession', hhouse'', ?_⟩
  rwa [← List.append_assoc]

/-- The bids accepted on an auction are the offers for it that were taken. -/
theorem accepted_of_session {s : Sys} (hs : HammerInv s) {house : House Uuid Uuid ℤ} {l : Minutes}
    (hsession : Session TooLow .empty l house) (hhouse : ShowsHouse s house) (a : Uuid) :
    (s.accepted a).map (fun e => (e.argv.bidderId, e.argv.amount)) =
      (takenFor a l).map fun b => (b.1, .dec b.2) := by
  rw [(hhouse a).bids hs, hsession.record_eq le_of_not_tooLow a]
  rfl

/-- **Bids are answered one after the other.** The answers that the calls have got in any state of a
sane run are those of an auctioneer in one session: each call that has its answer was answered once, as
the auctioneer ruled on its offer, for the lots that the stores showed, and the bids accepted are the
offers that he took. In a later state the session has gone on, so whoever has his answer now was ruled
on before those who have not called yet. -/
theorem bids_linearize {now : ℤ} {users : List Uuid} {s t : Sys}
    (hs : Reach step (fun s act _ => Sane s act) (.initial now users) s)
    (ht : Reach step (fun s act _ => Sane s act) s t) :
    ∃ (house house' : House Uuid Uuid ℤ) (earlier later : Minutes),
      Session TooLow .empty earlier house ∧ ShowsHouse s house ∧ Minuted s earlier ∧
      Session TooLow house later house' ∧ ShowsHouse t house' ∧ Minuted t (earlier ++ later) ∧
      (∀ e ∈ later, ∀ c status, s.bids e.1.key = some c → known c.pc ≠ some status) ∧
      ∀ a, (t.accepted a).map (fun e => (e.argv.bidderId, e.argv.amount)) =
        (takenFor a (earlier ++ later)).map fun b => (b.1, .dec b.2) := by
  obtain ⟨earlier, house, hsession, hhouse, hl⟩ := @ruled_run now users _ s (.refl _) hs .empty []
    (fun _ => .unlisted rfl) ⟨List.nodup_nil, (fun _ he => by cases he), fun _ _ _ hc => by cases hc⟩
  obtain ⟨later, house', hsession', hhouse', hl'⟩ := ruled_run hs ht hhouse hl
  refine ⟨house, house', earlier, later, hsession, hhouse, hl, hsession', hhouse', hl', ?_, ?_⟩
  · intro e he c status hc hknown
    obtain ⟨e', he', hkey⟩ := hl.answered _ c status hc hknown
    have hdisjoint := (List.nodup_append.mp (List.map_append ▸ hl'.nodup)).2.2
    exact hdisjoint _ (List.mem_map_of_mem he') _ (List.mem_map_of_mem he) hkey
  · exact accepted_of_session (hammerInv_of_reach (hs.trans ht)) (hsession.append hsession') hhouse'

/-! ### A run -/

/-- Another bidder offers `25.50` for the camera, whose increment is `1.00`. -/
def secondBid : List Act :=
  .bid 101 5 8 { amount := .ofNumber (.fin (51 / 2)) } :: List.replicate 3 (.bidStep 101 false)

/-- The first bid on the camera is taken; the second is made later and is too low, both for the
auctioneer and in its answer. -/
theorem bids_linearize_camera : ∃ (s t : Sys) (house house' : House Uuid Uuid ℤ)
    (earlier later : Minutes), (s.bids 100).any (fun c => known c.pc = some .accepted) = true ∧
    s.bids 101 = none ∧ (t.bids 101).any (fun c => known c.pc = some (.rejected .bidTooLow)) = true ∧
    Session TooLow .empty earlier house ∧ ShowsHouse s house ∧ Minuted s earlier ∧
    Session TooLow house later house' ∧ ShowsHouse t house' ∧ Minuted t (earlier ++ later) := by
  obtain ⟨s, hs, hp⟩ := exists_reach step (fun s act _ => Sane s act)
    (cameraBid (.ofNumber (.fin 25))) (s := .initial 1000000000 [1, 7, 8])
    (p := fun s => (s.bids 100).any (fun c => known c.pc = some .accepted) ∧ (s.bids 101).isNone ∧
      (runIf step (fun s act _ => Sane s act) secondBid s).any fun t =>
        (t.bids 101).any fun c => known c.pc = some (.rejected .bidTooLow)) (by decide +kernel)
  obtain ⟨hfirst, hnone, hrun⟩ := of_decide_eq_true hp
  obtain ⟨t, ht, hsecond⟩ := (Option.any_eq_true _ _).mp hrun
  obtain ⟨house, house', earlier, later, hsession, hhouse, hl, hsession', hhouse', hl', -⟩ :=
    bids_linearize hs (reach_of_runIf ht)
  exact ⟨s, t, house, house', earlier, later, hfirst, Option.isNone_iff_eq_none.mp hnone, hsecond,
    hsession, hhouse, hl, hsession', hhouse', hl'⟩

end OnlineAuction.System
