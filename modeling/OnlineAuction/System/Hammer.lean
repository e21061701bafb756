import OnlineAuction.System.Prices
import OnlineAuction.System.States

/-!
# The fall of the hammer

A close weighs the last accepted bid against the reserve: a bid above it is sold, one below it is
not. At the reserve itself both happen, since the bid is compared as a float and the float may lie
below.

## What is proved

* `settle_at` — what settling makes of a stored highest bid.
* `hammered_of_close` — a close of a tracked history ends with its last bid (`Hammered`).
* `hammerInv_step` — what a step of a sane run preserves (`HammerInv`).
-/

namespace OnlineAuction.System

open OnlineAuction.Foundation OnlineAuction.Store OnlineAuction.Lifecycle OnlineAuction.Bidding

/-! ### One close -/

/-- How a closed row stands to the history of its auction. -/
inductive Hammered (acc : List Accept) (row : Auction) : Prop where
  /-- Nobody has bid. -/
  | nobody (hstate : row.state = .unsold) (hwinner : row.winnerId = none)
    (hbid : row.highestBid = none) (hnone : acc = [])
  /-- It is sold to the last bidder for the last amount, which reaches the reserve. -/
  | sold {l : Accept} (hstate : row.state = .sold) (hwinner : row.winnerId = some l.argv.bidderId)
    (hbid : row.highestBid.map (·.value) = some l.argv.amount.value)
    (hlast : acc.getLast? = some l) (hreserve : ∀ r ∈ row.reservePrice, r.value ≤ l.argv.amount.value)
  /-- It is not sold, for the last amount does not exceed the reserve. -/
  | unsold {l : Accept} {r : Numeric} (hstate : row.state = .unsold) (hwinner : row.winnerId = none)
    (hbid : row.highestBid.map (·.value) = some l.argv.amount.value)
    (hlast : acc.getLast? = some l) (hreserve : row.reservePrice = some r)
    (hle : l.argv.amount.value ≤ r.value)

/-- A reserve that the nearest float misses is not exceeded. -/
theorem le_of_double_lt {r c : ℤ} (h₀ : 0 ≤ c) (h : c < 10 ^ 12)
    (hlt : double (c / 100) < (r / 100 : ℚ)) : (c / 100 : ℚ) ≤ r / 100 := by
  have hnear := (abs_lt.mp (cents_near (abs_lt.mpr ⟨by linarith, h⟩))).1
  have hlt' : (c : ℚ) < r + 1 := by linarith
  have hint : c ≤ r := Int.lt_add_one_iff.mp (by exact_mod_cast hlt')
  have : (c : ℚ) ≤ r := by exact_mod_cast hint
  linarith

/-- **Settling weighs the highest bid** against the reserve. -/
theorem settle_at {obj : AuctionObj} {c : ℤ} {b : Uuid} (h₀ : 0 ≤ c) (hlt : c < 10 ^ 12)
    (hclosed : obj.row.state = .closed) (hwinner : obj.row.winnerId = some b)
    (hbid : obj.highestBid = some (.float (.ofNumber (.fin (c / 100)))))
    (hreserve : obj.row.reservePrice ≠ some .nan) :
    ∃ obj', resolveSettlementInner obj = some obj' ∧
      (obj'.row = { obj.row with state := .sold } ∧
          (∀ r ∈ obj.row.reservePrice, r.value ≤ .fin (c / 100)) ∨
        obj'.row = { obj.row with state := .unsold, winnerId := none } ∧
          ∃ r ∈ obj.row.reservePrice, .fin (c / 100) ≤ r.value) := by
  unfold resolveSettlementInner
  rw [if_neg (not_not.mpr hclosed), hbid, hwinner]
  cases hr : obj.row.reservePrice with
  | none => exact ⟨_, rfl, Or.inl ⟨by simp [hr, hwinner], by simp⟩⟩
  | some reserve =>
    cases reserve with
    | nan => exact absurd hr hreserve
    | dec r hrfits =>
      have hnumbers : ¬ ((PyValue.float (.ofNumber (.fin (c / 100)))).value = .nan ∨
          (Numeric.dec r hrfits).value = .nan) := by
        rintro (h | h) <;> cases h
      simp only [if_neg hnumbers]
      split_ifs with hle
      · refine ⟨_, rfl, Or.inl ⟨by simp [hr, hwinner], ?_⟩⟩
        rintro _ ⟨⟩
        exact Number.fin_le_fin.mpr
          (le_of_le_double h₀ hlt (Number.fin_le_fin.mp hle))
      · refine ⟨_, rfl, Or.inr ⟨by simp [hr], _, rfl, ?_⟩⟩
        have hbelow : ¬ (r / 100 : ℚ) ≤ double (c / 100) := fun h => hle (Number.fin_le_fin.mpr h)
        exact Number.fin_le_fin.mpr (le_of_double_lt h₀ hlt (not_le.mp hbelow))

/-- The object, once it is flushed, is settled without an exception, as the history has it. -/
def Falls (acc : List Accept) (obj : AuctionObj) : Prop :=
  ∀ users obj', flushAuction users obj = some obj' →
    ∃ obj'', resolveSettlementInner obj' = some obj'' ∧ Hammered acc obj''.row

/-- **A close of a history in cents ends with its last bid.** -/
theorem hammered_of_close {s : Sys} {a : Uuid} (hs : HistoryInv s a)
    (hcents : ∀ e ∈ s.accepted a, IsCents e.argv.amount) {row : Auction}
    (hbid : row.highestBid = none) (hwinner : row.winnerId = none)
    (hreserve : row.reservePrice ≠ some .nan) :
    Falls (s.accepted a) (assignWinner (s.redis.hash a) row) := by
  intro users obj' hflush
  cases hlast : (s.accepted a).getLast? with
  | none =>
    have hnil := List.getLast?_eq_none_iff.mp hlast
    have hnobody : ∀ h b, s.redis.hash a = some h → h.highestBidder ≠ some (some b) := by
      intro h b hh hb
      by_cases hinc : h.minIncrement = none
      · rw [(hs.follows.unopened h hh hinc).2] at hb
        cases hb
      · rw [(hs.follows.opened h hh hinc).highestBidder, hlast] at hb
        cases hb
    rw [assignWinner_nobody hnobody, flushAuction_load (by simp [hwinner])] at hflush
    cases hflush
    exact ⟨_, @settle_nobody { row with state := .closed } rfl hwinner, .nobody rfl hwinner hbid hnil⟩
  | some l =>
    have hmem := List.mem_of_getLast? hlast
    obtain ⟨c, hpos, hlt, hamount⟩ := hcents l hmem
    have hfits : |c| < 10 ^ 12 := abs_lt.mpr ⟨by linarith, hlt⟩
    obtain ⟨h, hh, htr⟩ := hs.follows.tracked (List.ne_nil_of_mem hmem)
    have hb : h.highestBidder = some (some l.argv.bidderId) := by rw [htr.highestBidder, hlast]; rfl
    have hd : h.highestBid = some (.dec c) := by rw [htr.highestBid, hlast, ← hamount]; rfl
    let obj : AuctionObj := ⟨{ row with
      state := .closed, winnerId := some l.argv.bidderId, highestBid := some (.dec c hfits) },
      some (.float (.ofNumber (.fin (c / 100))))⟩
    obtain rfl : obj = obj' := by
      rw [hh, assignWinner_leader hb, hd, flushAuction] at hflush
      split_ifs at hflush
      simp only [Option.getD_some, PyValue.value] at hflush
      change Option.map _ (Numeric.ofNumber (.fin (double (c / 100)))) = _ at hflush
      rw [numeric_cents hfits] at hflush
      exact Option.some.inj hflush
    have hvalue : l.argv.amount.value = .fin (c / 100) := by rw [hamount]; rfl
    obtain ⟨obj'', hsettle, ⟨hrow, hmet⟩ | ⟨hrow, r, hr, hle⟩⟩ :=
      @settle_at obj c _ hpos.le hlt rfl rfl rfl hreserve
    · refine ⟨obj'', hsettle, ?_⟩
      rw [hrow]
      exact .sold rfl rfl (congrArg some hvalue.symm) hlast (hvalue ▸ hmet)
    · refine ⟨obj'', hsettle, ?_⟩
      rw [hrow]
      exact .unsold rfl rfl (congrArg some hvalue.symm) hlast hr (hvalue ▸ hle)

/-! ### Sane runs -/

/-- The increment of a new auction. -/
def Act.increment : Act → Option Number
  | .create _ _ data => some data.minIncrement.val
  | _ => none

/-- A proper step that accepts no bid on an auction whose winner is read and whose hash is not yet
shut, and in which an increment is a number. -/
structure Sane (s : Sys) (act : Act) : Prop where
  /-- Nothing fails, bids are those of users in whole cents, and a reserve is a number. -/
  proper : proper s act = true
  /-- No late bid. -/
  noLate : ∀ a ∈ acceptsOn s act, closing s a = false
  /-- No increment is a NaN. -/
  increment : ∀ x ∈ act.increment, x ≠ .nan

instance (s : Sys) (act : Act) : Decidable (Sane s act) :=
  decidable_of_iff (proper s act = true ∧ (∀ a ∈ acceptsOn s act, closing s a = false) ∧
      ∀ x ∈ act.increment, x ≠ .nan)
    ⟨fun h => ⟨h.1, h.2.1, h.2.2⟩, fun h => ⟨h.proper, h.noLate, h.increment⟩⟩

/-- What is claimed of the close poll: the object at hand falls as the history has it, and so have
the auctions of the session. -/
def Falling (s : Sys) (p : ClosePoll) : Prop :=
  ClosesHold
    (fun todo obj => ∀ b ∈ todo.head?, b.2.highestBid = none → b.2.winnerId = none →
      b.2.reservePrice ≠ some .nan → Falls (s.accepted b.1) obj)
    (fun todo obj => ∀ b ∈ todo.head?, Hammered (s.accepted b.1) obj.row)
    (fun b => Hammered (s.accepted b.1) b.2) p

/-- What sane runs keep. -/
structure HammerInv (s : Sys) : Prop where
  /-- The lifecycle. -/
  states : StatesInv s
  /-- Closed auctions are settled and shut. -/
  settlement : SettlementInv s
  /-- The increment of a new row is a number. -/
  created : ∀ a c, s.creates a = some c → c.row.minIncrement ≠ .nan
  /-- So is that of a committed row. -/
  increment : ∀ a row, s.pg.auction a = some row → row.minIncrement ≠ .nan
  /-- Every hash was opened. -/
  opened : ∀ a h, s.redis.hash a = some h → h.minIncrement ≠ none
  /-- The close poll. -/
  polls : ∀ p, s.closes = some p → Falling s p
  /-- The closed auctions of the table. -/
  rows : ∀ a row, s.pg.auction a = some row → row.state ≠ .upcoming → row.state ≠ .active →
    Hammered (s.accepted a) row

/-- Accepted amounts are whole cents. -/
theorem HammerInv.isCents {s : Sys} (hs : HammerInv s) {a : Uuid} {e : Accept}
    (he : e ∈ s.accepted a) : IsCents e.argv.amount := by
  obtain ⟨c, hc, hacc⟩ := (hs.settlement.history a).calls.history a e he
  exact hacc.amount ▸ isCents_of_wholeCents (hs.states.bids _ c hc).2

section Step

variable {s t : Sys} {act : Act}

/-- A close of a proper run does not raise. -/
theorem settles_of_sound (hs : StatesInv s) (h : SysStep s act t) : closeRaises s act = false := by
  cases h with
  | @closed fault p a row rest r p' hp htodo =>
    simp only [closeRaises, hp]
    split
    · rename_i obj hpc
      obtain ⟨obj', obj'', hflush, hsettle, -⟩ := flush_sound hs hp hpc htodo
      simp [hflush, hsettle]
    · rfl
  | _ => rfl

/-- The script runs for a call that awaits it. -/
theorem evalsha_of_scriptRun {c : Call} {argv : Argv} (h : scriptRun s act = some (c, argv)) :
    ∃ b endTs, s.bids b = some c ∧ c.pc = .evalsha endTs ∧ argv = c.argv b endTs := by
  unfold scriptRun at h
  split at h
  · rename_i b
    split at h
    · rename_i c' hc
      split at h
      · rename_i endTs hpc
        cases h
        exact ⟨b, endTs, hc, hpc, rfl⟩
      · cases h
    · cases h
  · cases h

/-- No NaN is compared: neither an amount nor an increment is one. -/
theorem comparesNan_of_inv (hs : HammerInv s) (act : Act) : comparesNan s act = false := by
  unfold comparesNan
  refine (Option.any_eq_false _ _).mpr ?_
  rintro ⟨c, argv⟩ hrun
  obtain ⟨b, endTs, hc, hpc, rfl⟩ := evalsha_of_scriptRun hrun
  obtain ⟨n, hfits, -, hprint, -⟩ := wholeCents_spec (hs.states.bids b c hc).2
  have hinv := hs.states.before.auctions
  obtain ⟨row, hrow⟩ := Option.ne_none_iff_exists'.mp (hinv.loaded b c hc (by rw [hpc]; rfl))
  refine (Option.any_eq_false _ _).mpr ?_
  intro h hh
  rw [decide_eq_false_iff_not]
  rintro ⟨-, hamount | ⟨hinc, -⟩⟩
  · cases hprint.symm.trans hamount
  · have hofRow := (hinv.hashes _ row h hrow hh).minIncrement _ hinc
    cases hm : row.minIncrement with
    | nan => exact hs.increment _ row hrow hm
    | dec m hmfits => rw [hm, toDecimalStr_cents] at hofRow; cases hofRow

/-- **A sane step fails nowhere** and is in time. -/
theorem inTime_of_sane (hs : HammerInv s) (h : SysStep s act t) (hok : Sane s act) : InTime s act where
  faultless := proper_faultless hok.proper
  settles := settles_of_sound hs.states h
  noNan := comparesNan_of_inv hs act
  noLate := hok.noLate

theorem increment_created_step (hs : HammerInv s) (h : SysStep s act t) (hok : Sane s act) {a : Uuid}
    {c : Create} (hc : t.creates a = some c) : c.row.minIncrement ≠ .nan := by
  cases h.creation a with
  | kept _ create => exact hs.created a c (create ▸ hc)
  | created hact _ hrow _ _ _ create =>
    obtain rfl := Option.some.inj (create.symm.trans hc)
    obtain ⟨-, -, -, hins⟩ := createAuction_created hrow
    intro hnan
    exact hok.increment _ (hact ▸ rfl) (Numeric.ofNumber_nan (hnan ▸ hins.increment))
  | opened _ src _ create =>
    obtain rfl := Option.some.inj (create.symm.trans hc)
    exact (hs.created a _ src :)
  | ended src create =>
    obtain rfl := Option.some.inj (create.symm.trans hc)
    exact (hs.created a _ src :)

theorem increment_step (hs : HammerInv s) (h : SysStep s act t) {a : Uuid} {row : Auction}
    (hrow : t.pg.auction a = some row) : row.minIncrement ≠ .nan := by
  cases (h.row a).change hs.states.before.auctions with
  | kept heq => exact hs.increment a row (heq ▸ hrow)
  | stored _ _ src _ heq =>
    obtain rfl := Option.some.inj (heq.symm.trans hrow)
    exact (hs.created a _ src :)
  | started _ hrow₀ _ heq =>
    obtain rfl := Option.some.inj (heq.symm.trans hrow)
    exact (hs.increment a _ hrow₀ :)
  | closed _ hrow₀ _ hclosing heq =>
    obtain rfl := Option.some.inj (heq.symm.trans hrow)
    rw [hclosing.same]
    exact (hs.increment a _ hrow₀ :)

/-- The hash of an auction that is shut is there. -/
theorem hash_of_closes (hs : StatesInv s) {p : ClosePoll} {a : Uuid} {row : Auction}
    {rest : List (Uuid × Auction)} (hp : s.closes = some p) (htodo : p.todo = (a, row) :: rest) :
    HashIs s a .active := by
  have hinv := hs.before.auctions
  obtain ⟨hrow, hactive⟩ := hinv.row_of_closes hp htodo
  refine hs.active a row hrow hactive ?_
  intro p' hp' hmem
  obtain rfl := Option.some.inj (hp.symm.trans hp')
  obtain ⟨b, hb, hab⟩ := List.mem_map.mp hmem
  exact ClosePoll.ne_head htodo (hinv.closes p hp).nodup (List.mem_append_right _ hb) hab

theorem opened_step (hs : HammerInv s) (h : SysStep s act t) {a : Uuid} {h' : AuctionHash}
    (hh : t.redis.hash a = some h') : h'.minIncrement ≠ none := by
  cases h.hash a with
  | kept hash => exact hs.opened a h' (hash ▸ hh)
  | opened _ _ hash | started _ _ hash =>
    obtain rfl := Option.some.inj (hash.symm.trans hh)
    simp [initRedisHash]
  | booked _ _ _ _ _ hfound _ hash =>
    obtain rfl := Option.some.inj (hash.symm.trans hh)
    exact (hs.opened a _ hfound :)
  | closed _ src _ htodo hash =>
    obtain ⟨h₀, hh₀, -⟩ := hash_of_closes hs.states src htodo
    rw [hh₀] at hash
    obtain rfl := Option.some.inj (hash.symm.trans hh)
    exact hs.opened a h₀ hh₀
  | lost _ hash => rw [hash] at hh; cases hh

/-- A closed auction accepts nothing more. -/
theorem accepted_of_done {a : Uuid} {row row₀ : Auction} (hd : Done s a row) (hs : AuctionsInv s)
    (h : SysStep s act t) (hlost : act ≠ .loseHash a) (hrow : s.pg.auction a = some row₀)
    (hstate : row₀.state ≠ .upcoming) : t.accepted a = s.accepted a := by
  obtain ⟨h₀, hh₀, hshut⟩ := hd.shut
  cases committed_move hs h hlost hrow hstate with
  | kept _ log => exact log
  | accepted haccepts =>
    obtain ⟨h', argv, hh', endTs, inc, hadm⟩ := admits_of_acceptsOn haccepts
    obtain rfl := Option.some.inj (hh₀.symm.trans hh')
    exact absurd hadm.state hshut
  | shut _ _ _ log => exact log

/-- What is claimed of the close poll asks only for the histories of its auctions. -/
theorem Falling.of_accepted {p : ClosePoll} (hp : Falling s p)
    (hobj : ∀ b ∈ p.todo.head?, (∃ obj, p.pc = .flush obj ∨ p.pc = .hset obj) →
      t.accepted b.1 = s.accepted b.1)
    (hdirty : ∀ b ∈ p.dirty, t.accepted b.1 = s.accepted b.1) : Falling t p where
  flush := fun obj hpc b hb => by
    rw [hobj b hb ⟨obj, Or.inl hpc⟩]
    exact hp.flush obj hpc b hb
  hset := fun obj hpc b hb => by
    rw [hobj b hb ⟨obj, Or.inr hpc⟩]
    exact hp.hset obj hpc b hb
  dirty := fun b hb => by
    rw [hdirty b hb]
    exact hp.dirty b hb

/-- **The close poll**, step after step. -/
theorem falling_step (hs : HammerInv s) (h : SysStep s act t) (hok : Sane s act) {p : ClosePoll}
    (hp : t.closes = some p) : Falling t p := by
  have htime := inTime_of_sane hs h hok
  have hinv := hs.settlement.auctions
  have hdone : ∀ {q}, s.closes = some q → ∀ b ∈ q.dirty, t.accepted b.1 = s.accepted b.1 := by
    intro q hq b hb
    obtain ⟨row, hrow, hstate, -⟩ := (hinv.closes q hq).dirty b hb
    exact accepted_of_done (hs.settlement.dirty q hq b hb) hinv h (not_loseHash htime _) hrow
      (by rw [hstate]; simp)
  by_cases hact : ∃ fault, act = .closeStep fault
  · -- the poll itself accepts nothing
    obtain ⟨fault, hact⟩ := hact
    have hlog : ∀ a, t.accepted a = s.accepted a := accepted_of_closeStep h hact
    have hfalling : Falling s p := by
      refine hinv.closesHold h hs.polls ?_ ?_ ?_ hp
      · rintro a row rest b ⟨⟩ hbid hwinner hreserve
        exact hammered_of_close (hs.settlement.history a) (fun e he => hs.isCents he) hbid hwinner
          hreserve
      · intro a row rest obj obj' hrow hstate hfalls hflush
        obtain ⟨hbid, hwinner⟩ := (hinv.rows a row hrow).unclosed (Or.inr hstate)
        obtain ⟨obj'', hsettle, hhammered⟩ :=
          hfalls (a, row) rfl hbid hwinner (hs.states.reserve a row hrow) _ obj' hflush
        constructor
        · intro hraise
          cases hraise.symm.trans hsettle
        · rintro obj₂ hsettle₂ b ⟨⟩
          obtain rfl := Option.some.inj (hsettle.symm.trans hsettle₂)
          exact hhammered
      · intro a row rest obj hhammered
        exact hhammered (a, row) rfl
    exact hfalling.of_accepted (fun b _ _ => hlog b.1) (fun b _ => hlog b.1)
  · cases h.closePoll with
    | kept _ hnot poll =>
      rw [poll] at hp
      refine (hs.polls p hp).of_accepted ?_ (hdone hp)
      rintro b hb ⟨obj, hpc⟩
      exact (kept_of_closing hs.settlement h htime hnot hp hb hpc).2
    | selected _ _ _ poll =>
      rw [poll] at hp
      cases hp
      exact ⟨(fun _ hpc => by cases hpc), (fun _ hpc => by cases hpc), fun _ hb => by cases hb⟩
    | @closed fault _ _ _ _ hact' => exact absurd ⟨fault, hact'⟩ hact
    | gone poll => rw [poll] at hp; cases hp

theorem rows_hammered_step (hs : HammerInv s) (h : SysStep s act t) (hok : Sane s act) {a : Uuid}
    {row : Auction} (hrow : t.pg.auction a = some row) (hupcoming : row.state ≠ .upcoming)
    (hactive : row.state ≠ .active) : Hammered (t.accepted a) row := by
  have hlost := not_loseHash (inTime_of_sane hs h hok) a
  have hinv := hs.settlement.auctions
  rcases ((h.row a).change hinv).of_closed hrow hupcoming hactive with
    hold | ⟨row₀, p, -, hrow₀, hstate, src, hmem⟩
  · rw [accepted_of_done (hs.settlement.closed a row hold hupcoming hactive) hinv h hlost hold hupcoming]
    exact hs.rows a row hold hupcoming hactive
  · rw [accepted_of_done (hs.settlement.dirty p src _ hmem) hinv h hlost hrow₀ (by rw [hstate]; simp)]
    exact (hs.polls p src).dirty _ hmem

/-- **A sane step** keeps the invariant. -/
theorem hammerInv_step (hs : HammerInv s) (hstep : step s act = some t) (hok : Sane s act) :
    HammerInv t where
  states := statesInv_step hs.states hstep hok.proper
  settlement := settlementInv_step hs.settlement hstep (inTime_of_sane hs (step_cases hstep) hok)
  created := fun _ _ hc => increment_created_step hs (step_cases hstep) hok hc
  increment := fun _ _ hrow => increment_step hs (step_cases hstep) hrow
  opened := fun _ _ hh => opened_step hs (step_cases hstep) hh
  polls := fun _ hp => falling_step hs (step_cases hstep) hok hp
  rows := fun _ _ hrow hupcoming hactive =>
    rows_hammered_step hs (step_cases hstep) hok hrow hupcoming hactive

end Step

theorem hammerInv_initial (now : ℤ) (users : List Uuid) : HammerInv (.initial now users) := by
  refine ⟨statesInv_initial now users, ?_, ?_, ?_, ?_, ?_, ?_⟩
  · refine ⟨historyInv_initial now users, ?_, ?_, fun _ _ => rfl, ?_, ?_, ?_, ?_⟩ <;>
      simp [Sys.initial]
  all_goals simp [Sys.initial, Redis.empty]

theorem hammerInv_of_reach {now : ℤ} {users : List Uuid} {s : Sys}
    (hrun : Reach step (fun s act _ => Sane s act) (.initial now users) s) : HammerInv s :=
  hrun.invariant (fun hs hstep hok => hammerInv_step hs hstep hok) (hammerInv_initial now users)

end OnlineAuction.System
