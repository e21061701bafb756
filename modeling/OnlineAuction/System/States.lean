import OnlineAuction.Lifecycle.Retry
import OnlineAuction.System.BidTable
import OnlineAuction.System.Outcomes
import OnlineAuction.System.Settlement

/-!
# The lifecycle of an auction

`start_auction` and `close_auction` assign the state whatever it was; that an auction goes through
its lifecycle in order is left to the selects of the polls, and that a close ends as `SOLD` or
`UNSOLD` to its flush and its settlement. With existing bidders and amounts in cents neither of the
two raises.

## What is proved

* `close_sound` — a close of a sound hash is flushed and settled, and sells for the reserve at
  least.
* `statesInv_step` — what a step of a proper run preserves (`StatesInv`).
* `lifecycle_states` — in every such run a row moves along the lifecycle, is sold exactly with a
  winner, and has its state in its hash whenever no poll runs.
-/

namespace OnlineAuction.System

open OnlineAuction.Foundation OnlineAuction.Store OnlineAuction.Lifecycle OnlineAuction.Bidding

/-! ### Sound closes -/

/-- A sold row has a highest bid not below its reserve. -/
def ReserveMet (row : Auction) : Prop :=
  row.state = .sold → ∀ reserve, row.reservePrice = some reserve →
    ∃ bid, row.highestBid = some bid ∧ reserve.value ≤ bid.value

/-- The leader of the hash is a user, and leads with cents that fit the column. -/
def SoundHash (users : List Uuid) (h : AuctionHash) : Prop :=
  ∀ b, h.highestBidder = some (some b) →
    b ∈ users ∧ ∃ c : ℤ, 0 ≤ c ∧ c < 10 ^ 12 ∧ h.highestBid = some (.dec c)

/-- A reserve that the nearest float reaches is reached exactly. -/
theorem le_of_le_double {r c : ℤ} (h₀ : 0 ≤ c) (h : c < 10 ^ 12)
    (hle : (r / 100 : ℚ) ≤ double (c / 100)) : (r / 100 : ℚ) ≤ c / 100 := by
  have hnear := (abs_lt.mp (cents_near (abs_lt.mpr ⟨by linarith, h⟩))).2
  have hlt : (r : ℚ) < c + 1 := by linarith
  have hint : r ≤ c := Int.lt_add_one_iff.mp (by exact_mod_cast hlt)
  have : (r : ℚ) ≤ c := by exact_mod_cast hint
  linarith

/-- A closed object with a bid in cents is settled, and sold for its reserve at least. -/
theorem settle_cents {obj : AuctionObj} {c : ℤ} {hfits : |c| < 10 ^ 12} (h₀ : 0 ≤ c)
    (hclosed : obj.row.state = .closed) (hstored : obj.row.highestBid = some (.dec c hfits))
    (hbid : obj.highestBid = some (.float (.ofNumber (.fin (c / 100)))))
    (hreserve : obj.row.reservePrice ≠ some .nan) :
    ∃ obj', resolveSettlementInner obj = some obj' ∧ ReserveMet obj'.row := by
  unfold resolveSettlementInner
  rw [if_neg (not_not.mpr hclosed), hbid]
  cases obj.row.winnerId with
  | none => exact ⟨_, rfl, fun hsold => by cases hsold⟩
  | some b =>
    cases hr : obj.row.reservePrice with
    | none =>
      refine ⟨_, rfl, ?_⟩
      intro _ reserve hsome
      cases hr.symm.trans hsome
    | some reserve =>
      cases reserve with
      | nan => exact absurd hr hreserve
      | dec r hrfits =>
        have hnumbers : ¬ ((PyValue.float (.ofNumber (.fin (c / 100)))).value = .nan ∨
            (Numeric.dec r hrfits).value = .nan) := by
          rintro (h | h) <;> cases h
        simp only [if_neg hnumbers]
        split_ifs with hle
        · refine ⟨_, rfl, ?_⟩
          intro _ reserve hsome
          obtain rfl := Option.some.inj (hr.symm.trans hsome)
          exact ⟨_, hstored, Number.fin_le_fin.mpr
            (le_of_le_double h₀ (abs_lt.mp hfits).2 (Number.fin_le_fin.mp hle))⟩
        · exact ⟨_, rfl, fun hsold => by cases hsold⟩

/-- **A close of a sound hash** does not raise, and sells for the reserve at least. -/
theorem close_sound {users : List Uuid} {data : Option AuctionHash} {row : Auction}
    (hdata : ∀ h, data = some h → SoundHash users h) (hwinner : row.winnerId = none)
    (hreserve : row.reservePrice ≠ some .nan) :
    ∃ obj obj', flushAuction users (assignWinner data row) = some obj ∧
      resolveSettlementInner obj = some obj' ∧ ReserveMet obj'.row := by
  by_cases hlead : HasLeader data
  · obtain ⟨h, b, rfl, hb⟩ := hlead
    obtain ⟨hmem, c, h₀, hlt, hc⟩ := hdata h rfl b hb
    have hfits : |c| < 10 ^ 12 := abs_lt.mpr ⟨by linarith, hlt⟩
    let obj : AuctionObj :=
      ⟨{ row with state := .closed, winnerId := some b, highestBid := some (.dec c hfits) },
        some (.float (.ofNumber (.fin (c / 100))))⟩
    have hflush : flushAuction users (assignWinner (some h) row) = some obj := by
      rw [assignWinner_leader hb, hc, flushAuction]
      simp only [Option.all_some, hmem, decide_true, if_true, Option.getD_some, PyValue.value]
      show Option.map _ (Numeric.ofNumber (.fin (double (c / 100)))) = _
      rw [numeric_cents hfits]
      rfl
    obtain ⟨obj', hsettle, hmet⟩ := @settle_cents obj c hfits h₀ rfl rfl rfl hreserve
    exact ⟨_, obj', hflush, hsettle, hmet⟩
  · have hassign := assignWinner_nobody (fun h b hd hb => hlead ⟨h, b, hd, hb⟩) row
    refine ⟨_, _, ?_, @settle_nobody { row with state := .closed } rfl hwinner, ?_⟩
    · rw [hassign]
      exact flushAuction_load (by rw [hwinner]; rfl)
    · intro hsold
      cases hsold

/-! ### Proper runs -/

/-- A proper step: nothing fails, bids are those of users in whole cents, and a reserve is a
number. -/
def proper (s : Sys) (act : Act) : Bool :=
  act.faultless && match act with
  | .create _ _ data => data.reservePrice.all (·.val ≠ .nan)
  | .bid _ _ bidderId data => bidderId ∈ s.pg.users ∧ wholeCents data.amount
  | _ => true

/-- The hash of the auction is there and has the state. -/
def HashIs (s : Sys) (a : Uuid) (state : AuctionState) : Prop :=
  ∃ h, s.redis.hash a = some h ∧ h.state = some state

/-- The row is decided, and met its reserve if it is sold. -/
def Final (row : Auction) : Prop := Decided row ∧ ReserveMet row

/-- What proper runs keep. -/
structure StatesInv (s : Sys) : Prop where
  /-- The auctions before their start. -/
  before : OpeningInv s
  /-- What a close makes of rows. -/
  outcomes : OutcomesInv s
  /-- Bids are those of users in whole cents. -/
  bids : ∀ b c, s.bids b = some c → c.bidderId ∈ s.pg.users ∧ wholeCents c.data.amount = true
  /-- The reserve of a new row is a number. -/
  created : ∀ a c, s.creates a = some c → c.row.reservePrice ≠ some .nan
  /-- So is that of a committed row. -/
  reserve : ∀ a row, s.pg.auction a = some row → row.reservePrice ≠ some .nan
  /-- The hashes are sound. -/
  hashes : ∀ a h, s.redis.hash a = some h → SoundHash s.pg.users h
  /-- The object to be flushed is assigned from a sound hash. -/
  flush : ∀ p obj, s.closes = some p → p.pc = .flush obj → ∀ b ∈ p.todo.head?,
    ∃ data, (∀ h, data = some h → SoundHash s.pg.users h) ∧ obj = assignWinner data b.2
  /-- The object whose state goes to the hash has met its reserve. -/
  hset : ∀ p obj, s.closes = some p → p.pc = .hset obj → ReserveMet obj.row
  /-- A new active row has its hash. -/
  pending : ∀ a row, s.creates a = some ⟨row, .commit⟩ → row.state = .active → HashIs s a .active
  /-- So has an auction that the start poll has started. -/
  starts : ∀ p, s.starts = some p → ∀ b ∈ p.dirty, HashIs s b.1 .active
  /-- An auction that the close poll has closed is final, and its hash says so. -/
  dirty : ∀ p, s.closes = some p → ∀ b ∈ p.dirty, Final b.2 ∧ HashIs s b.1 b.2.state
  /-- The hash of an active row is active until the poll has closed it. -/
  active : ∀ a row, s.pg.auction a = some row → row.state = .active →
    (∀ p, s.closes = some p → a ∉ p.dirty.map Prod.fst) → HashIs s a .active
  /-- A closed row is final, and its hash says so. -/
  closed : ∀ a row, s.pg.auction a = some row → row.state ≠ .upcoming → row.state ≠ .active →
    Final row ∧ HashIs s a row.state

theorem proper_faultless {s : Sys} {act : Act} (h : proper s act = true) : act.faultless = true :=
  (Bool.and_eq_true _ _ ▸ h).1

theorem SoundHash.users {users users' : List Uuid} {h : AuctionHash} (hh : SoundHash users h)
    (husers : users ⊆ users') : SoundHash users' h :=
  fun b hb => ⟨husers (hh b hb).1, (hh b hb).2⟩

/-- The poll writes the state of the object at hand to its hash. -/
def Shuts (s : Sys) (act : Act) (a : Uuid) (obj : AuctionObj) : Prop :=
  ∃ p row rest, act = .closeStep false ∧ s.closes = some p ∧ p.pc = .hset obj ∧
    p.todo = (a, row) :: rest

section Step

variable {s t : Sys} {act : Act}

/-- An auction that is shut is committed and active. -/
theorem row_of_shuts (hinv : AuctionsInv s) {a : Uuid} {obj : AuctionObj} (h : Shuts s act a obj) :
    ∃ row, s.pg.auction a = some row ∧ row.state = .active := by
  obtain ⟨p, row, rest, -, hp, -, htodo⟩ := h
  exact ⟨row, hinv.row_of_closes hp htodo⟩

/-- **The state of a hash** stays in a step that fails nowhere, opens no closed auction and does
not shut the hash. -/
theorem HashIs.step (hinv : AuctionsInv s) (h : SysStep s act t) (hok : act.faultless = true)
    {a : Uuid} {state : AuctionState} (his : HashIs s a state)
    (hopen : state = .active ∨ ∃ row, s.pg.auction a = some row ∧ row.state ≠ .upcoming)
    (hshut : ∀ obj, ¬ Shuts s act a obj) : HashIs t a state := by
  obtain ⟨h₀, hh₀, hstate⟩ := his
  cases h.hash a with
  | kept hash => exact ⟨h₀, hash.trans hh₀, hstate⟩
  | opened _ src hash =>
    rcases hopen with rfl | ⟨row, hrow, -⟩
    · exact ⟨_, hash, rfl⟩
    · cases (hinv.pending a _ src (by simp)).1.symm.trans hrow
  | started _ src hash =>
    rcases hopen with rfl | ⟨row, hrow, hne⟩
    · exact ⟨_, hash, rfl⟩
    · obtain ⟨hrow', hupcoming⟩ := hinv.row_of_starts src
      obtain rfl := Option.some.inj (hrow.symm.trans hrow')
      exact absurd hupcoming hne
  | booked _ _ _ _ _ hfound _ hash =>
    obtain rfl := Option.some.inj (hh₀.symm.trans hfound)
    exact ⟨_, hash, hstate⟩
  | @closed p obj row rest fault hact src hpc htodo =>
    have hfault : fault = false := by simpa [hact, Act.faultless] using hok
    exact absurd ⟨p, row, rest, hfault ▸ hact, src, hpc, htodo⟩ (hshut obj)
  | lost hact => rw [hact] at hok; cases hok

theorem soundHash_step (hs : StatesInv s) (h : SysStep s act t) {a : Uuid} {h' : AuctionHash}
    (hh : t.redis.hash a = some h') : SoundHash t.pg.users h' := by
  cases h.hash a with
  | kept hash => exact (hs.hashes a h' (hash ▸ hh)).users h.users
  | opened _ _ hash | started _ _ hash =>
    rw [hash] at hh
    cases hh
    intro b hb
    cases hb
  | @booked b c endTs h₀ _ src _ _ _ _ _ hash =>
    rw [hash] at hh
    cases hh
    rintro b ⟨⟩
    obtain ⟨hmem, hcents⟩ := hs.bids _ c src
    obtain ⟨n, hfits, hpos, hprint, -⟩ := wholeCents_spec hcents
    exact ⟨h.users hmem, n, hpos.le, (abs_lt.mp hfits).2, congrArg some hprint⟩
  | closed _ _ _ _ hash =>
    rw [hash] at hh
    cases hh
    cases hold : s.redis.hash a with
    | none => intro b hb; cases hb
    | some h₀ => exact (hs.hashes a h₀ hold).users h.users
  | lost _ hash => rw [hash] at hh; cases hh

theorem bids_step (hs : StatesInv s) (h : SysStep s act t) (hok : proper s act = true) {b : Uuid}
    {c : Call} (hc : t.bids b = some c) :
    c.bidderId ∈ t.pg.users ∧ wholeCents c.data.amount = true := by
  cases h.bid b with
  | kept call =>
    obtain ⟨hmem, hcents⟩ := hs.bids b c (call ▸ hc)
    exact ⟨h.users hmem, hcents⟩
  | called hact _ _ call =>
    obtain rfl := Option.some.inj (call.symm.trans hc)
    rw [hact, proper, Bool.and_eq_true] at hok
    obtain ⟨hmem, hcents⟩ := of_decide_eq_true hok.2
    exact ⟨h.users hmem, hcents⟩
  | moved _ src _ _ call | crashed _ src _ call =>
    obtain rfl := Option.some.inj (call.symm.trans hc)
    obtain ⟨hmem, hcents⟩ := hs.bids b _ src
    exact ⟨h.users hmem, hcents⟩

theorem created_step (hs : StatesInv s) (h : SysStep s act t) (hok : proper s act = true) {a : Uuid}
    {c : Create} (hc : t.creates a = some c) : c.row.reservePrice ≠ some .nan := by
  cases h.creation a with
  | kept _ create => exact hs.created a c (create ▸ hc)
  | created hact _ hrow _ _ _ create =>
    obtain rfl := Option.some.inj (create.symm.trans hc)
    rw [hact, proper, Bool.and_eq_true] at hok
    intro hnan
    rw [createAuction_reserve hrow, Option.bind_eq_some_iff] at hnan
    obtain ⟨r, hr, hd⟩ := hnan
    have hnumber := hok.2
    rw [hr, Option.all_some, decide_eq_true_eq] at hnumber
    exact hnumber (Numeric.ofNumber_nan hd)
  | opened _ src _ create =>
    obtain rfl := Option.some.inj (create.symm.trans hc)
    exact (hs.created a _ src :)
  | ended src create =>
    obtain rfl := Option.some.inj (create.symm.trans hc)
    exact (hs.created a _ src :)

theorem reserve_step (hs : StatesInv s) (h : SysStep s act t) {a : Uuid} {row : Auction}
    (hrow : t.pg.auction a = some row) : row.reservePrice ≠ some .nan := by
  cases (h.row a).change hs.before.auctions with
  | kept heq => exact hs.reserve a row (heq ▸ hrow)
  | stored _ _ src _ heq =>
    obtain rfl := Option.some.inj (heq.symm.trans hrow)
    exact (hs.created a _ src :)
  | started _ hrow₀ _ heq =>
    obtain rfl := Option.some.inj (heq.symm.trans hrow)
    exact (hs.reserve a _ hrow₀ :)
  | closed _ hrow₀ _ hclosing heq =>
    obtain rfl := Option.some.inj (heq.symm.trans hrow)
    rw [hclosing.same]
    exact (hs.reserve a _ hrow₀ :)

/-! ### The polls -/

/-- The flush and the settlement of the object at hand do not raise. -/
theorem flush_sound (hs : StatesInv s) {p : ClosePoll} {obj : AuctionObj} {a : Uuid} {row : Auction}
    {rest : List (Uuid × Auction)} (hp : s.closes = some p) (hpc : p.pc = .flush obj)
    (htodo : p.todo = (a, row) :: rest) :
    ∃ obj' obj'', flushAuction s.pg.users obj = some obj' ∧
      resolveSettlementInner obj' = some obj'' ∧ ReserveMet obj''.row := by
  have hinv := hs.before.auctions
  obtain ⟨hrow, hactive⟩ := hinv.row_of_closes hp htodo
  obtain ⟨data, hdata, rfl⟩ := hs.flush p obj hp hpc (a, row) (by rw [htodo]; rfl)
  exact close_sound hdata ((hinv.rows a row hrow).unclosed (Or.inr hactive)).2
    (hs.reserve a row hrow)

/-- The close poll goes on until it has committed. -/
theorem closes_survive (hs : StatesInv s) (h : SysStep s act t) (hok : act.faultless = true)
    {fault : Bool} (hact : act = .closeStep fault) : t.closes ≠ none := by
  subst hact
  have hfault : fault = false := by simpa [Act.faultless] using hok
  subst hfault
  cases h with
  | closed hp htodo hstep hmove =>
    cases hmove with
    | refused hpc =>
      obtain ⟨obj', obj'', hflush, hsettle, -⟩ := flush_sound hs hp hpc htodo
      simp [Lifecycle.closeStep, htodo, hpc, hflush, hsettle] at hstep
    | _ => simp

/-- What the poll has closed stays in the session until it is in the table. -/
theorem dirty_after (hs : StatesInv s) (h : SysStep s act t) (hok : act.faultless = true)
    {p : ClosePoll} (hp : s.closes = some p) {b : Uuid × Auction} (hb : b ∈ p.dirty) :
    (∃ p', t.closes = some p' ∧ b ∈ p'.dirty) ∨ t.pg.auction b.1 = some b.2 := by
  have hsurvive : ∀ fault, act = .closeStep fault → t.closes ≠ none :=
    fun _ hact => closes_survive hs h hok hact
  cases h with
  | closeSelected hidle => rw [hidle] at hp; cases hp
  | closed hp' htodo hstep hmove =>
    obtain rfl := Option.some.inj (hp.symm.trans hp')
    left
    cases hmove with
    | refused => exact absurd rfl (hsurvive _ rfl)
    | skipped | extended | unsettled | closed | unclosed =>
      exact ⟨_, rfl, List.mem_append_left _ hb⟩
    | checked | assigned | settled => exact ⟨_, rfl, hb⟩
  | @closeEnded fault nowUtc pc dirty hp' =>
    obtain rfl := Option.some.inj (hp.symm.trans hp')
    have hfault : fault = false := by simpa [Act.faultless] using hok
    subst hfault
    right
    exact Pg.setRows_of_mem (by simpa using (hs.before.auctions.closes _ hp).nodup) hb _
  | crashed => cases hok
  | _ => exact Or.inl ⟨p, hp, hb⟩

/-- **The object at hand** is assigned from a sound hash, and has met its reserve once it is
settled. -/
theorem objects_step (hs : StatesInv s) (h : SysStep s act t) {p : ClosePoll}
    (hp : t.closes = some p) :
    ClosesHold (fun todo obj => ∀ b ∈ todo.head?, ∃ data,
      (∀ h, data = some h → SoundHash s.pg.users h) ∧ obj = assignWinner data b.2)
      (fun _ obj => ReserveMet obj.row) (fun b => ReserveMet b.2) p := by
  have hinv := hs.before.auctions
  refine hinv.closesHold h ?_ ?_ ?_ (fun _ _ _ _ hmet => hmet) hp
  · intro q hq
    exact ⟨fun obj hpc => hs.flush q obj hq hpc, fun obj hpc => hs.hset q obj hq hpc,
      fun b hb => (hs.dirty q hq b hb).1.2⟩
  · rintro a row rest b ⟨⟩
    exact ⟨_, fun h' hh => hs.hashes a h' hh, rfl⟩
  · intro a row rest obj obj' hrow hactive hobj hflush
    obtain ⟨data, hdata, rfl⟩ := hobj (a, row) rfl
    obtain ⟨obj₁, obj₂, hflush₁, hsettle₁, hmet⟩ := close_sound hdata
      ((hinv.rows a row hrow).unclosed (Or.inr hactive)).2 (hs.reserve a row hrow)
    obtain rfl := Option.some.inj (hflush.symm.trans hflush₁)
    constructor
    · intro hraise
      cases hraise.symm.trans hsettle₁
    · intro obj'' hsettle
      exact Option.some.inj (hsettle.symm.trans hsettle₁) ▸ hmet

theorem final_step (hs : StatesInv s) (h : SysStep s act t) (hok : act.faultless = true)
    {p : ClosePoll} (hp : t.closes = some p) {b : Uuid × Auction} (hb : b ∈ p.dirty) :
    Final b.2 ∧ HashIs t b.1 b.2.state := by
  have hinv := hs.before.auctions
  have hold : ∀ {q}, s.closes = some q → b ∈ q.dirty → Final b.2 ∧ HashIs t b.1 b.2.state := by
    intro q hq hb
    obtain ⟨row, hrow, hactive, -⟩ := (hinv.closes q hq).dirty b hb
    obtain ⟨hfinal, his⟩ := hs.dirty q hq b hb
    refine ⟨hfinal, his.step hinv h hok (Or.inr ⟨row, hrow, by rw [hactive]; simp⟩) ?_⟩
    -- the auction at hand is not closed yet
    rintro obj ⟨p', row', rest, -, hp', -, htodo⟩
    obtain rfl := Option.some.inj (hq.symm.trans hp')
    exact ClosePoll.ne_head htodo (hinv.closes q hq).nodup (List.mem_append_right _ hb) rfl
  cases h.closePoll with
  | kept _ _ poll => exact hold (poll ▸ hp) hb
  | selected _ _ _ poll => rw [poll] at hp; cases hp; cases hb
  | @closed fault q a row rest hact src htodo hmove =>
    have hfault : fault = false := by simpa [hact, Act.faultless] using hok
    rw [hp] at hmove
    generalize hr : t.redis = r at hmove
    cases hmove with
    | skipped hfault' => rw [hfault] at hfault'; cases hfault'
    | unclosed hfault' => rw [hfault] at hfault'; cases hfault'
    | checked | assigned | settled => exact hold src hb
    | extended _ hext => cases (hinv.not_moved src htodo).symm.trans hext
    | unsettled hpc hflush hraise =>
      obtain ⟨obj', obj'', hflush', hsettle, -⟩ := flush_sound hs src hpc htodo
      obtain rfl := Option.some.inj (hflush.symm.trans hflush')
      cases hraise.symm.trans hsettle
    | @closed obj hpc =>
      rcases List.mem_append.mp hb with hb | hb
      · exact hold src hb
      · rw [List.mem_singleton.mp hb]
        refine ⟨⟨hs.outcomes.hset q obj src hpc, hs.hset q obj src hpc⟩, ?_⟩
        rw [HashIs, hr]
        exact ⟨_, Redis.hset_hash_self _ _ _, rfl⟩
  | gone poll => rw [poll] at hp; cases hp

theorem pendingActive_step (hs : StatesInv s) (h : SysStep s act t) (hok : act.faultless = true)
    {a : Uuid} {row : Auction} (hc : t.creates a = some ⟨row, .commit⟩)
    (hstate : row.state = .active) :
    HashIs t a .active := by
  have hinv := hs.before.auctions
  cases h.creation a with
  | kept _ create =>
    rw [create] at hc
    refine (hs.pending a row hc hstate).step hinv h hok (Or.inl rfl) ?_
    intro obj hshuts
    obtain ⟨row', hrow', -⟩ := row_of_shuts hinv hshuts
    cases (hinv.pending a _ hc (by simp)).1.symm.trans hrow'
  | created _ _ _ _ _ _ create =>
    rw [create, Option.some.injEq, Create.mk.injEq] at hc
    obtain ⟨rfl, hpc⟩ := hc
    rw [if_pos hstate] at hpc
    cases hpc
  | opened _ _ hash => exact ⟨_, hash, rfl⟩
  | ended _ create => rw [create] at hc; cases hc

theorem startsActive_step (hs : StatesInv s) (h : SysStep s act t) (hok : act.faultless = true)
    {p : StartPoll} (hp : t.starts = some p) {b : Uuid × Auction} (hb : b ∈ p.dirty) :
    HashIs t b.1 .active := by
  have hinv := hs.before.auctions
  have hold : ∀ {q}, s.starts = some q → b ∈ q.dirty → HashIs t b.1 .active := by
    intro q hq hb
    obtain ⟨row, hrow, hupcoming, -⟩ := (hinv.starts q hq).dirty b hb
    refine (hs.starts q hq b hb).step hinv h hok (Or.inl rfl) ?_
    intro obj hshuts
    obtain ⟨row', hrow', hactive⟩ := row_of_shuts hinv hshuts
    obtain rfl := Option.some.inj (hrow.symm.trans hrow')
    cases hupcoming.symm.trans hactive
  cases h.startPoll with
  | kept _ poll => exact hold (poll ▸ hp) hb
  | selected _ _ _ poll => rw [poll] at hp; cases hp; cases hb
  | @started fault a row rest dirty hact src poll =>
    rw [poll, Option.some.injEq] at hp
    subst hp
    rcases List.mem_append.mp hb with hb | hb
    · exact hold src hb
    · rw [List.mem_singleton.mp hb]
      have hfault : fault = false := by simpa [hact, Act.faultless] using hok
      subst hfault
      subst hact
      cases h with
      | started hp' =>
        cases src.symm.trans hp'
        exact ⟨_, Redis.hset_hash_self _ _ _, rfl⟩
  | gone _ poll => rw [poll] at hp; cases hp

theorem activeHash_step (hs : StatesInv s) (h : SysStep s act t) (hok : act.faultless = true)
    {a : Uuid} {row : Auction} (hrow : t.pg.auction a = some row) (hstate : row.state = .active)
    (hclean : ∀ p, t.closes = some p → a ∉ p.dirty.map Prod.fst) : HashIs t a .active := by
  have hinv := hs.before.auctions
  cases h.row a with
  | kept heq =>
    rw [heq] at hrow
    have hclean' : ∀ p, s.closes = some p → a ∉ p.dirty.map Prod.fst := by
      intro p hp hmem
      obtain ⟨b, hb, rfl⟩ := List.mem_map.mp hmem
      rcases dirty_after hs h hok hp hb with ⟨p', hp', hb'⟩ | hrow'
      · exact hclean p' hp' (List.mem_map_of_mem hb')
      · obtain ⟨row₀, -, -, hclosing⟩ := (hinv.closes p hp).dirty b hb
        rw [heq, hrow, Option.some.injEq] at hrow'
        exact hclosing.state.2 (hrow' ▸ hstate)
    refine (hs.active a row hrow hstate hclean').step hinv h hok (Or.inl rfl) ?_
    -- an auction that is shut is closed in the session
    rintro obj ⟨p, row', rest, hact, hp, hpc, htodo⟩
    subst hact
    cases h with
    | closed hp' htodo' _ hmove =>
      obtain rfl := Option.some.inj (hp.symm.trans hp')
      cases htodo.symm.trans htodo'
      have hne : ∀ {pc}, p.pc = pc → pc = .hset obj := fun h => h.symm.trans hpc
      cases hmove with
      | closed | unclosed => exact hclean _ rfl (by simp [ClosePoll.next])
      | skipped _ hpc' => rcases hpc' with hpc' | hpc' <;> cases hne hpc'
      | extended hpc' | checked hpc' | assigned hpc' | refused hpc' | unsettled hpc' | settled hpc' =>
        cases hne hpc'
  | stored hact src heq =>
    obtain rfl := Option.some.inj (heq.symm.trans hrow)
    refine (hs.pending a _ src hstate).step hinv h hok (Or.inl rfl) ?_
    rintro obj ⟨p, row', rest, hact', -⟩
    rw [hact] at hact'
    cases hact'
  | started hact src hmem =>
    obtain ⟨b, hb, rfl⟩ := List.mem_map.mp hmem
    refine (hs.starts _ src b hb).step hinv h hok (Or.inl rfl) ?_
    rintro obj ⟨p, row', rest, hact', -⟩
    rw [hact] at hact'
    cases hact'
  | closed hact src hmem heq =>
    obtain ⟨b, hb, rfl⟩ := List.mem_map.mp hmem
    obtain ⟨row₀, -, -, hclosing⟩ := (hinv.closes _ src).dirty b hb
    rw [heq, Pg.setRows_of_mem (by simpa using (hinv.closes _ src).nodup) hb,
      Option.some.injEq] at hrow
    exact absurd (hrow ▸ hstate) hclosing.state.2

theorem closedFinal_step (hs : StatesInv s) (h : SysStep s act t) (hok : act.faultless = true)
    {a : Uuid} {row : Auction} (hrow : t.pg.auction a = some row) (hupcoming : row.state ≠ .upcoming)
    (hactive : row.state ≠ .active) : Final row ∧ HashIs t a row.state := by
  have hinv := hs.before.auctions
  rcases ((h.row a).change hinv).of_closed hrow hupcoming hactive with
    hold | ⟨row₀, p, hact, hrow₀, hstate₀, src, hmem⟩
  · obtain ⟨hfinal, his⟩ := hs.closed a row hold hupcoming hactive
    refine ⟨hfinal, his.step hinv h hok (Or.inr ⟨row, hold, hupcoming⟩) ?_⟩
    intro obj hshuts
    obtain ⟨row', hrow', hactive'⟩ := row_of_shuts hinv hshuts
    obtain rfl := Option.some.inj (hold.symm.trans hrow')
    exact hactive hactive'
  · obtain ⟨hfinal, his⟩ := hs.dirty _ src _ hmem
    refine ⟨hfinal, his.step hinv h hok (Or.inr ⟨_, hrow₀, by rw [hstate₀]; simp⟩) ?_⟩
    rintro obj ⟨p', row', rest, hact', -⟩
    rw [hact] at hact'
    cases hact'

/-- **A proper step** keeps the invariant. -/
theorem statesInv_step (hs : StatesInv s) (hstep : step s act = some t)
    (hok : proper s act = true) : StatesInv t where
  before := openingInv_step hs.before hstep (proper_faultless hok)
  outcomes := outcomesInv_step hs.before.auctions hs.outcomes (step_cases hstep)
  bids := fun _ _ hc => bids_step hs (step_cases hstep) hok hc
  created := fun _ _ hc => created_step hs (step_cases hstep) hok hc
  reserve := fun _ _ hrow => reserve_step hs (step_cases hstep) hrow
  hashes := fun _ _ hh => soundHash_step hs (step_cases hstep) hh
  flush := by
    intro p obj hp hpc b hb
    have h := step_cases hstep
    obtain ⟨data, hdata, hobj⟩ := (objects_step hs h hp).flush obj hpc b hb
    exact ⟨data, fun h' hh => (hdata h' hh).users h.users, hobj⟩
  hset := fun _ obj hp hpc => (objects_step hs (step_cases hstep) hp).hset obj hpc
  pending := fun _ _ hc hstate =>
    pendingActive_step hs (step_cases hstep) (proper_faultless hok) hc hstate
  starts := fun _ hp _ hb => startsActive_step hs (step_cases hstep) (proper_faultless hok) hp hb
  dirty := fun _ hp _ hb => final_step hs (step_cases hstep) (proper_faultless hok) hp hb
  active := fun _ _ hrow hstate hclean =>
    activeHash_step hs (step_cases hstep) (proper_faultless hok) hrow hstate hclean
  closed := fun _ _ hrow hupcoming hactive =>
    closedFinal_step hs (step_cases hstep) (proper_faultless hok) hrow hupcoming hactive

end Step

/-! ### Every run -/

theorem statesInv_initial (now : ℤ) (users : List Uuid) : StatesInv (.initial now users) := by
  refine ⟨openingInv_initial now users, outcomesInv_initial now users, ?_, ?_, ?_, ?_, ?_, ?_, ?_,
    ?_, ?_, ?_, ?_⟩ <;> simp [Sys.initial, Redis.empty]

/-- The moves of a row along the lifecycle, `none` before it is there. -/
inductive Edge : Option AuctionState → Option AuctionState → Prop where
  /-- It stays. -/
  | kept {state : Option AuctionState} : Edge state state
  /-- It appears, waiting or active. -/
  | created {state : AuctionState} (h : state = .upcoming ∨ state = .active) : Edge none (some state)
  /-- It is started. -/
  | started : Edge (some .upcoming) (some .active)
  /-- It is closed. -/
  | closed {state : AuctionState} (h : state = .sold ∨ state = .unsold) :
    Edge (some .active) (some state)

/-- **A proper step** moves every row along the lifecycle. -/
theorem edge_step {s t : Sys} {act : Act} (hs : StatesInv s) (hstep : step s act = some t)
    (a : Uuid) : Edge ((s.pg.auction a).map (·.state)) ((t.pg.auction a).map (·.state)) := by
  cases ((step_cases hstep).row a).change hs.before.auctions with
  | kept heq => rw [heq]; exact .kept
  | stored _ hnone _ hnew heq => rw [hnone, heq]; exact .created hnew.state
  | started _ hrow hstate heq =>
    rw [hrow, heq, Option.map_some, Option.map_some, hstate]
    exact .started
  | closed _ hrow hstate _ heq src hmem =>
    rw [hrow, heq, Option.map_some, Option.map_some, hstate]
    exact .closed ((hs.dirty _ src _ hmem).1.1.imp And.left And.left)

/-- What the row of an auction carries in each state. -/
structure InLifecycle (row : Auction) : Prop where
  /-- It is not left between its flush and its settlement. -/
  settled : row.state ≠ .closed
  /-- Until it is closed it has no bid and no winner. -/
  unclosed : row.state = .upcoming ∨ row.state = .active →
    row.highestBid = none ∧ row.winnerId = none
  /-- It has a winner exactly when it is sold. -/
  winner : row.winnerId ≠ none ↔ row.state = .sold
  /-- It is sold for its reserve at least. -/
  reserve : ReserveMet row

theorem StatesInv.row {s : Sys} (hs : StatesInv s) {a : Uuid} {row : Auction}
    (hrow : s.pg.auction a = some row) : InLifecycle row := by
  have hunclosed := (hs.before.auctions.rows a row hrow).unclosed
  by_cases hopen : row.state = .upcoming ∨ row.state = .active
  · have hwinner := (hunclosed hopen).2
    have hne : row.state ≠ .sold ∧ row.state ≠ .closed := by
      rcases hopen with h | h <;> simp [h]
    exact ⟨hne.2, hunclosed, iff_of_false (not_not.mpr hwinner) hne.1, fun h => absurd h hne.1⟩
  · obtain ⟨hupcoming, hactive⟩ := not_or.mp hopen
    obtain ⟨⟨hdecided, hmet⟩, -⟩ := hs.closed a row hrow hupcoming hactive
    rcases hdecided with ⟨hstate, hwinner⟩ | ⟨hstate, hwinner⟩
    · exact ⟨by rw [hstate]; simp, hunclosed, iff_of_true hwinner hstate, hmet⟩
    · exact ⟨by rw [hstate]; simp, hunclosed,
        iff_of_false (not_not.mpr hwinner) (by rw [hstate]; simp), hmet⟩

/-- **The lifecycle of an auction** in every proper run: its row moves along it and carries what
its state says, and its hash has that state whenever no poll runs. -/
theorem lifecycle_states {now : ℤ} {users : List Uuid} {s : Sys}
    (hrun : Reach step (fun s act _ => proper s act = true) (.initial now users) s) (a : Uuid) :
    (∀ {act t}, step s act = some t →
      Edge ((s.pg.auction a).map (·.state)) ((t.pg.auction a).map (·.state))) ∧
    (∀ row, s.pg.auction a = some row → InLifecycle row) ∧
    (s.starts = none → s.closes = none → ∀ row, s.pg.auction a = some row →
      row.state ≠ .upcoming → HashIs s a row.state) := by
  have hs : StatesInv s := hrun.invariant (fun hs hstep hok => statesInv_step hs hstep hok)
    (statesInv_initial now users)
  refine ⟨fun hstep => edge_step hs hstep a, fun row hrow => hs.row hrow, ?_⟩
  intro _ hidle row hrow hupcoming
  by_cases hactive : row.state = .active
  · rw [hactive]
    refine hs.active a row hrow hactive ?_
    intro p hp
    rw [hidle] at hp
    cases hp
  · exact (hs.closed a row hrow hupcoming hactive).2

/-- The camera goes through its lifecycle, and is sold. -/
theorem lifecycle_states_camera : ∃ s t : Sys, ∃ row,
    step s (.closeCommit false) = some t ∧
    Edge ((s.pg.auction 5).map (·.state)) ((t.pg.auction 5).map (·.state)) ∧
    t.pg.auction 5 = some row ∧ row.state = .sold ∧ InLifecycle row ∧ HashIs t 5 row.state := by
  obtain ⟨s, hs, hp⟩ := exists_reach step (fun s act _ => proper s act = true)
    (cameraBid (.ofNumber (.fin 25)) ++ [.tick 60000000, .closeSelect [(5, cameraRow)]] ++
      List.replicate 4 (.closeStep false))
    (s := .initial 1000000000 [1, 7])
    (p := fun s => proper s (.closeCommit false) = true ∧
      (step s (.closeCommit false)).any fun t => t.starts.isNone ∧ t.closes.isNone ∧
        (t.pg.auction 5).any (·.state = .sold)) (by decide +kernel)
  obtain ⟨hok, hp⟩ := of_decide_eq_true hp
  obtain ⟨t, hstep, hp⟩ := (Option.any_eq_true _ _).mp hp
  obtain ⟨hstarts, hcloses, hp⟩ := of_decide_eq_true hp
  obtain ⟨row, hrow, hsold⟩ := (Option.any_eq_true _ _).mp hp
  have hsold := of_decide_eq_true hsold
  obtain ⟨-, hrows, hhash⟩ := lifecycle_states (hs.trans (.single ⟨_, hstep, hok⟩)) 5
  exact ⟨s, t, row, hstep, (lifecycle_states hs 5).1 hstep, hrow, hsold, hrows row hrow,
    hhash (Option.isNone_iff_eq_none.mp hstarts) (Option.isNone_iff_eq_none.mp hcloses) row hrow
      (by rw [hsold]; simp)⟩

end OnlineAuction.System
