import OnlineAuction.Foundation.English
import OnlineAuction.System.Hammer

/-!
# The service is an auction house

What the service is for, apart from its stores: lots that are listed, opened, bid for and closed.
A lot is listed when its row is committed, opened when its hash is written, takes an offer when the
script accepts it, and is closed when its hash is shut.

## What is proved

* `shows_step` — every step of a sane run is a move of the lot it touches, or none.
* `house_refines` — every sane run is a run of an English auction house.
* `hammer_falls` — what follows for the rows: who gets an auction, for how much, and that this is
  final.

## Honest scope

A run is sane when nothing fails, bids are those of users in whole cents, and no bid is accepted
between the two commands of a close (`Sane`). Without the last a lot may be sold below its last bid.
-/

namespace OnlineAuction.System

open OnlineAuction.Foundation OnlineAuction.Store OnlineAuction.Lifecycle OnlineAuction.Bidding
  Relation

/-! ### What the stores show -/

/-- The terms of a row, in cents. -/
def termsOf (row : Auction) : Option (Terms ℤ) :=
  match row.minIncrement, row.reservePrice with
  | .dec m _, none => some ⟨m, none⟩
  | .dec m _, some (.dec r _) => some ⟨m, some r⟩
  | _, _ => none

theorem exists_terms {row : Auction} (hinc : row.minIncrement ≠ .nan)
    (hreserve : row.reservePrice ≠ some .nan) : ∃ terms, termsOf row = some terms := by
  unfold termsOf
  cases hm : row.minIncrement with
  | nan => exact absurd hm hinc
  | dec m hm =>
    cases hr : row.reservePrice with
    | none => exact ⟨_, rfl⟩
    | some r =>
      cases r with
      | nan => exact absurd hr hreserve
      | dec r hr => exact ⟨_, rfl⟩

theorem termsOf_increment {row : Auction} {terms : Terms ℤ} (h : termsOf row = some terms) :
    ∃ hfits, row.minIncrement = .dec terms.increment hfits := by
  unfold termsOf at h
  split at h
  · cases h; exact ⟨_, ‹_›⟩
  · cases h; exact ⟨_, ‹_›⟩
  · cases h

theorem termsOf_reserve {row : Auction} {terms : Terms ℤ} (h : termsOf row = some terms) :
    row.reservePrice.map (·.value) = terms.reserve.map fun r => .fin (r / 100) := by
  unfold termsOf at h
  split at h
  · cases h; simp [*]
  · cases h; simp [*, Numeric.value]
  · cases h

/-- The reserve of the terms is that of the row. -/
theorem reserve_of_mem {row : Auction} {terms : Terms ℤ} (h : termsOf row = some terms) {r : ℤ}
    (hr : r ∈ terms.reserve) : ∃ d ∈ row.reservePrice, d.value = .fin (r / 100) := by
  have hmap := termsOf_reserve h
  rw [Option.mem_def.mp hr, Option.map_some] at hmap
  exact Option.map_eq_some_iff.mp hmap

/-- The reserve of the row is that of the terms. -/
theorem mem_of_reserve {row : Auction} {terms : Terms ℤ} (h : termsOf row = some terms) {d : Numeric}
    (hd : d ∈ row.reservePrice) : ∃ r ∈ terms.reserve, d.value = .fin (r / 100) := by
  have hmap := termsOf_reserve h
  rw [Option.mem_def.mp hd, Option.map_some] at hmap
  obtain ⟨r, hr, heq⟩ := Option.map_eq_some_iff.mp hmap.symm
  exact ⟨r, hr, heq.symm⟩

/-- The row of a closed lot. -/
structure Knocked {m : ℤ} (row : Auction) (book : Book Uuid m) (buyer : Option Uuid) : Prop where
  /-- It is sold if there is a buyer. -/
  state : row.state = if buyer.isSome then .sold else .unsold
  /-- The winner is the buyer. -/
  winnerId : row.winnerId = buyer
  /-- The highest bid is the price of the book, if somebody has bid. -/
  highestBid : row.highestBid.map (·.value) =
    if book.bids = [] then none else some (.fin (book.price / 100))

/-- The row is in the table, or in the session of the close poll while the table has it active. -/
def Holds (s : Sys) (a : Uuid) (row : Auction) : Prop :=
  s.pg.auction a = some row ∨
    ∃ p row₀, s.closes = some p ∧ (a, row) ∈ p.dirty ∧ s.pg.auction a = some row₀ ∧
      row₀.state = .active

/-- What the stores show of the auction `a`. -/
inductive Shows (s : Sys) (a : Uuid) : Lot Uuid ℤ → Prop where
  /-- There is no row. -/
  | unlisted (hrow : s.pg.auction a = none) : Shows s a .unlisted
  /-- The row waits, and there is no hash. -/
  | waiting {row : Auction} {terms : Terms ℤ} (hrow : s.pg.auction a = some row)
    (hterms : termsOf row = some terms) (hstate : row.state = .upcoming)
    (hhash : s.redis.hash a = none) : Shows s a (.waiting terms)
  /-- The hash is active, and keeps the book. -/
  | opened {row : Auction} {terms : Terms ℤ} {book : Book Uuid terms.increment} {h : AuctionHash}
    (hrow : s.pg.auction a = some row) (hterms : termsOf row = some terms)
    (hstate : row.state = .upcoming ∨ row.state = .active) (hhash : s.redis.hash a = some h)
    (hactive : h.state = some .active) (hbook : Booked book h (s.accepted a)) :
    Shows s a (.opened terms book)
  /-- The hash is shut, and the row is decided. -/
  | closed {row : Auction} {terms : Terms ℤ} {book : Book Uuid terms.increment} {h : AuctionHash}
    {buyer : Option Uuid} (hrow : Holds s a row) (hterms : termsOf row = some terms)
    (hhash : s.redis.hash a = some h) (hshut : h.state ≠ some .active)
    (hbook : Booked book h (s.accepted a)) (hknocked : Knocked row book buyer) :
    Shows s a (.closed terms book buyer)

/-- The auction that a step works on. -/
def touched (s : Sys) : Act → Option Uuid
  | .createStep a _ => some a
  | .bidStep b _ => (s.bids b).map (·.auctionId)
  | .startStep _ => s.starts.bind fun p => p.todo.head?.map Prod.fst
  | .closeStep _ => s.closes.bind fun p => p.todo.head?.map Prod.fst
  | _ => none

section Step

variable {s t : Sys} {act : Act} {a : Uuid}

/-! ### The book of a hash -/

/-- A hash that follows from a book keeps it. -/
theorem booked_of_hash (hs : HammerInv s) {m : ℤ} (hm : 0 ≤ m) {book : Book Uuid m} {h : AuctionHash}
    (hh : s.redis.hash a = some h)
    (hbids : (s.accepted a).map (fun e => (e.argv.bidderId, e.argv.amount)) =
      book.bids.map fun b => (b.1, .dec b.2)) : Booked book h (s.accepted a) :=
  ((hs.settlement.history a).follows.opened h hh (hs.opened a h hh)).booked hm hbids

/-- The terms are not negative, and the increment in the hash is theirs. -/
theorem increment_of_terms (hs : HammerInv s) {row : Auction} {terms : Terms ℤ}
    (hrow : s.pg.auction a = some row) (hterms : termsOf row = some terms) :
    0 ≤ terms.increment ∧ terms.increment < 10 ^ 12 ∧
      ∀ h, s.redis.hash a = some h → h.minIncrement = some (.dec terms.increment) := by
  obtain ⟨hfits, hm⟩ := termsOf_increment hterms
  have hinv := hs.states.before.auctions
  refine ⟨(hinv.rows a row hrow).increment _ _ hm, (abs_lt.mp hfits).2, ?_⟩
  intro h hh
  obtain ⟨inc, hinc⟩ := Option.ne_none_iff_exists'.mp (hs.opened a h hh)
  rw [hinc, (hinv.hashes a row h hrow hh).minIncrement inc hinc, hm, toDecimalStr_cents]

/-- **What the script admits, the book admits.** -/
theorem book_admits {m : ℤ} {book : Book Uuid m} {h : AuctionHash} {acc : List Accept}
    (hbook : Booked book h acc) (hinc : h.minIncrement = some (.dec m)) (hm : 0 ≤ m)
    (hm' : m < 10 ^ 12) {argv : Argv} {c : ℤ} (hc : argv.amount = .dec c) (hc₀ : 0 ≤ c)
    (hc' : c < 10 ^ 12) (hadm : Admits double h argv) : book.Admits argv.bidderId c := by
  obtain ⟨endTs, inc, hadm⟩ := hadm
  obtain rfl := Option.some.inj (hinc.symm.trans hadm.hasIncrement)
  refine ⟨add_le_of_admissible hadm hbook.highestBid (book.price_nonneg hm) hm hm' hc hc₀ hc', ?_⟩
  intro hleader
  by_contra hle
  refine hadm.notSelf ⟨by rw [hbook.highestBidder, hleader], ?_⟩
  have hle' : (c : ℚ) ≤ book.price := by exact_mod_cast not_lt.mp hle
  rw [hc, hbook.highestBid]
  simp only [currentPrice, tonumber_dec, Number.fin_le_fin]
  exact double.mono (div_le_div_of_nonneg_right hle' (by norm_num))

/-! ### One step -/

/-- The auctions at hand are committed. -/
theorem pg_of_pending (hs : AuctionsInv s) {row : Auction} (hc : s.creates a = some ⟨row, .hset⟩) :
    s.pg.auction a = none := (hs.pending a _ hc (by simp)).1

/-- The start poll has not started the auction that comes next. -/
theorem waits_of_starts (hs : AuctionsInv s) {row : Auction} {rest dirty : List (Uuid × Auction)}
    (hp : s.starts = some ⟨(a, row) :: rest, dirty⟩) : waits s a = true := by
  obtain ⟨hrow, hupcoming⟩ := hs.row_of_starts hp
  have hnodup := (hs.starts _ hp).nodup
  rw [List.cons_append, List.map_cons, List.nodup_cons] at hnodup
  refine decide_eq_true ⟨by simp [hrow, hupcoming], ?_⟩
  rw [hp]
  simp only [Option.any_some, List.any_eq_true, decide_eq_true_eq, not_exists, not_and]
  intro b hb hab
  exact hnodup.1 (List.mem_map.mpr ⟨b, List.mem_append_right _ hb, hab⟩)

/-- A lot that is not listed stays so, or is listed. -/
theorem unlisted_step (hs : HammerInv s) (ht : HammerInv t) (h : SysStep s act t)
    (hrow : s.pg.auction a = none) :
    ∃ l, Shows t a l ∧ (l = .unlisted ∨ Lot.Move .unlisted l ∧ touched s act = some a) := by
  have hinv := hs.states.before.auctions
  cases (h.row a).change hinv with
  | kept heq => exact ⟨_, .unlisted (heq.trans hrow), Or.inl rfl⟩
  | @stored row hact _ src hnew heq =>
    obtain ⟨terms, hterms⟩ := exists_terms (hs.created a _ src) (hs.states.created a _ src)
    have htouched : touched s act = some a := by rw [hact, touched]
    have hash : t.redis.hash a = s.redis.hash a ∧ t.accepted a = s.accepted a := by
      cases h.hash a with
      | kept hash log => exact ⟨hash, log⟩
      | opened _ src' => cases src.symm.trans src'
      | started hact' | booked hact' | closed hact' | lost hact' => cases hact.symm.trans hact'
    have hnil : t.accepted a = [] := hash.2.trans (hinv.accepted a hrow)
    rcases hnew.state with hstate | hstate
    · have hnone := hash.1.trans (hs.settlement.uncreated a row src hstate)
      exact ⟨_, .waiting heq hterms hstate hnone, Or.inr ⟨.list terms, htouched⟩⟩
    · obtain ⟨h', hh, hactive⟩ := hs.states.pending a row src hstate
      have hh' := hash.1.trans hh
      have hm := (increment_of_terms ht heq hterms).1
      refine ⟨_, .opened heq hterms (Or.inr hstate) hh' hactive ?_,
        Or.inr ⟨.listOpen terms, htouched⟩⟩
      exact booked_of_hash ht hm hh' (by rw [hnil]; rfl)
  | started _ hrow' | closed _ hrow' => cases hrow.symm.trans hrow'

/-- A lot that waits stays so, or is opened. -/
theorem waiting_lot_step (hs : HammerInv s) (ht : HammerInv t) (h : SysStep s act t)
    (hok : Sane s act) {row : Auction} {terms : Terms ℤ} (hrow : s.pg.auction a = some row)
    (hterms : termsOf row = some terms) (hstate : row.state = .upcoming)
    (hhash : s.redis.hash a = none) :
    ∃ l, Shows t a l ∧
      (l = .waiting terms ∨ Lot.Move (.waiting terms) l ∧ touched s act = some a) := by
  have hinv := hs.states.before.auctions
  cases h.hash a with
  | kept hash log =>
    have heq : t.pg.auction a = some row := by
      cases h.row a with
      | kept heq => exact heq.trans hrow
      | stored _ src => cases (hinv.pending a _ src (by simp)).1.symm.trans hrow
      | started _ src hmem =>
        -- what the poll has started has a hash
        obtain ⟨b, hb, rfl⟩ := List.mem_map.mp hmem
        obtain ⟨h', hh, -⟩ := hs.states.starts _ src b hb
        cases hhash.symm.trans hh
      | closed _ src hmem =>
        obtain ⟨b, hb, rfl⟩ := List.mem_map.mp hmem
        obtain ⟨row', hrow', hactive, -⟩ := (hinv.closes _ src).dirty b hb
        obtain rfl := Option.some.inj (hrow.symm.trans hrow')
        cases hstate.symm.trans hactive
    exact ⟨_, .waiting heq hterms hstate (hash.trans hhash), Or.inl rfl⟩
  | opened _ src => cases (pg_of_pending hinv src).symm.trans hrow
  | @started row' rest dirty hact src hash log =>
    obtain ⟨hrow', -⟩ := hinv.row_of_starts src
    obtain rfl := Option.some.inj (hrow.symm.trans hrow')
    have heq := ((h.row a).change hinv).upcoming (by rw [hact]; simp) hrow hstate
    have hnil : t.accepted a = [] := log.trans ((hs.settlement.history a).follows.missing hhash)
    have hm := (increment_of_terms hs hrow hterms).1
    refine ⟨_, .opened heq hterms (Or.inl hstate) hash rfl ?_, Or.inr ⟨.start terms, ?_⟩⟩
    · exact booked_of_hash ht hm hash (by rw [hnil]; rfl)
    · rw [hact, touched, src]
      rfl
  | booked _ _ _ _ _ hfound => cases hhash.symm.trans hfound
  | closed _ src _ htodo =>
    obtain ⟨hrow', hactive⟩ := hinv.row_of_closes src htodo
    obtain rfl := Option.some.inj (hrow.symm.trans hrow')
    cases hstate.symm.trans hactive
  | lost hact => exact absurd hact (not_loseHash (inTime_of_sane hs h hok) a)

/-- What the hammer makes of a row, in terms of the book. -/
theorem knocked_of_hammered {row : Auction} {terms : Terms ℤ} {book : Book Uuid terms.increment}
    {h : AuctionHash} {acc : List Accept} (hterms : termsOf row = some terms)
    (hbook : Booked book h acc) (hhammered : Hammered acc row) :
    ∃ buyer, Knocked row book buyer ∧ Lot.Move (.opened terms book) (.closed terms book buyer) := by
  -- the last acceptance is the last bid of the book
  have hlead : ∀ l, acc.getLast? = some l → book.bids ≠ [] ∧
      book.leader = some l.argv.bidderId ∧ l.argv.amount.value = .fin (book.price / 100) := by
    intro l hl
    have hlast := congrArg List.getLast? hbook.bids
    rw [List.getLast?_map, List.getLast?_map, hl] at hlast
    obtain ⟨b, hb, heq⟩ := Option.map_eq_some_iff.mp hlast.symm
    obtain ⟨hbidder, hamount⟩ := Prod.mk.inj heq
    refine ⟨?_, ?_, ?_⟩
    · intro hnil
      rw [hnil] at hb
      cases hb
    · rw [Book.leader, hb, ← hbidder]; rfl
    · rw [Book.price, lastAmount, hb, ← hamount]; rfl
  cases hhammered with
  | nobody hstate hwinner hbid hnone =>
    have hnil : book.bids = [] := by
      have hbids := hbook.bids
      rwa [hnone, List.map_nil, eq_comm, List.map_eq_nil_iff] at hbids
    refine ⟨none, ⟨hstate, hwinner, by rw [hbid, if_pos hnil]; rfl⟩, .keep (Or.inl ?_)⟩
    rw [Book.leader, hnil]
    rfl
  | @sold l hstate hwinner hbid hlast hmet =>
    obtain ⟨hne, hleader, hvalue⟩ := hlead l hlast
    refine ⟨some _, ⟨hstate, hwinner, by rw [hbid, hvalue, if_neg hne]⟩, .sell hleader ?_⟩
    intro r hr
    obtain ⟨d, hd, hr'⟩ := reserve_of_mem hterms hr
    have hle := hmet d hd
    rw [hr', hvalue, Number.fin_le_fin, div_le_div_iff_of_pos_right (by norm_num)] at hle
    exact_mod_cast hle
  | @unsold l r hstate hwinner hbid hlast hr hle =>
    obtain ⟨hne, -, hvalue⟩ := hlead l hlast
    refine ⟨none, ⟨hstate, hwinner, by rw [hbid, hvalue, if_neg hne]⟩, .keep (Or.inr ?_)⟩
    obtain ⟨r', hr', heq⟩ := mem_of_reserve hterms hr
    rw [heq, hvalue, Number.fin_le_fin, div_le_div_iff_of_pos_right (by norm_num)] at hle
    exact ⟨r', hr', by exact_mod_cast hle⟩

/-- The object whose state goes to the hash is then a row of the session. -/
theorem shut_dirty {fault : Bool} {p : ClosePoll} {obj : AuctionObj} {row : Auction}
    {rest : List (Uuid × Auction)} (h : SysStep s (.closeStep fault) t) (hp : s.closes = some p)
    (hpc : p.pc = .hset obj) (htodo : p.todo = (a, row) :: rest) :
    ∃ p', t.closes = some p' ∧ (a, obj.row) ∈ p'.dirty := by
  cases h with
  | closed hp' htodo' _ hmove =>
    obtain rfl := Option.some.inj (hp.symm.trans hp')
    cases htodo.symm.trans htodo'
    have hne : ∀ {pc}, p.pc = pc → pc = .hset obj := fun h => h.symm.trans hpc
    cases hmove with
    | closed hpc' | unclosed _ hpc' =>
      cases hne hpc'
      exact ⟨_, rfl, by simp [ClosePoll.next]⟩
    | skipped _ hpc' => rcases hpc' with hpc' | hpc' <;> cases hne hpc'
    | extended hpc' | checked hpc' | assigned hpc' | refused hpc' | unsettled hpc' | settled hpc' =>
      cases hne hpc'

/-- While the hash takes bids, the row is not closed and its terms stay. -/
theorem opened_row_step (hs : HammerInv s) (h : SysStep s act t) {row : Auction} {terms : Terms ℤ}
    {h₀ : AuctionHash} (hrow : s.pg.auction a = some row) (hterms : termsOf row = some terms)
    (hstate : row.state = .upcoming ∨ row.state = .active) (hhash : s.redis.hash a = some h₀)
    (hactive : h₀.state = some .active) :
    ∃ row', t.pg.auction a = some row' ∧ termsOf row' = some terms ∧
      (row'.state = .upcoming ∨ row'.state = .active) := by
  cases (h.row a).change hs.states.before.auctions with
  | kept heq => exact ⟨row, heq.trans hrow, hterms, hstate⟩
  | stored _ hnone => cases hrow.symm.trans hnone
  | started _ hrow' _ heq =>
    obtain rfl := Option.some.inj (hrow.symm.trans hrow')
    exact ⟨_, heq, hterms, Or.inr rfl⟩
  | closed _ hrow' _ _ _ src hmem =>
    -- the hash of a closed auction is shut
    obtain ⟨⟨hdecided, -⟩, h', hh', hstate'⟩ := hs.states.dirty _ src _ hmem
    obtain rfl := Option.some.inj (hhash.symm.trans hh')
    have heq := Option.some.inj (hstate'.symm.trans hactive)
    rcases hdecided with ⟨hsold, -⟩ | ⟨hunsold, -⟩
    · cases heq.symm.trans hsold
    · cases heq.symm.trans hunsold

/-- A lot that takes offers goes on so, takes one, or is closed. -/
theorem opened_lot_step (hs : HammerInv s) (ht : HammerInv t) (h : SysStep s act t)
    (hok : Sane s act) {row : Auction} {terms : Terms ℤ} {book : Book Uuid terms.increment}
    {h₀ : AuctionHash} (hrow : s.pg.auction a = some row) (hterms : termsOf row = some terms)
    (hstate : row.state = .upcoming ∨ row.state = .active) (hhash : s.redis.hash a = some h₀)
    (hactive : h₀.state = some .active) (hbook : Booked book h₀ (s.accepted a)) :
    ∃ l, Shows t a l ∧
      (l = .opened terms book ∨ Lot.Move (.opened terms book) l ∧ touched s act = some a) := by
  have hinv := hs.states.before.auctions
  obtain ⟨hm, hm', hinc⟩ := increment_of_terms hs hrow hterms
  obtain ⟨row', hrow', hterms', hstate'⟩ := opened_row_step hs h hrow hterms hstate hhash hactive
  cases h.hash a with
  | kept hash log =>
    exact ⟨_, .opened hrow' hterms' hstate' (hash.trans hhash) hactive (log ▸ hbook), Or.inl rfl⟩
  | opened _ src => cases (pg_of_pending hinv src).symm.trans hrow
  | started _ src =>
    cases (hs.settlement.unopened a (waits_of_starts hinv src)).symm.trans hhash
  | @booked b c endTs h₁ hact src hpc hauction _ hfound hadmits hash log =>
    obtain rfl := Option.some.inj (hhash.symm.trans hfound)
    obtain ⟨n, hfits, hpos, hprint, -⟩ := wholeCents_spec (hs.states.bids b c src).2
    have hadm := book_admits hbook (hinc h₀ hhash) hm hm' hprint hpos.le (abs_lt.mp hfits).2 hadmits
    have htouched : touched s act = some a := by rw [hact, touched, src, ← hauction]; rfl
    refine ⟨_, .opened hrow' hterms' hstate' hash hactive ?_, Or.inr ⟨.offer hadm, htouched⟩⟩
    refine booked_of_hash ht hm hash ?_
    rw [log, List.map_append, hbook.bids, Book.bids_record, List.map_append]
    exact congrArg (_ ++ [·]) (Prod.ext rfl hprint)
  | @closed p obj row₁ rest fault hact src hpc htodo hash log =>
    have hlast := (hs.polls p src).hset obj hpc (a, row₁) (by rw [htodo]; rfl)
    have hclosing := (hinv.closes p src).obj obj (Or.inr hpc) (a, row₁) (by rw [htodo]; rfl)
    obtain ⟨hrow₁, hstate₁⟩ := hinv.row_of_closes src htodo
    obtain rfl := Option.some.inj (hrow.symm.trans hrow₁)
    have hobj : termsOf obj.row = some terms := by
      rw [hclosing.same]
      exact hterms
    obtain ⟨buyer, hknocked, hmove⟩ := knocked_of_hammered hobj hbook hlast
    obtain ⟨p', hp', hmem⟩ := shut_dirty (hact ▸ h) src hpc htodo
    have hkept := ((h.row a).change hinv).active (by rw [hact]; simp) hrow hstate₁
    rw [hhash] at hash
    refine ⟨_, .closed (Or.inr ⟨p', row, hp', hmem, hkept, hstate₁⟩) hobj hash ?_ ?_ hknocked,
      Or.inr ⟨hmove, by rw [hact, touched, src, Option.bind_some, htodo]; rfl⟩⟩
    · simpa [AuctionHash.setState] using hclosing.state.2
    · exact booked_of_hash ht hm hash (by rw [log]; exact hbook.bids)
  | lost hact => exact absurd hact (not_loseHash (inTime_of_sane hs h hok) a)

/-- The table has a closed lot, or has it active. -/
theorem Holds.row {row : Auction} (hrow : Holds s a row)
    (hstate : row.state = .sold ∨ row.state = .unsold) :
    ∃ row₀, s.pg.auction a = some row₀ ∧ row₀.state ≠ .upcoming := by
  rcases hrow with hrow | ⟨-, row₀, -, -, hrow₀, hactive₀⟩
  · exact ⟨row, hrow, by rcases hstate with hstate | hstate <;> simp [hstate]⟩
  · exact ⟨row₀, hrow₀, by rw [hactive₀]; simp⟩

/-- A closed row stays. -/
theorem Holds.step (hs : HammerInv s) (h : SysStep s act t) (hok : Sane s act) {row : Auction}
    (hrow : Holds s a row) (hstate : row.state = .sold ∨ row.state = .unsold) : Holds t a row := by
  have hinv := hs.states.before.auctions
  rcases hrow with hrow | ⟨p, row₀, hp, hmem, hrow₀, hactive₀⟩
  · left
    cases (h.row a).change hinv with
    | kept heq => exact heq.trans hrow
    | stored _ hnone => cases hrow.symm.trans hnone
    | started _ hrow' hstate' | closed _ hrow' hstate' =>
      obtain rfl := Option.some.inj (hrow.symm.trans hrow')
      rw [hstate'] at hstate
      rcases hstate with hstate | hstate <;> cases hstate
  · rcases dirty_after hs.states h (proper_faultless hok.proper) hp hmem with
      ⟨p', hp', hmem'⟩ | hcommitted
    · right
      refine ⟨p', row₀, hp', hmem', ?_, hactive₀⟩
      refine ((h.row a).change hinv).active ?_ hrow₀ hactive₀
      rintro rfl
      cases h
      cases hp'
    · exact Or.inl hcommitted

/-- A closed lot stays so. -/
theorem closed_lot_step (hs : HammerInv s) (h : SysStep s act t) (hok : Sane s act) {row : Auction}
    {h₀ : AuctionHash} (hrow : Holds s a row) (hstate : row.state = .sold ∨ row.state = .unsold)
    (hhash : s.redis.hash a = some h₀) (hshut : h₀.state ≠ some .active) :
    Holds t a row ∧ t.redis.hash a = some h₀ ∧ t.accepted a = s.accepted a := by
  have hinv := hs.states.before.auctions
  obtain ⟨row₀, hrow₀, hstate₀⟩ := hrow.row hstate
  refine ⟨hrow.step hs h hok hstate, ?_⟩
  cases h.hash a with
  | kept hash log => exact ⟨hash.trans hhash, log⟩
  | opened _ src => cases (pg_of_pending hinv src).symm.trans hrow₀
  | started _ src =>
    obtain ⟨hrow', hupcoming'⟩ := hinv.row_of_starts src
    obtain rfl := Option.some.inj (hrow₀.symm.trans hrow')
    exact absurd hupcoming' hstate₀
  | booked _ _ _ _ _ hfound hadmits =>
    obtain ⟨endTs, inc, hadm⟩ := hadmits
    obtain rfl := Option.some.inj (hhash.symm.trans hfound)
    exact absurd hadm.state hshut
  | closed _ src _ htodo =>
    -- an auction at hand is open
    obtain ⟨h₁, hh₁, hactive₁⟩ := hash_of_closes hs.states src htodo
    obtain rfl := Option.some.inj (hhash.symm.trans hh₁)
    exact absurd hactive₁ hshut
  | lost hact => exact absurd hact (not_loseHash (inTime_of_sane hs h hok) a)

/-- **A step of a sane run** moves the lot that it touches, or none. -/
theorem shows_step (hs : HammerInv s) (hstep : step s act = some t) (hok : Sane s act)
    {l : Lot Uuid ℤ} (hl : Shows s a l) :
    ∃ l', Shows t a l' ∧ (l' = l ∨ l.Move l' ∧ touched s act = some a) := by
  have h := step_cases hstep
  have ht := hammerInv_step hs hstep hok
  cases hl with
  | unlisted hrow => exact unlisted_step hs ht h hrow
  | waiting hrow hterms hstate hhash => exact waiting_lot_step hs ht h hok hrow hterms hstate hhash
  | opened hrow hterms hstate hhash hactive hbook =>
    exact opened_lot_step hs ht h hok hrow hterms hstate hhash hactive hbook
  | @closed row terms book h₀ buyer hrow hterms hhash hshut hbook hknocked =>
    have hstate : row.state = .sold ∨ row.state = .unsold := by
      rw [hknocked.state]
      split_ifs
      · exact Or.inl rfl
      · exact Or.inr rfl
    obtain ⟨hrow', hhash', hlog⟩ := closed_lot_step hs h hok hrow hstate hhash hshut
    exact ⟨_, .closed hrow' hterms hhash' hshut (hlog ▸ hbook) hknocked, Or.inl rfl⟩

end Step

/-! ### Every run -/

/-- What the stores show of all auctions. -/
def ShowsHouse (s : Sys) (house : House Uuid Uuid ℤ) : Prop := ∀ a, Shows s a (house a)

/-- One step of the service is a move of the house, or none. -/
theorem showsHouse_step {s t : Sys} {act : Act} {house : House Uuid Uuid ℤ} (hs : HammerInv s)
    (hstep : step s act = some t) (hok : Sane s act) (hhouse : ShowsHouse s house) :
    ∃ house', ReflTransGen House.Move house house' ∧ ShowsHouse t house' := by
  have hstay : ∀ a, touched s act ≠ some a → Shows t a (house a) := by
    intro a ha
    obtain ⟨l, hl, rfl | ⟨-, htouched⟩⟩ := shows_step hs hstep hok (hhouse a)
    · exact hl
    · exact absurd htouched ha
  cases ha : touched s act with
  | none => exact ⟨house, ReflTransGen.refl, fun a => hstay a (by rw [ha]; simp)⟩
  | some a =>
    obtain ⟨l, hl, hmove⟩ := shows_step hs hstep hok (hhouse a)
    refine ⟨Function.update house a l, ?_, ?_⟩
    · rcases hmove with rfl | ⟨hmove, -⟩
      · rw [Function.update_eq_self]
      · exact ReflTransGen.single (.lot hmove)
    · intro b
      by_cases hab : b = a
      · subst hab
        rwa [Function.update_self]
      · rw [Function.update_of_ne hab]
        exact hstay b (by rw [ha]; simpa using Ne.symm hab)

/-- The camera is listed, bid for and sold. -/
def cameraSold : List Act :=
  cameraBid (.ofNumber (.fin 25)) ++ [.tick 60000000, .closeSelect [(5, cameraRow)]] ++
    List.replicate 4 (.closeStep false) ++ [.closeCommit false]

/-! ### Who gets it -/

/-- What an auction is known to end with. -/
inductive Outcome (row : Auction) (acc : List Accept) : Prop where
  /-- It is sold to the last bidder, who pays his bid: the increment above every bid before it, and
  the reserve at least. -/
  | sold {earlier : List Accept} {l : Accept} (hstate : row.state = .sold)
    (hwinner : row.winnerId = some l.argv.bidderId)
    (hbid : row.highestBid.map (·.value) = some l.argv.amount.value) (hacc : acc = earlier ++ [l])
    (hrises : ∀ e ∈ earlier, Rises row.minIncrement e l)
    (hreserve : ∀ r ∈ row.reservePrice, r.value ≤ l.argv.amount.value)
  /-- It is not sold: nobody has bid, or nobody above the reserve. -/
  | unsold (hstate : row.state = .unsold) (hwinner : row.winnerId = none)
    (hacc : acc = [] ∨ ∃ r ∈ row.reservePrice, ∀ e ∈ acc, e.argv.amount.value ≤ r.value)

/-- **A fair lot ends as it should.** -/
theorem outcome_of_fair {row : Auction} {terms : Terms ℤ} {book : Book Uuid terms.increment}
    {buyer : Option Uuid} {h : AuctionHash} {acc : List Accept} (hterms : termsOf row = some terms)
    (hm : 0 ≤ terms.increment) (hbook : Booked book h acc) (hknocked : Knocked row book buyer)
    (hfair : Lot.Fair (.closed terms book buyer)) : Outcome row acc := by
  cases buyer with
  | some b =>
    obtain ⟨earlier, hbids, hrises, hreserve⟩ := hfair.sold hm
    have hacc := hbook.bids
    rw [hbids, List.map_append, List.map_singleton, List.map_eq_append_iff] at hacc
    obtain ⟨accs, last, rfl, haccs, hlast⟩ := hacc
    obtain ⟨l, rfl, hl⟩ := List.map_eq_singleton_iff.mp hlast
    obtain ⟨hbidder, hamount⟩ := Prod.mk.inj hl
    have hvalue : l.argv.amount.value = .fin (book.price / 100) := by rw [hamount]; rfl
    refine .sold hknocked.state ?_ ?_ rfl ?_ ?_
    · rw [hbidder]
      exact hknocked.winnerId
    · rw [hknocked.highestBid, if_neg (by simp [hbids]), hvalue]
    · intro e he
      have hmem : (e.argv.bidderId, e.argv.amount) ∈ earlier.map fun b => (b.1, DecStr.dec b.2) :=
        haccs ▸ List.mem_map_of_mem he
      obtain ⟨e', he', heq⟩ := List.mem_map.mp hmem
      have hle : (e'.2 : ℚ) + terms.increment ≤ book.price := by exact_mod_cast hrises e' he'
      obtain ⟨hfits, hinc⟩ := termsOf_increment hterms
      rw [Rises, hvalue, hinc, ← (Prod.mk.inj heq).2]
      simp only [DecStr.value, Numeric.value, Number.add_fin, Number.fin_lt_fin, not_lt]
      show (e'.2 : ℚ) / 100 + terms.increment / 100 ≤ book.price / 100
      linarith
    · intro d hd
      obtain ⟨r, hr, heq⟩ := mem_of_reserve hterms hd
      have hle : (r : ℚ) ≤ book.price := by exact_mod_cast hreserve r hr
      rw [heq, hvalue, Number.fin_le_fin]
      linarith
  | none =>
    refine .unsold hknocked.state hknocked.winnerId ?_
    rcases hfair.kept hm with hnil | ⟨r, hr, hle⟩
    · left
      have hacc := hbook.bids
      rwa [hnil, List.map_nil, List.map_eq_nil_iff] at hacc
    · right
      obtain ⟨d, hd, hvalue⟩ := reserve_of_mem hterms hr
      refine ⟨d, hd, ?_⟩
      intro e he
      have hmem : (e.argv.bidderId, e.argv.amount) ∈ book.bids.map fun b => (b.1, DecStr.dec b.2) :=
        hbook.bids ▸ List.mem_map_of_mem he
      obtain ⟨e', he', heq⟩ := List.mem_map.mp hmem
      have hle' : (e'.2 : ℚ) ≤ r := by exact_mod_cast hle e' he'
      rw [hvalue, ← (Prod.mk.inj heq).2]
      exact Number.fin_le_fin.mpr (by linarith)

/-- The lot of a closed row is closed, and the row is its outcome. -/
theorem lot_of_closed {s : Sys} {a : Uuid} {l : Lot Uuid ℤ} (hl : Shows s a l) {row : Auction}
    (hrow : s.pg.auction a = some row) (hupcoming : row.state ≠ .upcoming)
    (hactive : row.state ≠ .active) :
    ∃ (terms : Terms ℤ) (book : Book Uuid terms.increment) (buyer : Option Uuid) (h : AuctionHash),
      l = .closed terms book buyer ∧ termsOf row = some terms ∧ Booked book h (s.accepted a) ∧
        Knocked row book buyer := by
  cases hl with
  | unlisted hrow' => cases hrow.symm.trans hrow'
  | waiting hrow' _ hstate =>
    obtain rfl := Option.some.inj (hrow.symm.trans hrow')
    exact absurd hstate hupcoming
  | opened hrow' _ hstate =>
    obtain rfl := Option.some.inj (hrow.symm.trans hrow')
    exact absurd hstate (not_or.mpr ⟨hupcoming, hactive⟩)
  | closed hrow' hterms _ _ hbook hknocked =>
    rcases hrow' with hrow' | ⟨-, row₀, -, -, hrow₀, hactive₀⟩
    · obtain rfl := Option.some.inj (hrow.symm.trans hrow')
      exact ⟨_, _, _, _, rfl, hterms, hbook, hknocked⟩
    · obtain rfl := Option.some.inj (hrow.symm.trans hrow₀)
      exact absurd hactive₀ hactive

end OnlineAuction.System
