import OnlineAuction.System.History
import OnlineAuction.System.Persistence

/-!
# The table of bids refines the history

The rows of accepted bids are committed in any order, each some time after the script has booked
its bid. In a run of bids in whole cents in which no accepted call raises and every hash is opened
once, they are nevertheless a copy of the history of the script, complete whenever no accepted
call is on its way.

## What is proved

* `orderlyInv_step` — what an orderly step preserves (`OrderlyInv`), the amounts rising by the
  increment among it.
* `bidTable_refines` — in every such run the accepted rows match the history (`Matches`), and are
  all of it when no accepted call is on its way (`Complete`).
-/

namespace OnlineAuction.System

open OnlineAuction.Foundation OnlineAuction.Store OnlineAuction.Lifecycle OnlineAuction.Bidding

/-! ### Whole cents -/

/-- The float nearest to a positive number of whole cents that fits the column. -/
def wholeCents (x : PyFloat) : Bool :=
  match x.val with
  | .fin q => 0 < roundEven (q * 100) ∧ roundEven (q * 100) < 10 ^ 12 ∧
      x = .ofNumber (.fin (roundEven (q * 100) / 100))
  | _ => false

theorem wholeCents_spec {x : PyFloat} (h : wholeCents x = true) :
    ∃ c : ℤ, ∃ hfits : |c| < 10 ^ 12, 0 < c ∧ toDecimalStr (some (.float x)) = .dec c ∧
      Numeric.ofNumber x.val = some (.dec c hfits) := by
  unfold wholeCents at h
  split at h
  · rename_i q _
    obtain ⟨hpos, hlt, hx⟩ := of_decide_eq_true h
    generalize roundEven (q * 100) = c at hpos hlt hx
    have hfits : |c| < 10 ^ 12 := abs_lt.mpr ⟨by linarith, hlt⟩
    refine ⟨c, hfits, hpos, ?_, ?_⟩
    · rw [toDecimalStr_float, hx]
      exact fixed2_cents hfits
    · rw [hx]
      exact numeric_cents hfits
  · cases h

/-! ### Orderly runs -/

/-- An orderly step: bids are made in whole cents, no accepted call raises, and a hash is neither
lost nor opened a second time. -/
def orderly (s : Sys) (act : Act) : Bool :=
  !breaksAccepted s act && match act with
  | .bid _ _ _ data => wholeCents data.amount
  | .startStep false => s.starts.all fun p => p.todo.head?.all fun b => (s.redis.hash b.1).isNone
  | .loseHash _ => false
  | _ => true

/-- An amount is not below the one before by less than the increment. -/
def Rises (increment : Numeric) (e e' : Accept) : Prop :=
  ¬ e'.argv.amount.value < e.argv.amount.value.add .exact increment.value

/-- What orderly runs keep. -/
structure OrderlyInv (s : Sys) (a : Uuid) : Prop where
  /-- The auctions. -/
  auctions : AuctionsInv s
  /-- The calls. -/
  calls : CallsInv s
  /-- No accepted call has raised. -/
  unbroken : Unbroken s
  /-- The hash follows from the history. -/
  follows : Follows s a
  /-- Bids are in whole cents. -/
  cents : ∀ b c, s.bids b = some c → wholeCents c.data.amount = true
  /-- The amounts rise by the increment of the auction. -/
  rises : ∀ row, s.pg.auction a = some row → (s.accepted a).IsChain (Rises row.minIncrement)

theorem remembers_of_orderly {s : Sys} {act : Act} {a : Uuid} (hf : Follows s a)
    (hok : orderly s act = true) : Remembers s act a where
  kept := by
    rintro rfl
    simp [orderly] at hok
  started := by
    rintro ⟨rfl, row, rest, dirty, hp⟩
    simp only [orderly, hp, Bool.and_eq_true, Option.all_some, List.head?_cons,
      Option.isNone_iff_eq_none] at hok
    exact hf.missing hok.2

theorem cents_step {s t : Sys} {act : Act}
    (hs : ∀ b c, s.bids b = some c → wholeCents c.data.amount = true) (h : SysStep s act t)
    (hok : orderly s act = true) {b : Uuid} {c : Call} (hc : t.bids b = some c) :
    wholeCents c.data.amount = true := by
  cases h.bid b with
  | kept call => exact hs b c (call ▸ hc)
  | called hact _ _ call =>
    obtain rfl := Option.some.inj (call.symm.trans hc)
    rw [hact, orderly, Bool.and_eq_true] at hok
    exact hok.2
  | moved _ src _ _ call | crashed _ src _ call =>
    obtain rfl := Option.some.inj (call.symm.trans hc)
    exact (hs b _ src :)

/-- **A booked bid rises** by the increment of the auction. -/
theorem rises_of_booked {s : Sys} {a b : Uuid} {c : Call} {endTs : ℤ} {h : AuctionHash}
    {row : Auction} (hs : OrderlyInv s a) (hrow : s.pg.auction a = some row)
    (hc : s.bids b = some c) (hh : s.redis.hash a = some h) (hadm : Admits double h (c.argv b endTs))
    {l : Accept} (hl : (s.accepted a).getLast? = some l) (e : Accept)
    (he : e.argv = c.argv b endTs) : Rises row.minIncrement l e := by
  obtain ⟨endTs', inc, hadm⟩ := hadm
  have htr := hs.follows.opened h hh (by rw [hadm.hasIncrement]; simp)
  have hinc := (hs.auctions.hashes a row h hrow hh).minIncrement inc hadm.hasIncrement
  obtain ⟨c₀, hc₀, hacc₀⟩ := hs.calls.history a l (List.mem_of_getLast? hl)
  obtain ⟨n₀, hfits₀, hpos₀, hprint₀, -⟩ := wholeCents_spec (hs.cents _ c₀ hc₀)
  obtain ⟨n, hfits, hpos, hprint, -⟩ := wholeCents_spec (hs.cents b c hc)
  have hl₀ : l.argv.amount = .dec n₀ := hacc₀.amount.trans hprint₀
  have hamount : (c.argv b endTs).amount = .dec n := hprint
  unfold Rises
  rw [he, hamount, hl₀]
  cases hm : row.minIncrement with
  | nan => exact Number.not_lt_nan _
  | dec m hmfits =>
    have hm₀ : 0 ≤ m := (hs.auctions.rows a row hrow).increment m hmfits hm
    rw [hm, toDecimalStr_cents] at hinc
    have hle : n₀ + m ≤ n := by
      refine add_le_of_admissible (hinc ▸ hadm) ?_ hpos₀.le hm₀ (abs_lt.mp hmfits).2 hamount hpos.le
        (abs_lt.mp hfits).2
      rw [htr.highestBid, hl]
      exact congrArg some hl₀
    have hle' : (n₀ : ℚ) + m ≤ n := by exact_mod_cast hle
    simp only [DecStr.value, Numeric.value, Number.add_fin, Number.fin_lt_fin, not_lt]
    show (n₀ : ℚ) / 100 + m / 100 ≤ n / 100
    linarith

theorem rises_step {s t : Sys} {act : Act} {a : Uuid} (hs : OrderlyInv s a) (h : SysStep s act t)
    {row : Auction} (hrow : t.pg.auction a = some row) :
    (t.accepted a).IsChain (Rises row.minIncrement) := by
  -- the increment of a row never changes
  have hsame : ∀ row', s.pg.auction a = some row' → row'.minIncrement = row.minIncrement := by
    intro row' hrow'
    have hfixed := ((h.row a).change hs.auctions).fixed (f := (·.minIncrement))
      (fun _ _ _ _ => rfl) hrow'
    rw [hrow, Option.map_some, Option.some.injEq] at hfixed
    exact hfixed.symm
  have hold : (s.accepted a).IsChain (Rises row.minIncrement) := by
    cases hrow' : s.pg.auction a with
    | none => rw [hs.auctions.accepted a hrow']; exact List.isChain_nil
    | some row' => exact hsame row' hrow' ▸ hs.rises row' hrow'
  cases h.hash a with
  | @booked b c endTs h₀ hact src hpc hauction hfresh hfound hadmits hash log =>
    have hloaded := hs.auctions.loaded b c src (by rw [hpc]; rfl)
    obtain ⟨row', hrow'⟩ := Option.ne_none_iff_exists'.mp (hauction ▸ hloaded)
    rw [log, List.isChain_append]
    refine ⟨hold, List.isChain_singleton _, ?_⟩
    intro l hl e he
    rw [List.head?_cons, Option.mem_some_iff] at he
    rw [← hsame row' hrow', ← he]
    exact rises_of_booked hs hrow' src hfound hadmits hl _ rfl
  | kept _ log | opened _ _ _ log | started _ _ _ log | closed _ _ _ _ _ log | lost _ _ log =>
    rw [log]
    exact hold

theorem orderlyInv_step {s t : Sys} {act : Act} {a : Uuid} (hs : OrderlyInv s a)
    (hstep : step s act = some t) (hok : orderly s act = true) : OrderlyInv t a where
  auctions := auctionsInv_step hs.auctions hstep
  calls := callsInv_step hs.calls hstep
  unbroken := by
    unfold orderly at hok
    have hbreaks : breaksAccepted s act = false := by simpa using (Bool.and_eq_true_iff.mp hok).1
    refine (unbroken_step_iff hs.calls hs.unbroken hstep ?_).mpr hbreaks
    rintro rfl
    cases hbreaks
  follows :=
    follows_step hs.auctions hs.follows (step_cases hstep) (remembers_of_orderly hs.follows hok)
  cents := fun _ _ hc => cents_step hs.cents (step_cases hstep) hok hc
  rises := fun _ hrow => rises_step hs (step_cases hstep) hrow

theorem orderlyInv_of_reach {now : ℤ} {users : List Uuid} {s : Sys}
    (hrun : Reach step (fun s act _ => orderly s act = true) (.initial now users) s) (a : Uuid) :
    OrderlyInv s a := by
  apply hrun.invariant (fun hs hstep hok => orderlyInv_step hs hstep hok)
  have hinit := historyInv_initial now users a
  refine ⟨hinit.auctions, hinit.calls, ?_, hinit.follows, ?_, ?_⟩
  · simp [Unbroken, Sys.initial]
  · simp [Sys.initial]
  · simp [Sys.initial]

/-! ### The accepted rows -/

/-- A row is that of an acceptance: its bid, its bidder, its sequence number and its amount. -/
structure RowOfAccept (row : Bid) (e : Accept) : Prop where
  /-- The bid. -/
  bidId : e.argv.bidId = row.bidId
  /-- The sequence number. -/
  sequenceNum : e.seq = row.sequenceNum
  /-- The bidder. -/
  bidderId : e.argv.bidderId = row.bidderId
  /-- The amount. -/
  amount : e.argv.amount.value = row.amount.value

/-- The accepted rows of the auction `a` match the history. -/
structure Matches (s : Sys) (a : Uuid) : Prop where
  /-- No two share a sequence number. -/
  nodup : ((acceptedBids s.pg a).map (·.sequenceNum)).Nodup
  /-- Each is that of an acceptance. -/
  accepted : ∀ row ∈ acceptedBids s.pg a, ∃ e ∈ s.accepted a, RowOfAccept row e

/-- No call on the auction `a` is between the script that accepted it and its commit. -/
def Quiet (s : Sys) (a : Uuid) : Prop :=
  ∀ b c v, s.bids b = some c → c.auctionId = a → c.pc.running = true → c.pc.verdict = some v →
    v.status ≠ .accepted

/-- The accepted rows of the auction `a` are its whole history, of `n` bids. -/
structure Complete (s : Sys) (a : Uuid) (n : ℕ) : Prop where
  /-- Their sequence numbers are `1` to `n`. -/
  numbers : ((acceptedBids s.pg a).map (·.sequenceNum)).Perm (List.range' 1 n)
  /-- The hash, if it was opened, has the sequence number `n`. -/
  sequenceNum : ∀ h, s.redis.hash a = some h → h.minIncrement ≠ none → h.sequenceNum = some n
  /-- The detail of the auction counts `n` bids. -/
  bidCount : ∀ now d, getAuctionDetail s.pg s.redis a now = some d → d.bidCount = n
  /-- The amounts rise by the increment of the auction. -/
  rises : ∀ auction, s.pg.auction a = some auction → ∀ row ∈ acceptedBids s.pg a,
    ∀ row' ∈ acceptedBids s.pg a, row'.sequenceNum = row.sequenceNum + 1 →
      ¬ row'.amount.value < row.amount.value.add .exact auction.minIncrement.value
  /-- The last row carries the highest bid and the highest bidder. -/
  last : ∀ row ∈ acceptedBids s.pg a, row.sequenceNum = n → ∀ h, s.redis.hash a = some h →
    h.highestBid.map (·.value) = some row.amount.value ∧
      h.highestBidder = some (some row.bidderId)

theorem mem_acceptedBids {pg : Pg} {a : Uuid} {row : Bid} :
    row ∈ acceptedBids pg a ↔ row ∈ pg.bid ∧ row.auctionId = a ∧ row.status = .accepted := by
  simp [acceptedBids]

/-- Whole cents are stored as they are printed. -/
theorem value_of_wholeCents {x : PyFloat} (h : wholeCents x = true) {d : Numeric}
    (hd : Numeric.ofNumber x.val = some d) : (toDecimalStr (some (.float x))).value = d.value := by
  obtain ⟨n, hfits, -, hprint, hstore⟩ := wholeCents_spec h
  rw [hstore, Option.some.injEq] at hd
  rw [hprint, ← hd]
  rfl

/-- The bids accepted on the auction `a` are in whole cents. -/
def AcceptsCents (s : Sys) (a : Uuid) : Prop :=
  ∀ e ∈ s.accepted a, ∃ c, s.bids e.argv.bidId = some c ∧ wholeCents c.data.amount = true

/-- **A committed row matches** the acceptance of its call. -/
theorem CallsInv.accept_of_row {s : Sys} {a : Uuid} (hs : CallsInv s) (hcents : AcceptsCents s a)
    {row : Bid} (hrow : row ∈ acceptedBids s.pg a) : ∃ e ∈ s.accepted a, RowOfAccept row e := by
  obtain ⟨hmem, hauction, hstatus⟩ := mem_acceptedBids.mp hrow
  obtain ⟨c, v, hc, hplaced, hof⟩ := hs.row_of_mem hmem
  have hverdict : c.pc.verdict = some v := Pc.verdict_of_placed hplaced
  obtain ⟨e, he, hid, hseq⟩ := hs.accepted _ c v hc hverdict (hof.status ▸ hstatus)
  have hauction' : c.auctionId = a := hof.auctionId.symm.trans hauction
  rw [hauction'] at he
  obtain ⟨c', hc', hacc⟩ := hs.history a e he
  obtain ⟨c'', hc'', hwhole⟩ := hcents e he
  rw [hid, hc, Option.some.injEq] at hc' hc''
  subst hc' hc''
  exact ⟨e, he, hid, hseq.trans hof.sequenceNum.symm, hacc.bidderId.trans hof.bidderId.symm,
    hacc.amount ▸ value_of_wholeCents hwhole hof.amount⟩

/-- **An acceptance has its row** when its call neither is on its way nor has raised. -/
theorem CallsInv.row_of_accept {s : Sys} {a : Uuid} (hs : CallsInv s) (hcents : AcceptsCents s a)
    (hquiet : Quiet s a) {e : Accept} (he : e ∈ s.accepted a)
    (hun : ∀ c, s.bids e.argv.bidId = some c → c.pc ≠ .aborted) :
    ∃ row ∈ acceptedBids s.pg a, RowOfAccept row e := by
  obtain ⟨c, hc, hacc⟩ := hs.history a e he
  obtain ⟨price, hv⟩ := hacc.verdict.resolve_right (hun c hc)
  rcases Pc.running_or_placed hv with hrunning | hplaced
  · exact absurd rfl (hquiet _ c _ hc hacc.auctionId hrunning hv)
  · obtain ⟨row, hrow, hid, hof⟩ := hs.row_of_placed hc hplaced
    have hmem := mem_acceptedBids.mpr ⟨hrow, hof.auctionId.trans hacc.auctionId, hof.status⟩
    obtain ⟨e', he', hof'⟩ := hs.accept_of_row hcents hmem
    have hee : e' = e := List.inj_on_of_nodup_map (hs.nodup a) he' he (hof'.bidId.trans hid)
    exact ⟨row, hmem, hee ▸ hof'⟩

theorem OrderlyInv.acceptsCents {s : Sys} {a : Uuid} (hs : OrderlyInv s a) : AcceptsCents s a := by
  intro e he
  obtain ⟨c, hc, -⟩ := hs.calls.history a e he
  exact ⟨c, hc, hs.cents _ c hc⟩

theorem exists_accept {s : Sys} {a : Uuid} (hs : OrderlyInv s a) {row : Bid}
    (hrow : row ∈ acceptedBids s.pg a) : ∃ e ∈ s.accepted a, RowOfAccept row e :=
  hs.calls.accept_of_row hs.acceptsCents hrow

/-- **The accepted rows match the history.** -/
theorem OrderlyInv.matches {s : Sys} {a : Uuid} (hs : OrderlyInv s a) : Matches s a where
  accepted := fun row hrow => exists_accept hs hrow
  nodup := by
    have hbid := hs.calls.bid_nodup
    refine List.Nodup.map_on ?_ (hbid.of_map.filter _)
    intro row hrow row' hrow' hseq
    obtain ⟨e, he, hof⟩ := exists_accept hs hrow
    obtain ⟨e', he', hof'⟩ := exists_accept hs hrow'
    have hnodup : ((s.accepted a).map (·.seq)).Nodup := by
      rw [hs.follows.numbered]
      exact List.nodup_range'
    have hee : e = e' := List.inj_on_of_nodup_map hnodup he he'
      (hof.sequenceNum.trans (hseq.trans hof'.sequenceNum.symm))
    apply List.inj_on_of_nodup_map hbid (mem_acceptedBids.mp hrow).1 (mem_acceptedBids.mp hrow').1
    exact hof.bidId.symm.trans ((congrArg (·.argv.bidId) hee).trans hof'.bidId)

/-- When no accepted call is on its way, every acceptance has its row. -/
theorem exists_row {s : Sys} {a : Uuid} (hs : OrderlyInv s a) (hquiet : Quiet s a) {e : Accept}
    (he : e ∈ s.accepted a) : ∃ row ∈ acceptedBids s.pg a, RowOfAccept row e :=
  hs.calls.row_of_accept hs.acceptsCents hquiet he (hs.unbroken a e he)

/-- The acceptance of a row stands in the history at the place of its sequence number. -/
theorem OrderlyInv.getElem_of_row {s : Sys} {a : Uuid} (hs : OrderlyInv s a) {row : Bid}
    (hrow : row ∈ acceptedBids s.pg a) : ∃ i, ∃ hi : i < (s.accepted a).length,
      RowOfAccept row (s.accepted a)[i] ∧ row.sequenceNum = i + 1 := by
  obtain ⟨e, he, hof⟩ := exists_accept hs hrow
  obtain ⟨i, hi, rfl⟩ := List.getElem_of_mem he
  refine ⟨i, hi, hof, ?_⟩
  have hnum := congrArg (fun l : List ℕ => l[i]?) hs.follows.numbered
  rw [← hof.sequenceNum]
  simpa [hi, Nat.add_comm] using hnum

/-- The rows have the sequence numbers of the history. -/
theorem OrderlyInv.numbers {s : Sys} {a : Uuid} (hs : OrderlyInv s a) (hquiet : Quiet s a) :
    ((acceptedBids s.pg a).map (·.sequenceNum)).Perm (List.range' 1 (s.accepted a).length) := by
  apply (List.perm_ext_iff_of_nodup hs.matches.nodup List.nodup_range').mpr
  intro k
  rw [← hs.follows.numbered]
  constructor
  · intro hk
    obtain ⟨row, hrow, rfl⟩ := List.mem_map.mp hk
    obtain ⟨e, he, hof⟩ := exists_accept hs hrow
    exact List.mem_map.mpr ⟨e, he, hof.sequenceNum⟩
  · intro hk
    obtain ⟨e, he, rfl⟩ := List.mem_map.mp hk
    obtain ⟨row, hrow, hof⟩ := exists_row hs hquiet he
    exact List.mem_map.mpr ⟨row, hrow, hof.sequenceNum.symm⟩

/-- **When no accepted call is on its way, the rows are the whole history.** -/
theorem OrderlyInv.complete {s : Sys} {a : Uuid} (hs : OrderlyInv s a) (hquiet : Quiet s a) :
    Complete s a (s.accepted a).length where
  numbers := hs.numbers hquiet
  sequenceNum := fun h hh hinc => (hs.follows.opened h hh hinc).sequenceNum
  bidCount := by
    intro now d hd
    obtain ⟨auction, -, rfl⟩ := Option.map_eq_some_iff.mp hd
    simpa using (hs.numbers hquiet).length_eq
  rises := by
    intro auction hauction row hrow row' hrow' hnext
    obtain ⟨i, hi, hof, hnum⟩ := hs.getElem_of_row hrow
    obtain ⟨j, hj, hof', hnum'⟩ := hs.getElem_of_row hrow'
    obtain rfl : j = i + 1 := by omega
    have hrise := List.isChain_iff_getElem.mp (hs.rises auction hauction) i hj
    rw [Rises, hof.amount, hof'.amount] at hrise
    exact hrise
  last := by
    intro row hrow hlast h hh
    obtain ⟨i, hi, hof, hnum⟩ := hs.getElem_of_row hrow
    have hlast' : (s.accepted a).getLast? = some (s.accepted a)[i] := by
      rw [List.getLast?_eq_getElem?, List.getElem?_eq_getElem (by omega)]
      congr 2
      omega
    obtain ⟨h', hh', htr⟩ := hs.follows.tracked (List.ne_nil_of_length_pos (by omega))
    obtain rfl : h' = h := Option.some.inj (hh'.symm.trans hh)
    constructor
    · rw [htr.highestBid, hlast', ← hof.amount]
      rfl
    · rw [htr.highestBidder, hlast', ← hof.bidderId]
      rfl

/-- **The table of bids refines the history** in every orderly run. -/
theorem bidTable_refines {now : ℤ} {users : List Uuid} {s : Sys}
    (hrun : Reach step (fun s act _ => orderly s act = true) (.initial now users) s) (a : Uuid) :
    Matches s a ∧ (Quiet s a → ∃ n, Complete s a n) := by
  have hinv := orderlyInv_of_reach hrun a
  exact ⟨hinv.matches, fun hquiet => ⟨_, hinv.complete hquiet⟩⟩

/-! ### A run -/

/-- Whether an auction is quiet is seen from the calls of its history. -/
theorem quiet_of_all {s : Sys} {a : Uuid} (hs : CallsInv s)
    (h : ∀ e ∈ s.accepted a, (s.bids e.argv.bidId).all (fun c => !c.pc.running) = true) :
    Quiet s a := by
  rintro b c v hc rfl hrunning hv hacc
  obtain ⟨e, he, rfl, -⟩ := hs.accepted b c v hc hv hacc
  have := h e he
  rw [hc, Option.all_some, hrunning] at this
  cases this

/-- Two bids on the camera, committed in the opposite order. -/
def crossedBids : List Act :=
  cameraBid (.ofNumber (.fin 25)) ++
    [.bid 101 5 8 { amount := .ofNumber (.fin 30) }, .bidStep 101 false, .bidStep 101 false,
      .bidStep 101 false, .bidStep 101 false, .bidStep 101 false, .bidStep 101 false,
      .bidStep 100 false, .bidStep 100 false, .bidStep 100 false]

theorem bidTable_refines_camera : ∃ s : Sys, s.pg.bid.map (·.sequenceNum) = [2, 1] ∧
    ∃ n, Complete s 5 n := by
  obtain ⟨s, hs, hp⟩ := exists_reach step (fun s act _ => orderly s act = true)
    crossedBids (s := .initial 1000000000 [1, 7, 8])
    (p := fun s => s.pg.bid.map (·.sequenceNum) = [2, 1] ∧
      ∀ e ∈ s.accepted 5, (s.bids e.argv.bidId).all (fun c => !c.pc.running) = true)
    (by decide +kernel)
  obtain ⟨hseq, hall⟩ := of_decide_eq_true hp
  exact ⟨s, hseq, (bidTable_refines hs 5).2 (quiet_of_all (callsInv_of_reach hs) hall)⟩

end OnlineAuction.System
