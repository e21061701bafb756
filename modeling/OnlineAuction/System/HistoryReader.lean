import OnlineAuction.Bidding.BidHistory
import OnlineAuction.System.BidTable

/-!
# Reading the history while bids come in

A reader pages through the history of an auction (`get_bid_history`) beside the service, which goes on
accepting and committing bids between the pages.

## What is proved

* `history_reads_all` — what was the whole history when the first page was read, no accepted bid being
  on its way then, is exactly what the reader has at the end, newest first, after at most one page more
  than there were bids, whatever is accepted meanwhile.

## Honest scope

The runs are orderly (`orderly`): bids are in whole cents, no accepted call raises, and a hash is
neither lost nor opened twice. A page is one step: its statement reads one snapshot.
-/

namespace OnlineAuction.System

open OnlineAuction.Foundation OnlineAuction.Store OnlineAuction.Lifecycle OnlineAuction.Bidding

/-! ### The reader -/

/-- A reader of the history. -/
structure Reader where
  /-- How far he has come. -/
  place : Keyset.Place ℤ
  /-- The items of the pages so far. -/
  items : List BidHistoryItem
  /-- How many pages he has read. -/
  calls : ℕ

/-- Before his first page. -/
def Reader.start : Reader := ⟨.start, [], 0⟩

/-- The steps of the service and of the reader beside it. -/
inductive ReadAct where
  /-- The service moves. -/
  | service (act : Act)
  /-- The reader reads the next page. -/
  | call (limit : ℤ)

/-- One step. -/
def readStep (a : Uuid) (x : Sys × Reader) : ReadAct → Option (Sys × Reader)
  | .service act => (step x.1 act).map fun t => (t, x.2)
  | .call limit =>
    if x.2.place = .done then none
    else (getBidHistory x.1.pg a x.2.place.cursor limit).map fun page =>
      (x.1, ⟨.after page.nextCursor, x.2.items ++ page.bids, x.2.calls + 1⟩)

/-- The service moves orderly. -/
def ReadAct.orderly (s : Sys) : ReadAct → Bool
  | .service act => System.orderly s act
  | .call _ => true

/-! ### What the reader has seen -/

/-- Committed rows stay. -/
theorem SysStep.committed {s t : Sys} {act : Act} (h : SysStep s act t) : s.pg.bid <+: t.pg.bid := by
  cases h with
  | moved hc hstep hmove =>
    cases hmove with
    | committed => exact List.prefix_append _ _
    | _ => exact List.prefix_rfl
  | @startEnded fault dirty hp => cases fault <;> exact List.prefix_rfl
  | @closeEnded fault nowUtc pc dirty hp => cases fault <;> exact List.prefix_rfl
  | _ => exact List.prefix_rfl

/-- The numbers of the accepted rows are different. -/
theorem OrderlyInv.nums {s : Sys} {a : Uuid} (hs : OrderlyInv s a) :
    ((acceptedBids s.pg a).map seqNum).Nodup := by
  have hnodup := hs.matches.nodup.map (f := ((↑) : ℕ → ℤ)) Nat.cast_injective
  rwa [List.map_map] at hnodup

/-- What a reader has seen who began in the state `s₀`, in which `n` bids were accepted. -/
structure Seen (s₀ : Sys) (a : Uuid) (n : ℕ) (x : Sys × Reader) : Prop where
  /-- The service. -/
  service : OrderlyInv x.1 a
  /-- The auction is there. -/
  auction : x.1.pg.auction a ≠ none
  /-- The first page was read. -/
  started : x.2.place ≠ .start
  /-- The history goes on from where it was. -/
  history : s₀.accepted a <+: x.1.accepted a
  /-- The cursor is the number of a bid, and not above the first ones. -/
  cursor : ∀ c, x.2.place = .at c → 0 < c ∧ c ≤ n
  /-- There are not too many pages. -/
  calls : x.2.calls + pagesLeft x.2.place ≤ n + 1
  /-- What is listed: the rows of the beginning, down to the cursor, and none above them. -/
  covered : ∃ listed, x.2.items = listed.map historyItem ∧ (∀ row ∈ listed, seqNum row ≤ n) ∧
    Keyset.Covered seqNum (acceptedBids s₀.pg a) (acceptedBids x.1.pg a) listed x.2.place

/-- A row has a number of the history. -/
theorem OrderlyInv.seqNum_mem {s : Sys} {a : Uuid} (hs : OrderlyInv s a) {row : Bid}
    (hrow : row ∈ acceptedBids s.pg a) : 0 < seqNum row ∧ seqNum row ≤ (s.accepted a).length := by
  obtain ⟨i, hi, -, hnum⟩ := hs.getElem_of_row hrow
  rw [seqNum, hnum]
  constructor <;> · push_cast; omega

/-- What the next page leaves. -/
theorem readStep_call {a : Uuid} {x y : Sys × Reader} {limit : ℤ}
    (h : readStep a x (.call limit) = some y) : x.2.place ≠ .done ∧ x.1.pg.auction a ≠ none ∧
      ∃ p, p = Keyset.page seqNum (acceptedBids x.1.pg a) x.2.place.cursor (pageLimit limit) ∧
        y = (x.1, ⟨.after p.2, x.2.items ++ p.1.map historyItem, x.2.calls + 1⟩) := by
  simp only [readStep] at h
  split_ifs at h with hplace
  obtain ⟨page, hpage, rfl⟩ := Option.map_eq_some_iff.mp h
  rw [getBidHistory_eq] at hpage
  obtain ⟨row, hrow, rfl⟩ := Option.map_eq_some_iff.mp hpage
  exact ⟨hplace, by simp [hrow], _, rfl, rfl⟩

/-- A bound on the numbers below a cursor. -/
theorem page_le {a : Uuid} {s : Sys} (hs : OrderlyInv s a) {cursor : Option ℤ} {limit : ℤ} {n : ℕ}
    (hbelow : ∀ row ∈ acceptedBids s.pg a, Keyset.Below seqNum cursor row → seqNum row ≤ n) :
    (∀ row ∈ (Keyset.page seqNum (acceptedBids s.pg a) cursor (pageLimit limit)).1, seqNum row ≤ n) ∧
    ∀ c, (Keyset.page seqNum (acceptedBids s.pg a) cursor (pageLimit limit)).2 = some c →
      0 < c ∧ c ≤ n ∧ ∀ c' ∈ cursor, c < c' := by
  have hspec := Keyset.page_spec hs.nums cursor (pageLimit_pos limit)
  have hle : ∀ row ∈ (Keyset.page seqNum (acceptedBids s.pg a) cursor (pageLimit limit)).1,
      seqNum row ≤ n := fun row hrow =>
    hbelow row (hspec.sound row hrow).1 (hspec.sound row hrow).2
  refine ⟨hle, fun c hc => ?_⟩
  obtain ⟨⟨z, hz, rfl⟩, -, -⟩ := hspec.more c hc
  obtain ⟨hmem, hcursor⟩ := hspec.sound z hz
  exact ⟨(hs.seqNum_mem hmem).1, hle z hz, hcursor⟩

/-- **The first page.** -/
theorem seen_first {s₀ : Sys} {a : Uuid} (hs : OrderlyInv s₀ a) {limit : ℤ} {x : Sys × Reader}
    (h : readStep a (s₀, .start) (.call limit) = some x) : Seen s₀ a (s₀.accepted a).length x := by
  obtain ⟨-, hrow, p, hp, rfl⟩ := readStep_call h
  obtain ⟨hle, hnext⟩ := @page_le a s₀ hs none limit _ fun row hrow _ => (hs.seqNum_mem hrow).2
  rw [show (Reader.start.place.cursor) = none from rfl] at hp
  rw [← hp] at hle hnext
  refine ⟨hs, hrow, Keyset.Place.after_ne_start _, List.prefix_rfl, ?_, ?_, p.1, rfl, hle, ?_⟩
  · intro c hc
    obtain ⟨hpos, hle, -⟩ := hnext c (Keyset.Place.after_eq_at.mp hc)
    exact ⟨hpos, hle⟩
  · show 0 + 1 + pagesLeft (.after p.2) ≤ _
    cases hc : p.2 with
    | none => simp [pagesLeft, Keyset.Place.after]
    | some c =>
      obtain ⟨hpos, hle, -⟩ := hnext c hc
      simp only [pagesLeft, Keyset.Place.after]
      omega
  · have hcovered := (Keyset.Covered.begin hs.nums).page (by simp) (pageLimit_pos limit)
    rw [show (Keyset.Place.start : Keyset.Place ℤ).cursor = none from rfl, ← hp] at hcovered
    exact hcovered

/-- **Every step** of the service and of the reader. -/
theorem seen_step {s₀ : Sys} {a : Uuid} {n : ℕ} {x y : Sys × Reader} {act : ReadAct}
    (hx : Seen s₀ a n x) (h : readStep a x act = some y)
    (hok : act.orderly x.1 = true) : Seen s₀ a n y := by
  obtain ⟨listed, hitems, hle, hcovered⟩ := hx.covered
  cases act with
  | service act =>
    obtain ⟨t, ht, rfl⟩ := Option.map_eq_some_iff.mp h
    have hsys := step_cases ht
    have ht' := orderlyInv_step hx.service ht hok
    refine ⟨ht', ?_, hx.started, hx.history.trans (hsys.log a), hx.cursor, hx.calls, listed, hitems,
      hle, ?_⟩
    · exact ((hsys.row a).change hx.service.auctions).isSome hx.auction
    · refine hcovered.grow (fun row hrow => ?_) ht'.nums
      exact (hsys.committed.filter _).subset hrow
  | call limit =>
    obtain ⟨hdone, hrow, p, hp, rfl⟩ := readStep_call h
    obtain ⟨c, hc⟩ : ∃ c, x.2.place = .at c := by
      cases hplace : x.2.place with
      | start => exact absurd hplace hx.started
      | «at» c => exact ⟨c, rfl⟩
      | done => exact absurd hplace hdone
    obtain ⟨hpos, hcn⟩ := hx.cursor c hc
    have hcursor : x.2.place.cursor = some c := by rw [hc]; rfl
    obtain ⟨hbelow, hnext⟩ := @page_le a x.1 hx.service (some c) limit n
      fun row _ hlt => (hlt c rfl).le.trans hcn
    rw [hcursor] at hp
    rw [← hp] at hbelow hnext
    refine ⟨hx.service, hrow, Keyset.Place.after_ne_start _, hx.history, ?_, ?_, listed ++ p.1, ?_, ?_,
      ?_⟩
    · intro c' hc'
      obtain ⟨hpos', hle', -⟩ := hnext c' (Keyset.Place.after_eq_at.mp hc')
      exact ⟨hpos', hle'⟩
    · -- the cursor has gone down
      have hcalls := hx.calls
      rw [hc] at hcalls
      show x.2.calls + 1 + pagesLeft (.after p.2) ≤ _
      cases hc' : p.2 with
      | none =>
        simp only [pagesLeft, Keyset.Place.after] at hcalls ⊢
        omega
      | some c' =>
        obtain ⟨hpos', -, hlt⟩ := hnext c' hc'
        have hlt := hlt c rfl
        simp only [pagesLeft, Keyset.Place.after] at hcalls ⊢
        omega
    · rw [List.map_append, hitems]
    · intro row hrow
      exact (List.mem_append.mp hrow).elim (hle row) (hbelow row)
    · have hcovered' := hcovered.page hdone (pageLimit_pos limit)
      rw [hcursor, ← hp] at hcovered'
      exact hcovered'

/-! ### The end of the reading -/

/-- What an item shows of an accepted bid: the bid, the bidder, the number and the amount. -/
def itemFacts (i : BidHistoryItem) : Uuid × Uuid × ℕ × DecStr :=
  (i.bidId, i.bidderId, i.sequenceNum, i.amount)

/-- The same of an acceptance. -/
def acceptFacts (e : Accept) : Uuid × Uuid × ℕ × DecStr :=
  (e.argv.bidId, e.argv.bidderId, e.seq, e.argv.amount)

/-- An item shows what was accepted. -/
theorem itemFacts_of_row {s : Sys} {a : Uuid} (hs : OrderlyInv s a) {row : Bid} {e : Accept}
    (he : e ∈ s.accepted a) (h : RowOfAccept row e) : itemFacts (historyItem row) = acceptFacts e := by
  obtain ⟨c, hc, hacc⟩ := hs.calls.history a e he
  obtain ⟨n, -, -, hprint, -⟩ := wholeCents_spec (hs.cents _ c hc)
  have hamount : e.argv.amount = .dec n := hacc.amount.trans hprint
  have hvalue := h.amount
  rw [hamount] at hvalue
  have hitem : toDecimalStr (some (.decimal row.amount)) = e.argv.amount := by
    rw [hamount]
    cases hrow : row.amount with
    | nan =>
      rw [hrow] at hvalue
      cases hvalue
    | dec m hfits =>
      rw [hrow] at hvalue
      rw [toDecimalStr_cents]
      have hcents : (n : ℚ) / 100 = m / 100 := Number.fin.inj hvalue
      have hsame : (n : ℚ) = m := by linarith
      exact congrArg DecStr.dec (by exact_mod_cast hsame.symm)
  simp only [itemFacts, historyItem, acceptFacts, h.bidId, h.bidderId, h.sequenceNum, hitem]

/-- At the end the numbers that are listed are those of the bids accepted at the beginning. -/
theorem seqNums_of_done {s₀ : Sys} {a : Uuid} (hs₀ : OrderlyInv s₀ a) (hquiet : Quiet s₀ a)
    {x : Sys × Reader} (hx : OrderlyInv x.1 a) {listed : List Bid}
    (hle : ∀ row ∈ listed, seqNum row ≤ (s₀.accepted a).length)
    (hcovered : Keyset.Covered seqNum (acceptedBids s₀.pg a) (acceptedBids x.1.pg a) listed .done) :
    listed.map (·.sequenceNum) = (s₀.accepted a).reverse.map (·.seq) := by
  have hsorted : (listed.map (·.sequenceNum)).Pairwise (· > ·) := by
    rw [List.pairwise_map]
    exact hcovered.sorted.imp fun h => Int.ofNat_lt.mp h
  have hnumbered : ((s₀.accepted a).reverse.map (·.seq)) =
      (List.range' 1 (s₀.accepted a).length).reverse := by
    rw [List.map_reverse, hs₀.follows.numbered]
  have hreverse : ((s₀.accepted a).reverse.map (·.seq)).Pairwise (· > ·) := by
    rw [hnumbered, List.pairwise_reverse]
    exact List.pairwise_lt_range'
  refine List.Perm.eq_of_pairwise (fun x y _ _ hxy hyx => absurd hxy (not_lt.mpr hyx.le)) hsorted hreverse ?_
  refine (List.perm_ext_iff_of_nodup (hsorted.imp fun h => ne_of_gt h)
    (hreverse.imp fun h => ne_of_gt h)).mpr fun k => ?_
  rw [hnumbered, List.mem_reverse, ← (hs₀.numbers hquiet).mem_iff, List.mem_map, List.mem_map]
  constructor
  · rintro ⟨row, hrow, rfl⟩
    -- a number of the beginning is that of a row of the beginning
    obtain ⟨hpos, -⟩ := hx.seqNum_mem (hcovered.sound row hrow)
    have hmem : row.sequenceNum ∈ List.range' 1 (s₀.accepted a).length := by
      have := hle row hrow
      simp only [seqNum] at hpos this
      rw [List.mem_range'_1]
      omega
    exact List.mem_map.mp ((hs₀.numbers hquiet).mem_iff.mpr hmem)
  · rintro ⟨row, hrow, rfl⟩
    exact ⟨row, hcovered.done rfl row hrow, rfl⟩

/-- An acceptance with a number of the beginning is one of the beginning. -/
theorem mem_of_seq_le {s t : Sys} {a : Uuid} (ht : Follows t a) (hpre : s.accepted a <+: t.accepted a)
    {e : Accept} (he : e ∈ t.accepted a) (hle : e.seq ≤ (s.accepted a).length) : e ∈ s.accepted a := by
  obtain ⟨i, hi, rfl⟩ := List.getElem_of_mem he
  have hnum : (t.accepted a)[i].seq = 1 + i := by
    have hget := List.getElem_of_eq ht.numbered (by simpa using hi)
    simpa using hget
  have hlt : i < (s.accepted a).length := by omega
  rw [← hpre.getElem hlt]
  exact List.getElem_mem hlt

/-- **The reader has the whole history**: in an orderly run, from a moment on at which no accepted bid
is on its way, a reader who pages through the history of an auction can go on until he is done, needs at
most one page more than there are bids, and has then exactly the bids accepted until that moment, newest
first, whatever is accepted and committed between his pages. -/
theorem history_reads_all {now : ℤ} {users : List Uuid} {s₀ : Sys}
    (hs : Reach step (fun s act _ => orderly s act = true) (.initial now users) s₀) {a : Uuid}
    (hquiet : Quiet s₀ a) {limit : ℤ} {x₁ x : Sys × Reader}
    (hfirst : readStep a (s₀, .start) (.call limit) = some x₁)
    (hrun : Reach (readStep a) (fun x act _ => act.orderly x.1 = true) x₁ x) :
    (x.2.place = .done → x.2.items.map itemFacts = (s₀.accepted a).reverse.map acceptFacts) ∧
    (x.2.place ≠ .done → ∀ limit, ∃ y, readStep a x (.call limit) = some y) ∧
    x.2.calls ≤ (s₀.accepted a).length + 1 := by
  have hs₀ := orderlyInv_of_reach hs a
  have hx : Seen s₀ a (s₀.accepted a).length x :=
    hrun.invariant (fun hx hstep hok => seen_step hx hstep hok) (seen_first hs₀ hfirst)
  refine ⟨fun hdone => ?_, fun hplace limit => ?_, (Nat.le_add_right _ _).trans hx.calls⟩
  · obtain ⟨listed, hitems, hle, hcovered⟩ := hx.covered
    rw [hdone] at hcovered
    have hseqs := seqNums_of_done hs₀ hquiet hx.service hle hcovered
    rw [hitems, List.map_map]
    refine Keyset.map_eq_of_keys hseqs ?_ fun row hrow => ?_
    · rw [List.map_reverse, hs₀.follows.numbered, List.nodup_reverse]
      exact List.nodup_range'
    · obtain ⟨e, he, hof⟩ := exists_accept hx.service (hcovered.sound row hrow)
      have hseq : e.seq ≤ (s₀.accepted a).length := by
        have := hle row hrow
        rw [seqNum, ← hof.sequenceNum] at this
        exact_mod_cast this
      refine ⟨e, List.mem_reverse.mpr (mem_of_seq_le hx.service.follows hx.history he hseq),
        hof.sequenceNum, itemFacts_of_row hx.service he hof⟩
  · obtain ⟨row, hrow⟩ := Option.ne_none_iff_exists'.mp hx.auction
    rw [readStep, if_neg hplace, getBidHistory_eq, hrow]
    exact ⟨_, rfl⟩

/-! ### A run -/

/-- A third bid on the camera is accepted and committed between two pages. -/
def thirdBid : List ReadAct :=
  [.service (.bid 102 5 7 { amount := .ofNumber (.fin 40) }), .service (.bidStep 102 false),
    .service (.bidStep 102 false), .service (.bidStep 102 false), .service (.bidStep 102 false),
    .service (.bidStep 102 false), .service (.bidStep 102 false), .call 50]

/-- The two bids that were crossed are read on two pages, without the third. -/
theorem history_reads_all_camera : ∃ s₀ : Sys, ∃ x : Sys × Reader,
    s₀.pg.bid.map (·.sequenceNum) = [2, 1] ∧ x.1.pg.bid.map (·.sequenceNum) = [2, 1, 3] ∧
    x.2.items.map (·.sequenceNum) = [2, 1] ∧
    x.2.items.map itemFacts = (s₀.accepted 5).reverse.map acceptFacts := by
  obtain ⟨s₀, hs₀, hp⟩ := exists_reach step (fun s act _ => orderly s act = true) crossedBids
    (s := .initial 1000000000 [1, 7, 8])
    (p := fun s₀ => s₀.pg.bid.map (·.sequenceNum) = [2, 1] ∧
      (∀ e ∈ s₀.accepted 5, (s₀.bids e.argv.bidId).all (fun c => !c.pc.running) = true) ∧
      (readStep 5 (s₀, .start) (.call 1)).any fun x₁ =>
        (runIf (readStep 5) (fun x act _ => act.orderly x.1 = true) thirdBid x₁).any fun x =>
          x.2.place = .done ∧ x.1.pg.bid.map (·.sequenceNum) = [2, 1, 3] ∧
            x.2.items.map (·.sequenceNum) = [2, 1])
    (by decide +kernel)
  obtain ⟨hseq, hquiet, hp⟩ := of_decide_eq_true hp
  obtain ⟨x₁, hfirst, hp⟩ := (Option.any_eq_true _ _).mp hp
  obtain ⟨x, hx, hp⟩ := (Option.any_eq_true _ _).mp hp
  obtain ⟨hdone, hlater, hitems⟩ := of_decide_eq_true hp
  exact ⟨s₀, x, hseq, hlater, hitems, (history_reads_all hs₀
    (quiet_of_all (callsInv_of_reach hs₀) hquiet) hfirst (reach_of_runIf hx)).1 hdone⟩

end OnlineAuction.System
