import OnlineAuction.Bidding.Floor
import OnlineAuction.System.Amounts
import OnlineAuction.System.Auctions
import OnlineAuction.System.Calls

/-!
# The hash and the history of an auction

In a run in which a hash is neither lost nor opened again after its first bid, the hash follows
from the history; where no NaN is compared, its highest bid is the maximum of the amounts
accepted.

## What is proved

* `follows_step` — a step that remembers an auction keeps its hash and its history together.
* `priced_step` — a step that compares no NaN keeps the highest bid
  the maximum of the accepted amounts, by their exact values.
-/

namespace OnlineAuction.System

open OnlineAuction.Foundation OnlineAuction.Store OnlineAuction.Lifecycle OnlineAuction.Bidding

/-! ### Hash and history -/

/-- The hash of an auction follows from its history; a hash that was never opened, and a missing
one, have none. -/
structure Follows (s : Sys) (a : Uuid) : Prop where
  /-- Without a hash nothing was accepted. -/
  missing : s.redis.hash a = none → s.accepted a = []
  /-- A hash that was never opened: a close has made it. -/
  unopened : ∀ h, s.redis.hash a = some h → h.minIncrement = none →
    s.accepted a = [] ∧ h.highestBidder = none
  /-- A hash that was opened. -/
  opened : ∀ h, s.redis.hash a = some h → h.minIncrement ≠ none → Tracks h (s.accepted a)

/-- The start poll writes the hash of the auction `a`. -/
def Starts (s : Sys) (act : Act) (a : Uuid) : Prop :=
  act = .startStep false ∧ ∃ row rest dirty, s.starts = some ⟨(a, row) :: rest, dirty⟩

/-- A step remembers the auction `a`: it does not lose the hash, and the start poll does not write
it once a bid was accepted. -/
structure Remembers (s : Sys) (act : Act) (a : Uuid) : Prop where
  /-- The hash is not lost. -/
  kept : act ≠ .loseHash a
  /-- The hash is not opened again. -/
  started : Starts s act a → s.accepted a = []

/-- A hash that was never opened was so before the step, or a close has just made it. -/
theorem unopened_before {s t : Sys} {act : Act} {a : Uuid} (h : SysStep s act t) {h' : AuctionHash}
    (hh : t.redis.hash a = some h') (hinc : h'.minIncrement = none) :
    t.accepted a = s.accepted a ∧
      (s.redis.hash a = none ∧ h'.highestBid = none ∧ h'.highestBidder = none ∨
        ∃ h₀, s.redis.hash a = some h₀ ∧ h₀.minIncrement = none ∧
          h'.highestBid = h₀.highestBid ∧ h'.highestBidder = h₀.highestBidder) := by
  cases h.hash a with
  | kept hash log => exact ⟨log, Or.inr ⟨h', hash ▸ hh, hinc, rfl, rfl⟩⟩
  | opened _ _ hash | started _ _ hash =>
    obtain rfl := Option.some.inj (hash.symm.trans hh)
    cases hinc
  | booked _ _ _ _ _ _ hadmits hash =>
    obtain ⟨endTs, inc, hadm⟩ := hadmits
    obtain rfl := Option.some.inj (hash.symm.trans hh)
    cases hadm.hasIncrement.symm.trans hinc
  | closed _ _ _ _ hash log =>
    obtain rfl := Option.some.inj (hash.symm.trans hh)
    refine ⟨log, ?_⟩
    cases hold : s.redis.hash a with
    | none => exact Or.inl ⟨rfl, rfl, rfl⟩
    | some h₀ =>
      rw [hold] at hinc
      exact Or.inr ⟨h₀, rfl, hinc, rfl, rfl⟩
  | lost _ hash => cases hash.symm.trans hh

/-- A hash that was opened tracks the history, also after a step that does not open it again once a
bid was accepted. -/
theorem tracks_next {s t : Sys} {act : Act} {a : Uuid} (hs : AuctionsInv s) (h : SysStep s act t)
    (hopened : ∀ h, s.redis.hash a = some h → h.minIncrement ≠ none → Tracks h (s.accepted a))
    (hstarted : Starts s act a → s.accepted a = []) {h' : AuctionHash}
    (hh : t.redis.hash a = some h') (hinc : h'.minIncrement ≠ none) :
    Tracks h' (t.accepted a) := by
  have hinit : ∀ row h₀, s.accepted a = [] → t.accepted a = s.accepted a →
      t.redis.hash a = some (initRedisHash row h₀) → Tracks h' (t.accepted a) := by
    intro row h₀ hnone hlog hash
    obtain rfl := Option.some.inj (hash.symm.trans hh)
    rw [hlog, hnone]
    exact tracks_init row h₀
  cases h.hash a with
  | kept hash log =>
    rw [hash] at hh
    rw [log]
    exact hopened h' hh hinc
  | opened _ src hash log =>
    exact hinit _ _ (hs.accepted a (hs.pending a _ src (by simp)).1) log hash
  | started hact src hash log => exact hinit _ _ (hstarted ⟨hact, _, _, _, src⟩) log hash
  | booked _ _ _ _ _ hfound hadmits hash log =>
    obtain ⟨endTs, inc, hadm⟩ := hadmits
    obtain rfl := Option.some.inj (hash.symm.trans hh)
    have hopen := hopened _ hfound (by rw [hadm.hasIncrement]; simp)
    rw [log]
    exact hopen.book _
  | closed _ _ _ _ hash log =>
    obtain rfl := Option.some.inj (hash.symm.trans hh)
    rw [log]
    cases hold : s.redis.hash a with
    | none => rw [hold] at hinc; exact absurd rfl hinc
    | some h₀ => rw [hold] at hinc; exact (hopened h₀ hold hinc).setState _
  | lost _ hash => cases hash.symm.trans hh

/-- Hash and history stay together in a step that neither loses the hash nor opens it again once a
bid was accepted. -/
theorem follows_next {s t : Sys} {act : Act} {a : Uuid} (hs : AuctionsInv s) (hf : Follows s a)
    (h : SysStep s act t) (hlost : act = .loseHash a → s.accepted a = [])
    (hstarted : Starts s act a → s.accepted a = []) : Follows t a where
  missing := by
    intro hmissing
    cases h.hash a with
    | kept hash log =>
      rw [log]
      exact hf.missing (hash ▸ hmissing)
    | opened _ _ hash | started _ _ hash | booked _ _ _ _ _ _ _ hash | closed _ _ _ _ hash =>
      cases hash.symm.trans hmissing
    | lost hact _ log => exact log.trans (hlost hact)
  unopened := by
    intro h' hh hinc
    obtain ⟨hlog, ⟨hmissing, -, hbidder⟩ | ⟨h₀, hh₀, hinc₀, -, hbidder⟩⟩ :=
      unopened_before h hh hinc
    · exact ⟨hlog.trans (hf.missing hmissing), hbidder⟩
    · obtain ⟨hnone, hbidder₀⟩ := hf.unopened h₀ hh₀ hinc₀
      exact ⟨hlog.trans hnone, hbidder.trans hbidder₀⟩
  opened := fun _ hh hinc => tracks_next hs h hf.opened hstarted hh hinc

/-- **A remembered auction**: its hash and its history stay together. -/
theorem follows_step {s t : Sys} {act : Act} {a : Uuid} (hs : AuctionsInv s) (hf : Follows s a)
    (h : SysStep s act t) (hrem : Remembers s act a) : Follows t a :=
  follows_next hs hf h (fun hact => absurd hact hrem.kept) hrem.started

/-- An auction with an accepted bid has a hash that follows from its history. -/
theorem Follows.tracked {s : Sys} {a : Uuid} (hf : Follows s a) (hne : s.accepted a ≠ []) :
    ∃ h, s.redis.hash a = some h ∧ Tracks h (s.accepted a) := by
  obtain ⟨h, hh⟩ := Option.ne_none_iff_exists'.mp (mt hf.missing hne)
  exact ⟨h, hh, hf.opened h hh fun hinc => hne (hf.unopened h hh hinc).1⟩

/-- The history is numbered. -/
theorem Follows.numbered {s : Sys} {a : Uuid} (hf : Follows s a) :
    (s.accepted a).map (·.seq) = List.range' 1 (s.accepted a).length := by
  by_cases hne : s.accepted a = []
  · rw [hne]
    rfl
  · obtain ⟨h, -, htr⟩ := hf.tracked hne
    exact htr.numbered

theorem follows_initial (now : ℤ) (users : List Uuid) (a : Uuid) : Follows (.initial now users) a :=
  ⟨fun _ => rfl, (fun _ hh => by cases hh), fun _ hh => by cases hh⟩

/-! ### The highest bid -/

/-- A step runs the script of an open auction on a NaN: the amount is one, or the increment is one
and the amount is below the price. -/
def comparesNan (s : Sys) (act : Act) : Bool :=
  (scriptRun s act).any fun (c, argv) =>
    (s.redis.hash c.auctionId).any fun h => openFor h argv ∧ (argv.amount = .nan ∨
      h.minIncrement = some .nan ∧ ¬ currentPrice double h.highestBid ≤ tonumber double argv.amount)

/-- The highest bid is a price, and the maximum of the amounts accepted. -/
structure Priced (s : Sys) (a : Uuid) : Prop where
  /-- It is a price that a float printed. -/
  price : ∀ h d, s.redis.hash a = some h → h.highestBid = some d → Price d ∧ d.Printed
  /-- It is the maximum. -/
  maximum : ∀ h d, s.redis.hash a = some h → h.highestBid = some d →
    ∀ e ∈ s.accepted a, e.argv.amount.value ≤ d.value

/-- **A booked bid rises**: it is a price not below the highest bid. -/
theorem rise_of_booked {s : Sys} {b : Uuid} {c : Call} {endTs : ℤ} {h : AuctionHash} {d : DecStr}
    (hs : AuctionsInv s) (hcalls : CallsInv s) (hp : Priced s c.auctionId)
    (hok : comparesNan s (.bidStep b false) = false) (hc : s.bids b = some c)
    (hpc : c.pc = .evalsha endTs) (hh : s.redis.hash c.auctionId = some h)
    (hadm : Admits double h (c.argv b endTs)) (hd : h.highestBid = some d) :
    d.value ≤ (c.argv b endTs).amount.value ∧ Price (c.argv b endTs).amount ∧
      (c.argv b endTs).amount.Printed := by
  obtain ⟨endTs', inc, hadm⟩ := hadm
  have hopen : openFor h (c.argv b endTs) = true :=
    decide_eq_true ⟨hadm.state, by rw [hadm.hasEnd]; exact decide_eq_true hadm.notEnded⟩
  rw [comparesNan, scriptRun_of_evalsha hc hpc] at hok
  simp only [Option.any_some, hh, hopen, true_and, decide_eq_false_iff_not, not_or, not_and,
    not_not] at hok
  obtain ⟨hnan, hfall⟩ := hok
  have hprinted : (c.argv b endTs).amount.Printed := ⟨c.data.amount, toDecimalStr_float _⟩
  have hprice : Price (c.argv b endTs).amount := by
    rw [Call.argv, toDecimalStr_float] at hnan ⊢
    refine price_fixed2 (hcalls.positive b c hc) fun hval => hnan ?_
    rw [fixed2, hval]
  refine ⟨?_, hprice, hprinted⟩
  obtain ⟨hdp, hdprinted⟩ := hp.price h d hh hd
  apply value_le_of_tonumber_le hdprinted hprinted
  obtain ⟨row, hrow⟩ := Option.ne_none_iff_exists'.mp (hs.loaded b c hc (by rw [hpc]; rfl))
  have hinc := (hs.hashes _ row h hrow hh).minIncrement inc hadm.hasIncrement
  rcases (hs.rows _ row hrow).increment.printed with hnan' | ⟨m, hm, -, hdec⟩
  · have := hfall (by rw [hadm.hasIncrement, hinc, hnan'])
    rwa [hd] at this
  · exact current_le_of_admissible hadm hd hdp hprice ⟨m, hm, hinc.trans hdec⟩

/-- What is to be shown of a hash that is there. -/
theorem Priced.of_hash {t : Sys} {a : Uuid} {h : AuctionHash} (hash : t.redis.hash a = some h)
    (hbid : ∀ d, h.highestBid = some d →
      (Price d ∧ d.Printed) ∧ ∀ e ∈ t.accepted a, e.argv.amount.value ≤ d.value) : Priced t a where
  price := by
    intro h' d hh hd
    obtain rfl := Option.some.inj (hash.symm.trans hh)
    exact (hbid d hd).1
  maximum := by
    intro h' d hh hd
    obtain rfl := Option.some.inj (hash.symm.trans hh)
    exact (hbid d hd).2

/-- A hash that is opened has the highest bid zero, and nothing was accepted. -/
theorem priced_opened {t : Sys} {a : Uuid} {row : Auction} {h : AuctionHash}
    (hash : t.redis.hash a = some (initRedisHash row h)) (hnone : t.accepted a = []) :
    Priced t a := by
  refine .of_hash hash fun d hd => ?_
  cases hd
  refine ⟨⟨Or.inr ⟨0, le_rfl, rfl⟩, printed_zero⟩, ?_⟩
  rw [hnone]
  intro e he
  cases he

/-- **A step that compares no NaN** keeps the highest bid the maximum, when it does not open the
hash again once a bid was accepted. -/
theorem priced_step {s t : Sys} {act : Act} {a : Uuid} (hs : AuctionsInv s) (hcalls : CallsInv s)
    (hf : Follows s a) (hp : Priced s a) (h : SysStep s act t)
    (hstarted : Starts s act a → s.accepted a = [])
    (hok : ∀ c argv, scriptRun s act = some (c, argv) → c.auctionId = a →
      comparesNan s act = false) : Priced t a := by
  cases h.hash a with
  | kept hash log => exact ⟨hash ▸ hp.price, hash ▸ log ▸ hp.maximum⟩
  | opened hact src hash log =>
    exact priced_opened hash (log.trans (hs.accepted a (hs.pending a _ src (by simp)).1))
  | started hact src hash log =>
    exact priced_opened hash (log.trans (hstarted ⟨hact, _, _, _, src⟩))
  | booked hact src hpc hauction hfresh hfound hadmits hash log =>
    subst hauction hact
    have hopen : Tracks _ _ := hf.opened _ hfound (by
      obtain ⟨endTs, inc, hadm⟩ := hadmits
      rw [hadm.hasIncrement]
      simp)
    obtain ⟨hle, hprice, hprinted⟩ :=
      rise_of_booked hs hcalls hp (hok _ _ (scriptRun_of_evalsha src hpc) rfl) src hpc hfound
        hadmits hopen.highestBid
    refine .of_hash hash fun d hd => ?_
    cases hd
    refine ⟨⟨hprice, hprinted⟩, ?_⟩
    intro e he
    rw [log] at he
    rcases List.mem_append.mp he with he | he
    · exact Number.le_trans (hp.maximum _ _ hfound hopen.highestBid e he) hle
    · rw [List.mem_singleton.mp he]
      exact hprice.le_refl
  | closed hact src hpc htodo hash log =>
    refine .of_hash hash fun d hd => ?_
    rw [log]
    cases hold : s.redis.hash a with
    | none =>
      rw [hold] at hd
      cases hd
    | some h₀ =>
      rw [hold] at hd
      exact ⟨hp.price h₀ d hold hd, hp.maximum h₀ d hold hd⟩
  | lost _ hash =>
    exact ⟨(fun _ _ hh => by cases hash.symm.trans hh), fun _ _ hh => by cases hash.symm.trans hh⟩

theorem priced_initial (now : ℤ) (users : List Uuid) (a : Uuid) : Priced (.initial now users) a :=
  ⟨(fun _ _ hh => by cases hh), fun _ _ hh => by cases hh⟩

/-! ### Both -/

/-- What the runs keep that remember an auction and compare no NaN. -/
structure HistoryInv (s : Sys) (a : Uuid) : Prop where
  /-- The auctions. -/
  auctions : AuctionsInv s
  /-- The calls. -/
  calls : CallsInv s
  /-- The hash follows from the history. -/
  follows : Follows s a
  /-- The highest bid is the maximum. -/
  priced : Priced s a

theorem historyInv_step {s t : Sys} {act : Act} {a : Uuid} (hs : HistoryInv s a)
    (hstep : step s act = some t) (hrem : Remembers s act a) (hok : comparesNan s act = false) :
    HistoryInv t a where
  auctions := auctionsInv_step hs.auctions hstep
  calls := callsInv_step hs.calls hstep
  follows := follows_step hs.auctions hs.follows (step_cases hstep) hrem
  priced := priced_step hs.auctions hs.calls hs.follows hs.priced (step_cases hstep) hrem.started
    fun _ _ _ _ => hok

theorem historyInv_initial (now : ℤ) (users : List Uuid) (a : Uuid) :
    HistoryInv (.initial now users) a where
  auctions := auctionsInv_initial now users
  calls := callsInv_initial now users
  follows := follows_initial now users a
  priced := priced_initial now users a

end OnlineAuction.System
