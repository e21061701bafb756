import OnlineAuction.Bidding.PlaceBid
import OnlineAuction.Bidding.ScriptText
import OnlineAuction.Lifecycle.Polls

/-!
# What the program makes of Redis' replies

The places where the program takes the texts of a reply apart: `place_bid` the values of the script
and the hash after a rejection (`bid_service.py`), the close poll the end in the hash
(`scheduler_service.py`), and `close_auction` the leader and his bid (`auction_service.py`). `none` is
an exception.

## What is proved

* `parseResult_values`, `rejectionText_encode`, `extendedEndText_encode` and `assignWinnerText_encode`
  — of the texts of a structure each makes what the model makes of the structure.
-/

namespace OnlineAuction.System

open OnlineAuction.Foundation OnlineAuction.Store OnlineAuction.Lifecycle OnlineAuction.Bidding

/-- The texts of a hash, as `HGETALL` returns them. -/
def encodeHash (data : Option AuctionHash) : Option Fields := data.map fun h => encodeFields h.get

theorem pyInt_nat (n : ℕ) : pyInt pySpace 10 (intText n) = some (n : ℤ) :=
  pyInt_intText (fun _ hc => keepsNumerals_pySpace _ (Or.inl hc)) n

theorem intText_ne_nil (n : ℤ) : intText n ≠ [] := by
  cases n with
  | ofNat n => exact Nat.toDigits_ne_nil
  | negSucc n => exact List.cons_ne_nil _ _

/-! ### The values of the script -/

/-- `int(value)`. -/
def intOfValue : Value → Option ℤ
  | .int n => some n
  | .bulk text => pyInt pySpace 10 text
  | .nil => none

/-- `str(value)`. -/
def strOfValue : Value → Text
  | .int n => intText n
  | .bulk text => text
  | .nil => "None".toList

/-- What `place_bid` finds in the values of the script. -/
inductive ScriptResult where
  /-- `UNKNOWN_ERROR`. -/
  | unknownError
  /-- `ACCEPTED`, with the price and the sequence number. -/
  | accepted (currentPrice : Text) (sequenceNum : ℤ)
  /-- `REJECTED`, with the reason. -/
  | rejected (reason : Text)
  deriving DecidableEq

/-- `place_bid`, from the values of the script on. -/
def parseResult : List Value → Option ScriptResult
  | status :: price :: rest =>
    match intOfValue status with
    | none => none
    | some code =>
      if code = 1 then
        match rest with
        | seq :: _ => (intOfValue seq).map (.accepted (strOfValue price))
        | [] => some (.accepted (strOfValue price) 0)
      else some (.rejected (strOfValue price))
  | _ => some .unknownError

/-- The text of the current price; that of `None` is `None`. -/
def priceText (currentPrice : Option DecStr) : Text := currentPrice.elim "None".toList DecStr.text

/-- What a call knows when it has parsed the values. -/
def resultOf : Pc → Option ScriptResult
  | .flushBid _ verdict => some (.accepted (priceText verdict.currentPrice) verdict.sequenceNum)
  | .hgetall _ reason => some (.rejected reason.text)
  | _ => none

/-- **The values of the script** are parsed as the model goes on from its reply. -/
theorem parseResult_values (reply : Reply) (endTs : ℤ) :
    parseResult reply.values = resultOf (Call.afterScript endTs (.ok reply)) := by
  cases reply with
  | accepted price seq endTs => rfl
  | replayed price seq =>
    have hprice : strOfValue (.ofText (price.map DecStr.text)) = priceText price := by
      cases price <;> rfl
    cases seq with
    | none => rfl
    | some seq =>
      have hseq : intOfValue (.ofText (some (intText seq))) = some (seq : ℤ) := pyInt_nat seq
      simp only [Reply.values, Option.map_some, parseResult, hprice, hseq]
      rfl
  | rejected reason => rfl

/-! ### The hash after a rejection -/

/-- `place_bid`, from the hash on that it reads after a rejection: the price and the sequence number. -/
def rejectionText (data : Option Fields) : Option (Text × ℤ) :=
  let price := (data.bind fun fields => fields HashField.highestBid.text).getD "0.00".toList
  let seq := (data.bind fun fields => fields HashField.sequenceNum.text).getD "0".toList
  (if seq = [] then some 0 else pyInt pySpace 10 seq).map fun n => (price, n)

theorem rejectionText_encode (reason : Reason) (data : Option AuctionHash) :
    rejectionText (encodeHash data) = some (priceText (Call.rejection reason data).currentPrice,
      ((Call.rejection reason data).sequenceNum : ℤ)) := by
  have hprice : ((encodeHash data).bind fun fields => fields HashField.highestBid.text).getD
      "0.00".toList = priceText (Call.rejection reason data).currentPrice := by
    cases data with
    | none => rfl
    | some h => cases hb : h.highestBid <;>
        simp [encodeHash, AuctionHash.get, Call.rejection, priceText, hb, DecStr.text]
  have hseq : ((encodeHash data).bind fun fields => fields HashField.sequenceNum.text).getD
      "0".toList = intText (Call.rejection reason data).sequenceNum := by
    cases data with
    | none =>
      show "0".toList = intText 0
      decide
    | some h => cases hn : h.sequenceNum <;>
        simp [encodeHash, AuctionHash.get, Call.rejection, hn, intText]
  simp only [rejectionText, hprice, hseq]
  rw [if_neg (intText_ne_nil _), pyInt_nat]
  rfl

/-! ### The end in the hash -/

/-- `int(float(text))`. -/
def secondsOfText (text : Text) : Option ℤ :=
  match (floatOfText text).map PyFloat.val with
  | some (.fin q) => some (truncate q)
  | _ => none

/-- The close poll, from the hash on that it reads: the end that was moved, if one was. -/
def extendedEndText (nowUtc : ℤ) (data : Option Fields) : Option (Option ℤ) :=
  match data.bind fun fields => fields HashField.endTs.text with
  | none | some [] => some none
  | some text =>
    (secondsOfText text).map fun redisEnd =>
      if unixSeconds nowUtc < redisEnd then some (redisEnd * 1000000) else none

theorem secondsOfText_intText (n : ℤ) : secondsOfText (intText n) = some (readSeconds n) := by
  rw [secondsOfText, floatOfText, readNumber_intText keepsNumerals_pySpace]
  rfl

theorem extendedEndText_encode (nowUtc : ℤ) (data : Option AuctionHash) :
    extendedEndText nowUtc (encodeHash data) = some (extendedEnd nowUtc data) := by
  have hfield : ((encodeHash data).bind fun fields => fields HashField.endTs.text) =
      (data.bind (·.endTs)).map intText := by
    cases data with
    | none => rfl
    | some h => simp [encodeHash, AuctionHash.get]
  rw [extendedEndText, hfield, extendedEnd]
  cases data.bind (·.endTs) with
  | none => rfl
  | some endTs =>
    obtain ⟨c, cs, htext⟩ := List.exists_cons_of_ne_nil (intText_ne_nil endTs)
    simp only [Option.map_some, htext]
    rw [← htext, secondsOfText_intText]
    rfl

/-! ### The leader and his bid -/

/-- `close_auction`, from the hash on that it reads up to its flush. -/
def assignWinnerText (data : Option Fields) (auction : Auction) : Option AuctionObj :=
  match data with
  | none => some (.load { auction with state := .closed })
  | some fields =>
    let highestBidder := (fields HashField.highestBidder.text).getD []
    let highestBidStr := (fields HashField.highestBid.text).getD "0".toList
    if highestBidder = [] then some (.load { auction with state := .closed })
    else
      match floatOfText highestBidStr, uuidOfText highestBidder with
      | some highestBid, some winnerId =>
        some ⟨{ auction with state := .closed, winnerId := some winnerId }, some (.float highestBid)⟩
      | _, _ => none

theorem assignWinnerText_encode {data : Option AuctionHash}
    (hbidder : ∀ h b, data = some h → h.highestBidder = some (some b) → IsUuid b) (auction : Auction) :
    assignWinnerText (encodeHash data) auction = some (assignWinner data auction) := by
  cases data with
  | none => rfl
  | some h =>
    have hbid : floatOfText ((h.highestBid.map DecStr.text).getD "0".toList) =
        some (h.highestBid.getD (.dec 0)).toFloat := by
      cases h.highestBid with
      | none => decide +kernel
      | some s =>
        rw [Option.map_some, Option.getD_some, floatOfText, readNumber_text keepsNumerals_pySpace]
        rfl
    simp only [encodeHash, Option.map_some, assignWinnerText, encodeFields_text, AuctionHash.get,
      assignWinner, hbid]
    cases hb : h.highestBidder with
    | none => rfl
    | some bidder =>
      cases bidder with
      | none => rfl
      | some b =>
        simp only [Option.map_some, Option.getD_some, bidderText]
        simp [uuidText_ne_nil b, uuidOfText_uuidText (hbidder h b rfl hb)]

end OnlineAuction.System
