import OnlineAuction.Foundation.English

/-!
# An auctioneer

The auctioneer of a house answers offers one after the other: he takes an offer, or says why he does
not. Between two offers lots are listed, opened and closed. A session is what he answered, in order.
What is too low for him is up to him (`short`), but he takes nothing below the price plus the increment.

## What is proved

* `Session.of_moves` — a run of the house in which nobody bids is a session without offers.
* `Session.record_eq` — the bids of a lot are the offers for it that were taken, in order.
-/

namespace OnlineAuction.Foundation

open Relation

universe u v w x

/-- What an auctioneer says to an offer. -/
inductive Ruling where
  /-- He takes it. -/
  | taken
  /-- The lot does not take offers. -/
  | notOpen
  /-- Its time is over. -/
  | timeUp
  /-- The bidder leads, and does not offer more. -/
  | own
  /-- It is too low. -/
  | low
  deriving DecidableEq

/-- An offer. -/
structure Offer (ι : Type w) (κ : Type x) (β : Type u) (α : Type v) where
  /-- What it is known by. -/
  key : κ
  /-- The lot. -/
  lot : ι
  /-- Who makes it. -/
  bidder : β
  /-- What he offers. -/
  amount : α
  /-- Whether it comes too late. -/
  timeUp : Bool

variable {ι : Type w} {κ : Type x} {β : Type u} {α : Type v} [AddCommMonoid α] [LinearOrder α]

namespace Lot

section Rule

variable [DecidableEq β] (short : α → α → α → Prop) [∀ p m a, Decidable (short p m a)]

/-- The answer to an offer, in the order of the checks. -/
def rule (timeUp : Bool) (b : β) (a : α) : Lot β α → Ruling
  | .opened terms book =>
    if timeUp = true then .timeUp
    else if book.leader = some b ∧ a ≤ book.price then .own
    else if short book.price terms.increment a then .low
    else .taken
  | _ => .notOpen

variable {short}

/-- **What is taken**: an offer in time for an open lot, which its book admits. -/
theorem admits_of_rule (hshort : ∀ p m a, ¬ short p m a → p + m ≤ a) {timeUp : Bool} {b : β} {a : α}
    {l : Lot β α} (h : l.rule short timeUp b a = .taken) :
    timeUp = false ∧ ∃ terms book, l = .opened terms book ∧ book.Admits b a := by
  cases l with
  | opened terms book =>
    simp only [rule] at h
    split_ifs at h with hover hown hlow
    refine ⟨Bool.eq_false_iff.mpr hover, terms, book, rfl, hshort _ _ _ hlow, ?_⟩
    intro hleader
    exact not_le.mp fun hle => hown ⟨hleader, hle⟩
  | unlisted | waiting | closed => cases h

end Rule

/-- The lot after an offer that was taken. -/
def offered (b : β) (a : α) : Lot β α → Lot β α
  | .opened terms book =>
    if h : book.price + terms.increment ≤ a then .opened terms (book.record b a h)
    else .opened terms book
  | l => l

theorem offered_opened {terms : Terms α} {book : Book β terms.increment} {b : β} {a : α}
    (h : book.price + terms.increment ≤ a) :
    offered b a (.opened terms book) = .opened terms (book.record b a h) := dif_pos h

/-- **A move that bids** is an offer that was taken. -/
theorem Move.eq_offered {l l' : Lot β α} (h : Move l l') {b : β} {a : α}
    (hrecord : l'.record.2 = l.record.2 ++ [(b, a)]) : l' = l.offered b a := by
  have hne : l'.record.2 ≠ l.record.2 := by
    intro heq
    have hlen := congrArg List.length (heq.symm.trans hrecord)
    simp at hlen
  cases h with
  | @offer terms book b' a' hadm =>
    obtain ⟨rfl, rfl⟩ : b' = b ∧ a' = a := by simpa [record] using hrecord
    exact (offered_opened hadm.1).symm
  | list | listOpen | start | sell | keep => exact absurd rfl hne

end Lot

/-! ### Sessions -/

section Session

variable [DecidableEq ι] [DecidableEq β] (short : α → α → α → Prop)
  [∀ p m a, Decidable (short p m a)]

/-- What the auctioneer of a house answers until it is another. -/
inductive Session (house : House ι β α) : List (Offer ι κ β α × Ruling) → House ι β α → Prop where
  /-- Nothing. -/
  | nil : Session house [] house
  /-- A lot moves, and nobody bids. -/
  | move {l : List (Offer ι κ β α × Ruling)} {house' house'' : House ι β α}
    (h : Session house l house') (hmove : House.Move house' house'')
    (hquiet : ∀ i, (house'' i).record.2 = (house' i).record.2) : Session house l house''
  /-- An offer is taken. -/
  | taken {l : List (Offer ι κ β α × Ruling)} {house' : House ι β α} {o : Offer ι κ β α}
    (h : Session house l house')
    (hrule : (house' o.lot).rule short o.timeUp o.bidder o.amount = .taken) :
    Session house (l ++ [(o, .taken)])
      (Function.update house' o.lot ((house' o.lot).offered o.bidder o.amount))
  /-- An offer is not taken. -/
  | refused {l : List (Offer ι κ β α × Ruling)} {house' : House ι β α} {o : Offer ι κ β α}
    (h : Session house l house')
    (hrule : (house' o.lot).rule short o.timeUp o.bidder o.amount ≠ .taken) :
    Session house (l ++ [(o, (house' o.lot).rule short o.timeUp o.bidder o.amount)]) house'

/-- The offers for the lot `i` that were taken. -/
def takenFor (i : ι) (l : List (Offer ι κ β α × Ruling)) : List (β × α) :=
  (l.filter fun e => e.1.lot = i ∧ e.2 = .taken).map fun e => (e.1.bidder, e.1.amount)

namespace Session

variable {short} {house house' house'' : House ι β α} {l l' : List (Offer ι κ β α × Ruling)}

/-- One session after the other. -/
theorem append (h : Session short house l house') (h' : Session short house' l' house'') :
    Session short house (l ++ l') house'' := by
  induction h' with
  | nil => rwa [List.append_nil]
  | move _ hmove hquiet ih => exact .move ih hmove hquiet
  | taken _ hrule ih =>
    rw [← List.append_assoc]
    exact .taken ih hrule
  | refused _ hrule ih =>
    rw [← List.append_assoc]
    exact .refused ih hrule

/-- **A run in which nobody bids** is a session without offers. -/
theorem of_moves (h : ReflTransGen House.Move house house')
    (hquiet : ∀ i, (house' i).record.2 = (house i).record.2) :
    Session short house ([] : List (Offer ι κ β α × Ruling)) house' := by
  induction h with
  | refl => exact .nil
  | @tail mid last hmoves hmove ih =>
    -- the bids in between lie between those of the ends
    have hmid : ∀ i, (mid i).record.2 = (house i).record.2 := by
      intro i
      have hfrom := (House.before hmoves i).bids
      have hto := (House.before (.single hmove) i).bids
      rw [hquiet i] at hto
      exact hto.eq_of_length (le_antisymm hto.length_le hfrom.length_le)
    exact .move (ih hmid) hmove fun i => (hquiet i).trans (hmid i).symm

/-- **The bids of a lot** are the offers for it that were taken. -/
theorem record_eq (hshort : ∀ p m a, ¬ short p m a → p + m ≤ a) (h : Session short house l house')
    (i : ι) : (house' i).record.2 = (house i).record.2 ++ takenFor i l := by
  induction h with
  | nil => simp [takenFor]
  | move _ _ hquiet ih => rw [hquiet, ih]
  | refused _ hrule ih => simp [takenFor, hrule, ih]
  | @taken l mid o _ hrule ih =>
    by_cases hi : o.lot = i
    · subst hi
      obtain ⟨-, terms, book, hl, hadm⟩ := Lot.admits_of_rule hshort hrule
      rw [hl] at ih
      rw [Function.update_self, hl, Lot.offered_opened hadm.1]
      simp only [Lot.record, Book.bids_record] at ih ⊢
      simp [takenFor, ih]
    · rw [Function.update_of_ne (Ne.symm hi), ih]
      simp [takenFor, hi]

end Session

end Session

end OnlineAuction.Foundation
