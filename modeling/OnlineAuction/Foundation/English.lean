import OnlineAuction.Foundation.Book
import Mathlib.Logic.Function.Basic
import Mathlib.Logic.Relation

/-!
# The English auction

A lot is listed with its terms, an increment and maybe a reserve. It is opened at once or later,
takes the offers its book admits, and is closed: sold to the leader for a price that reaches the
reserve, or kept by its seller. At the reserve itself the seller may do either. A house has any
number of lots, and a move is a move of one of them.

## What is proved

* `Book.pairwise_rises` — each bid lies the increment above every one before it.
* `Lot.Move.fair` — what holds of a closed lot (`Lot.Fair`), whatever moves led to it.
* `Lot.Move.before` — a move keeps the terms and extends the book (`Lot.Before`), and a closed lot
  stays as it is.
* `House.reach_lot` — what the moves of each lot keep, the runs of a house keep.
-/

namespace OnlineAuction.Foundation

open Relation

universe u v w

/-- What is fixed when a lot is listed. -/
structure Terms (α : Type v) where
  /-- The minimal increment. -/
  increment : α
  /-- The reserve, if there is one. -/
  reserve : Option α

variable {ι : Type w} {β : Type u} {α : Type v} [AddCommMonoid α] [LinearOrder α]

/-- **Each bid lies the increment above every one before it.** -/
theorem Book.pairwise_rises [IsOrderedAddMonoid α] {m : α} (k : Book β m) (hm : 0 ≤ m) :
    (k.bids.map Prod.snd).Pairwise fun a b => a + m ≤ b := by
  refine (List.pairwise_cons.mp (?_ : (0 :: k.bids.map Prod.snd).Pairwise _)).2
  have : IsTrans α fun a b => a + m ≤ b :=
    ⟨fun _ _ _ h₁ h₂ => h₁.trans ((le_add_of_nonneg_right hm).trans h₂)⟩
  exact List.isChain_iff_pairwise.mp k.rises

/-- The price is not negative. -/
theorem Book.price_nonneg [IsOrderedAddMonoid α] {m : α} (k : Book β m) (hm : 0 ≤ m) :
    0 ≤ k.price := by
  rw [Book.price, lastAmount]
  cases hl : k.bids.getLast? with
  | none => exact le_rfl
  | some b =>
    have hmem : b.2 ∈ k.bids.map Prod.snd := List.mem_map_of_mem (List.mem_of_getLast? hl)
    exact (List.pairwise_cons.mp (k.pairwise_le hm)).1 b.2 hmem

/-- A lot of an auction house. -/
inductive Lot (β : Type u) (α : Type v) [AddCommMonoid α] [LinearOrder α] where
  /-- It is not listed. -/
  | unlisted
  /-- It is listed and waits. -/
  | waiting (terms : Terms α)
  /-- It takes offers. -/
  | opened (terms : Terms α) (book : Book β terms.increment)
  /-- It is closed, and sold to the buyer if there is one. -/
  | closed (terms : Terms α) (book : Book β terms.increment) (buyer : Option β)

namespace Lot

/-- The moves of a lot. -/
inductive Move : Lot β α → Lot β α → Prop where
  /-- It is listed. -/
  | list (terms : Terms α) : Move .unlisted (.waiting terms)
  /-- It is listed and opened. -/
  | listOpen (terms : Terms α) : Move .unlisted (.opened terms .empty)
  /-- It is opened. -/
  | start (terms : Terms α) : Move (.waiting terms) (.opened terms .empty)
  /-- It takes an offer. -/
  | offer {terms : Terms α} {book : Book β terms.increment} {b : β} {a : α} (h : book.Admits b a) :
    Move (.opened terms book) (.opened terms (book.record b a h.1))
  /-- It is sold to the leader. -/
  | sell {terms : Terms α} {book : Book β terms.increment} {b : β} (hleader : book.leader = some b)
    (hreserve : ∀ r ∈ terms.reserve, r ≤ book.price) :
    Move (.opened terms book) (.closed terms book (some b))
  /-- It is kept: nobody has bid, or the price does not exceed the reserve. -/
  | keep {terms : Terms α} {book : Book β terms.increment}
    (h : book.leader = none ∨ ∃ r ∈ terms.reserve, book.price ≤ r) :
    Move (.opened terms book) (.closed terms book none)

/-- A closed lot went to the leader for the reserve at least, or was not worth more than it. -/
def Fair : Lot β α → Prop
  | .closed terms book (some b) =>
    book.leader = some b ∧ ∀ r ∈ terms.reserve, r ≤ book.price
  | .closed terms book none =>
    book.leader = none ∨ ∃ r ∈ terms.reserve, book.price ≤ r
  | _ => True

/-- Every move leads to a fair lot. -/
theorem Move.fair {l l' : Lot β α} (h : Move l l') : l'.Fair := by
  cases h with
  | sell hleader hreserve => exact ⟨hleader, hreserve⟩
  | keep h => exact h
  | _ => trivial

/-- The terms of a lot and its bids so far. -/
def record : Lot β α → Option (Terms α) × List (β × α)
  | .unlisted => (none, [])
  | .waiting terms => (some terms, [])
  | .opened terms book => (some terms, book.bids)
  | .closed terms book _ => (some terms, book.bids)

/-- `l` comes before `l'`: the terms stay, the bids become more, and what is closed stays. -/
structure Before (l l' : Lot β α) : Prop where
  /-- The terms stay. -/
  terms : ∀ terms, l.record.1 = some terms → l'.record.1 = some terms
  /-- The bids become more. -/
  bids : l.record.2 <+: l'.record.2
  /-- A closed lot stays. -/
  closed : ∀ {terms book buyer}, l = .closed terms book buyer → l' = l

theorem Before.refl (l : Lot β α) : Before l l := ⟨fun _ h => h, List.prefix_rfl, fun _ => rfl⟩

theorem Before.trans {l l' l'' : Lot β α} (h₁ : Before l l') (h₂ : Before l' l'') :
    Before l l'' where
  terms := fun terms h => h₂.terms terms (h₁.terms terms h)
  bids := h₁.bids.trans h₂.bids
  closed := by
    intro terms book buyer h
    have heq := h₁.closed h
    exact (h₂.closed (heq.trans h)).trans heq

/-- **A move goes on** from where the lot was. -/
theorem Move.before {l l' : Lot β α} (h : Move l l') : Before l l' := by
  cases h with
  | list | listOpen =>
    refine ⟨?_, List.nil_prefix, ?_⟩
    · rintro _ ⟨⟩
    · rintro _ _ _ ⟨⟩
  | start => exact ⟨fun _ h => h, List.prefix_rfl, by rintro _ _ _ ⟨⟩⟩
  | offer => exact ⟨fun _ h => h, List.prefix_append _ _, by rintro _ _ _ ⟨⟩⟩
  | sell | keep => exact ⟨fun _ h => h, List.prefix_rfl, by rintro _ _ _ ⟨⟩⟩

/-- What holds of a sold lot: its buyer made the last bid, each bid before it lies the increment
below the price, and the price reaches the reserve. -/
theorem Fair.sold [IsOrderedAddMonoid α] {terms : Terms α} {book : Book β terms.increment} {b : β}
    (h : Fair (.closed terms book (some b))) (hm : 0 ≤ terms.increment) :
    ∃ earlier, book.bids = earlier ++ [(b, book.price)] ∧
      (∀ e ∈ earlier, e.2 + terms.increment ≤ book.price) ∧
      ∀ r ∈ terms.reserve, r ≤ book.price := by
  obtain ⟨hleader, hreserve⟩ := h
  obtain ⟨l, hl, hb⟩ := Option.map_eq_some_iff.mp hleader
  obtain ⟨earlier, hbids⟩ := List.getLast?_eq_some_iff.mp hl
  have hprice : book.price = l.2 := by rw [Book.price, hbids, lastAmount_append]
  have hlast : l = (b, book.price) := Prod.ext hb hprice.symm
  refine ⟨earlier, hlast ▸ hbids, ?_, hreserve⟩
  intro e he
  have hrises := book.pairwise_rises hm
  rw [hbids, List.map_append, List.pairwise_append] at hrises
  rw [hprice]
  exact hrises.2.2 e.2 (List.mem_map_of_mem he) l.2 (by simp)

/-- What holds of a lot that was kept: no bid exceeds the reserve. -/
theorem Fair.kept [IsOrderedAddMonoid α] {terms : Terms α} {book : Book β terms.increment}
    (h : Fair (.closed terms book none)) (hm : 0 ≤ terms.increment) :
    book.bids = [] ∨ ∃ r ∈ terms.reserve, ∀ e ∈ book.bids, e.2 ≤ r := by
  rcases h with hleader | ⟨r, hr, hle⟩
  · rw [Book.leader, Option.map_eq_none_iff] at hleader
    exact Or.inl (List.getLast?_eq_none_iff.mp hleader)
  · exact Or.inr ⟨r, hr, fun e he => (book.le_price hm he).trans hle⟩

end Lot

/-- An auction house: its lots. -/
abbrev House (ι : Type w) (β : Type u) (α : Type v) [AddCommMonoid α] [LinearOrder α] := ι → Lot β α

namespace House

/-- The house before any lot is listed. -/
def empty : House ι β α := fun _ => .unlisted

variable [DecidableEq ι]

/-- One lot moves. -/
inductive Move : House ι β α → House ι β α → Prop where
  /-- The lot `i` moves. -/
  | lot {house : House ι β α} {i : ι} {l : Lot β α} (h : (house i).Move l) :
    Move house (Function.update house i l)

/-- **One lot after the other**: a preorder that every move of a lot respects relates each lot
before and after a run of the house. -/
theorem reach_lot {R : Lot β α → Lot β α → Prop} (hrefl : ∀ l, R l l)
    (htrans : ∀ {l l' l''}, R l l' → R l' l'' → R l l'') (hR : ∀ {l l'}, Lot.Move l l' → R l l')
    {house house' : House ι β α} (h : ReflTransGen Move house house') (i : ι) :
    R (house i) (house' i) := by
  induction h with
  | refl => exact hrefl _
  | tail _ hmove ih =>
    cases hmove with
    | @lot j l hmove =>
      by_cases hij : i = j
      · subst hij
        rw [Function.update_self]
        exact htrans ih (hR hmove)
      · rw [Function.update_of_ne hij]
        exact ih

/-- Every lot goes on from where it was. -/
theorem before {house house' : House ι β α} (h : ReflTransGen Move house house') (i : ι) :
    (house i).Before (house' i) := reach_lot Lot.Before.refl Lot.Before.trans Lot.Move.before h i

/-- Every lot that a run from the empty house leads to is fair. -/
theorem fair {house : House ι β α} (h : ReflTransGen Move empty house) (i : ι) : (house i).Fair :=
  reach_lot (R := fun l l' => l.Fair → l'.Fair) (fun _ => id) (fun h₁ h₂ h => h₂ (h₁ h))
    (fun hmove _ => hmove.fair) h i trivial

end House

end OnlineAuction.Foundation
