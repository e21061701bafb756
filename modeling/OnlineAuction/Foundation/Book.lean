import Mathlib.Algebra.Order.Monoid.Defs
import Mathlib.Data.List.Chain

/-!
# The book of an ascending auction

An ascending auction keeps a book of the bids it accepted, in order. Each accepted bid
is at least a fixed increment above the one before it, the first at least the
increment above zero. A `Book` is a list of bids that carries this as a proof, over
any ordered amounts; its last bid gives the price and the leader. `Book.Admits` says
which offers the auction accepts: at least the increment above the price, and from the
leader only a strictly higher amount.

## What is proved

* `Book.pairwise_le` and `Book.le_price` — with an increment that is not negative, the
  amounts do not fall, and the price is their maximum.
-/

namespace OnlineAuction.Foundation

universe u v

variable {β : Type u} {α : Type v} [AddCommMonoid α]

/-- The amount of the last bid of a list, or zero. -/
def lastAmount (bids : List (β × α)) : α := (bids.getLast?.map Prod.snd).getD 0

@[simp] theorem lastAmount_append (bids : List (β × α)) (b : β × α) :
    lastAmount (bids ++ [b]) = b.2 := by simp [lastAmount]

theorem getLast?_amounts (bids : List (β × α)) :
    (0 :: bids.map Prod.snd).getLast? = some (lastAmount bids) := by
  induction bids using List.reverseRecOn with
  | nil => rfl
  | append_singleton bids b _ => simp [List.getLast?_cons]

variable [LinearOrder α]

/-- A book of accepted bids, each at least `m` above the one before. -/
structure Book (β : Type u) (m : α) where
  /-- The bidders and amounts, in the order of acceptance. -/
  bids : List (β × α)
  /-- Each amount is at least `m` above the one before, the first above zero. -/
  rises : (0 :: bids.map Prod.snd).IsChain fun a b => a + m ≤ b

namespace Book

variable {m : α}

/-- The book before any bid. -/
def empty : Book β m := ⟨[], List.isChain_singleton 0⟩

/-- The price: the amount of the last bid, zero before the first. -/
def price (k : Book β m) : α := lastAmount k.bids

/-- The leader: the bidder of the last bid. -/
def leader (k : Book β m) : Option β := k.bids.getLast?.map Prod.fst

/-- The offers the auction accepts. -/
def Admits (k : Book β m) (b : β) (a : α) : Prop :=
  k.price + m ≤ a ∧ (k.leader = some b → k.price < a)

/-- Record an offer at least the increment above the price. -/
def record (k : Book β m) (b : β) (a : α) (h : k.price + m ≤ a) : Book β m where
  bids := k.bids ++ [(b, a)]
  rises := by
    rw [List.map_append, ← List.cons_append, List.isChain_append]
    refine ⟨k.rises, List.isChain_singleton a, ?_⟩
    intro x hx y hy
    rw [getLast?_amounts, Option.mem_some_iff] at hx
    obtain rfl : y = a := by simpa using hy.symm
    exact hx ▸ h

@[simp] theorem bids_record (k : Book β m) (b : β) (a : α) (h : k.price + m ≤ a) :
    (k.record b a h).bids = k.bids ++ [(b, a)] := rfl

section Ordered

variable [IsOrderedAddMonoid α]

/-- With an increment that is not negative, the amounts do not fall. -/
theorem pairwise_le (k : Book β m) (hm : 0 ≤ m) :
    (0 :: k.bids.map Prod.snd).Pairwise fun a b => a ≤ b :=
  List.isChain_iff_pairwise.mp (k.rises.imp fun _ _ h => (le_add_of_nonneg_right hm).trans h)

/-- **The price is the maximum** of the amounts in the book. -/
theorem le_price (k : Book β m) (hm : 0 ≤ m) {b : β × α} (hb : b ∈ k.bids) : b.2 ≤ k.price := by
  obtain ⟨l, c, hl⟩ := List.eq_nil_or_concat k.bids |>.resolve_left (List.ne_nil_of_mem hb)
  have hk := (List.pairwise_cons.mp (k.pairwise_le hm)).2
  rw [price, hl, List.concat_eq_append, lastAmount_append]
  rw [hl, List.concat_eq_append] at hb hk
  rw [List.map_append, List.pairwise_append] at hk
  rcases List.mem_append.mp hb with h | h
  · exact hk.2.2 _ (List.mem_map_of_mem h) _ (by simp)
  · rw [List.mem_singleton.mp h]

end Ordered

end Book

end OnlineAuction.Foundation
