import Mathlib.Algebra.Order.Monoid.Defs
import Mathlib.Data.List.Basic

/-!
# Offers in any order

An ascending auction stands at a price, with a leader. An offer that is admitted, at least the
increment above the price and strictly above it for the leader, moves the price to its amount and
makes its bidder the leader; any other offer changes nothing. `Standing.run` makes the offers of a
list, one after the other. Which offers are admitted depends on their order; what is proved here
does not.

## What is proved

* `Standing.lt_run` — after all offers, each of them is below the price plus the increment.
* `Standing.run_of_top` — an offer at least the increment above the price and above all others
  wins, wherever it stands in the list.
-/

namespace OnlineAuction.Foundation

universe u v

/-- Where an auction stands. -/
structure Standing (β : Type u) (α : Type v) where
  /-- The price. -/
  price : α
  /-- The leader, if there is one. -/
  leader : Option β

namespace Standing

variable {β : Type u} {α : Type v} [DecidableEq β] [AddCommMonoid α] [LinearOrder α]

/-- The offers an auction with the increment `m` admits. -/
def Admits (m : α) (s : Standing β α) (b : β) (a : α) : Prop :=
  s.price + m ≤ a ∧ (s.leader = some b → s.price < a)

instance (m : α) (s : Standing β α) (b : β) (a : α) : Decidable (s.Admits m b a) :=
  inferInstanceAs (Decidable (_ ∧ _))

/-- An offer is made. -/
def offer (m : α) (s : Standing β α) (b : β) (a : α) : Standing β α :=
  if s.Admits m b a then ⟨a, some b⟩ else s

/-- The offers of a list are made, in its order. -/
def run (m : α) (s : Standing β α) (offers : List (β × α)) : Standing β α :=
  offers.foldl (fun s o => s.offer m o.1 o.2) s

@[simp] theorem run_nil (m : α) (s : Standing β α) : s.run m [] = s := rfl

@[simp] theorem run_cons (m : α) (s : Standing β α) (o : β × α) (offers : List (β × α)) :
    s.run m (o :: offers) = (s.offer m o.1 o.2).run m offers := rfl

theorem run_append (m : α) (s : Standing β α) (l₁ l₂ : List (β × α)) :
    s.run m (l₁ ++ l₂) = (s.run m l₁).run m l₂ := List.foldl_append

theorem offer_of_admits {m : α} {s : Standing β α} {b : β} {a : α} (h : s.Admits m b a) :
    s.offer m b a = ⟨a, some b⟩ := if_pos h

theorem offer_of_not_admits {m : α} {s : Standing β α} {b : β} {a : α} (h : ¬ s.Admits m b a) :
    s.offer m b a = s := if_neg h

variable [IsOrderedCancelAddMonoid α] {m : α}

omit [DecidableEq β] in
/-- With a positive increment an offer is admitted when it is high enough, whoever leads. -/
theorem admits_iff (hm : 0 < m) (s : Standing β α) (b : β) (a : α) :
    s.Admits m b a ↔ s.price + m ≤ a :=
  ⟨fun h => h.1, fun h => ⟨h, fun _ => (lt_add_of_pos_right s.price hm).trans_le h⟩⟩

/-- An offer does not lower the price. -/
theorem price_le_offer (hm : 0 < m) (s : Standing β α) (b : β) (a : α) :
    s.price ≤ (s.offer m b a).price := by
  by_cases h : s.Admits m b a
  · rw [offer_of_admits h]
    exact (lt_add_of_pos_right s.price hm).le.trans h.1
  · rw [offer_of_not_admits h]

/-- After an offer was made, it is below the price plus the increment. -/
theorem lt_offer (hm : 0 < m) (s : Standing β α) (b : β) (a : α) :
    a < (s.offer m b a).price + m := by
  by_cases h : s.Admits m b a
  · rw [offer_of_admits h]
    exact lt_add_of_pos_right a hm
  · rw [offer_of_not_admits h]
    rwa [admits_iff hm, not_le] at h

theorem price_le_run (hm : 0 < m) (s : Standing β α) (offers : List (β × α)) :
    s.price ≤ (s.run m offers).price := by
  induction offers generalizing s with
  | nil => exact le_rfl
  | cons o offers ih => exact (s.price_le_offer hm o.1 o.2).trans (ih _)

/-- **No offer is left standing**: after all of them, each is below the price plus the
increment. -/
theorem lt_run (hm : 0 < m) (s : Standing β α) {offers : List (β × α)} {o : β × α}
    (ho : o ∈ offers) : o.2 < (s.run m offers).price + m := by
  induction offers generalizing s with
  | nil => cases ho
  | cons o' offers ih =>
    rw [run_cons]
    rcases List.mem_cons.mp ho with rfl | ho
    · have hle := (s.offer m o.1 o.2).price_le_run hm offers
      exact (s.lt_offer hm o.1 o.2).trans_le (by gcongr)
    · exact ih _ ho

omit [IsOrderedCancelAddMonoid α] in
/-- Offers at least the increment below `a` leave the price at least the increment below `a`. -/
theorem run_add_le {a : α} {s : Standing β α} (hs : s.price + m ≤ a) {offers : List (β × α)}
    (ho : ∀ o ∈ offers, o.2 + m ≤ a) : (s.run m offers).price + m ≤ a := by
  induction offers generalizing s with
  | nil => exact hs
  | cons o offers ih =>
    rw [run_cons]
    apply ih
    · by_cases h : s.Admits m o.1 o.2
      · rw [offer_of_admits h]
        exact ho o List.mem_cons_self
      · rw [offer_of_not_admits h]
        exact hs
    · intro o' ho'
      exact ho o' (List.mem_cons_of_mem _ ho')

/-- Offers at most the price change nothing. -/
theorem run_of_le (hm : 0 < m) {s : Standing β α} {offers : List (β × α)}
    (ho : ∀ o ∈ offers, o.2 ≤ s.price) : s.run m offers = s := by
  induction offers with
  | nil => rfl
  | cons o offers ih =>
    have hlow : ¬ s.Admits m o.1 o.2 := by
      rw [admits_iff hm, not_le]
      exact (ho o List.mem_cons_self).trans_lt (lt_add_of_pos_right _ hm)
    rw [run_cons, offer_of_not_admits hlow]
    apply ih
    intro o' ho'
    exact ho o' (List.mem_cons_of_mem _ ho')

/-- **The top offer wins** in every order. -/
theorem run_of_top (hm : 0 < m) {s : Standing β α} {b : β} {a : α} (hs : s.price + m ≤ a)
    {rest offers : List (β × α)} (hrest : ∀ o ∈ rest, o.2 + m ≤ a)
    (hperm : offers.Perm ((b, a) :: rest)) : s.run m offers = ⟨a, some b⟩ := by
  obtain ⟨before, after, rfl⟩ := List.append_of_mem (hperm.mem_iff.mpr List.mem_cons_self)
  have hothers : ∀ o, o ∈ before ∨ o ∈ after → o.2 + m ≤ a := by
    intro o ho
    have hp := (List.perm_middle.symm.trans hperm).cons_inv
    exact hrest o (hp.mem_iff.mp (List.mem_append.mpr ho))
  -- the offers before it leave room for it, and those after it are too low
  have hbefore := run_add_le hs fun o ho => hothers o (Or.inl ho)
  rw [run_append, run_cons, offer_of_admits ((admits_iff hm _ b a).mpr hbefore)]
  apply run_of_le hm
  intro o ho
  exact (le_add_of_nonneg_right hm.le).trans (hothers o (Or.inr ho))

end Standing

end OnlineAuction.Foundation
