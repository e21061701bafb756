import Mathlib.Logic.Relation
import Mathlib.Tactic.SplitIfs

/-!
# Runs of a machine

A machine is a partial step function: `step s a = some t` when the action `a` is
enabled in `s` and leads to `t`. What one wants of its runs is often true only of
the runs whose steps meet a condition, so reachability (`Reach`) carries one: `ok s a t`
is asked of every step. A run of an explicit list of actions is computed by `runIf`.

## What is proved

* `Reach.invariant` — what holds at the start and is preserved by every step that
  meets the condition holds of every state reached.
* `Reach.relates` — a preorder that relates the two ends of every such step relates
  the two ends of every run.
* `Reach.simulates` — when every such step of one machine is matched by a run of another, every run
  is.
* `reach_of_runIf` — the computed runs are runs.
-/

namespace OnlineAuction.Foundation

open Relation

universe u v

variable {S : Type u} {A : Type v} {step : S → A → Option S} {ok : S → A → S → Prop}

/-- One step that meets the condition `ok`. -/
def StepIf (step : S → A → Option S) (ok : S → A → S → Prop) (s t : S) : Prop :=
  ∃ a, step s a = some t ∧ ok s a t

/-- `t` is reached from `s` by steps that all meet the condition `ok`. -/
def Reach (step : S → A → Option S) (ok : S → A → S → Prop) : S → S → Prop :=
  ReflTransGen (StepIf step ok)

theorem Reach.refl (s : S) : Reach step ok s s := ReflTransGen.refl

theorem Reach.trans {s t u : S} (h₁ : Reach step ok s t) (h₂ : Reach step ok t u) :
    Reach step ok s u := ReflTransGen.trans h₁ h₂

/-- A run that meets a condition meets a weaker one. -/
theorem Reach.weaken {ok' : S → A → S → Prop} {s t : S} (h : Reach step ok s t)
    (hok : ∀ {s a t}, ok s a t → ok' s a t) : Reach step ok' s t := by
  refine ReflTransGen.mono ?_ s t h
  rintro s t ⟨a, hstep, ha⟩
  exact ⟨a, hstep, hok ha⟩

/-- **The invariant rule.** -/
theorem Reach.invariant {I : S → Prop}
    (hI : ∀ {s a t}, I s → step s a = some t → ok s a t → I t) {s t : S}
    (h : Reach step ok s t) (hs : I s) : I t := by
  induction h with
  | refl => exact hs
  | tail _ hstep ih =>
    obtain ⟨a, ha, hok⟩ := hstep
    exact hI ih ha hok

/-- An invariant whose preservation uses a second one. -/
theorem Reach.invariant_with {I J : S → Prop}
    (hJ : ∀ {s a t}, J s → step s a = some t → ok s a t → J t)
    (hI : ∀ {s a t}, J s → I s → step s a = some t → ok s a t → I t) {s t : S}
    (h : Reach step ok s t) (hsJ : J s) (hsI : I s) : I t :=
  (h.invariant (I := fun s => J s ∧ I s)
    (fun hs ha hok => ⟨hJ hs.1 ha hok, hI hs.1 hs.2 ha hok⟩) ⟨hsJ, hsI⟩).2

/-- A run that meets a condition meets one that follows from it under an invariant. -/
theorem Reach.weaken_with {ok' : S → A → S → Prop} {I : S → Prop}
    (hI : ∀ {s a t}, I s → step s a = some t → ok s a t → I t)
    (hok : ∀ {s a t}, I s → ok s a t → ok' s a t) {s t : S} (h : Reach step ok s t) (hs : I s) :
    Reach step ok' s t := by
  induction h with
  | refl => exact Reach.refl s
  | tail h hstep ih =>
    obtain ⟨a, ha, ho⟩ := hstep
    exact ih.tail ⟨a, ha, hok (Reach.invariant hI h hs) ho⟩

/-- **The relation rule**: under an invariant, a reflexive and transitive relation
that every step respects relates the ends of every run. -/
theorem Reach.relates {I : S → Prop} {R : S → S → Prop} (hrefl : ∀ s, R s s)
    (htrans : ∀ {s t u}, R s t → R t u → R s u)
    (hI : ∀ {s a t}, I s → step s a = some t → ok s a t → I t)
    (hR : ∀ {s a t}, I s → step s a = some t → ok s a t → R s t) {s t : S}
    (h : Reach step ok s t) (hs : I s) : R s t := by
  have key : I t ∧ R s t := by
    induction h with
    | refl => exact ⟨hs, hrefl s⟩
    | tail _ hstep ih =>
      obtain ⟨a, ha, hok⟩ := hstep
      exact ⟨hI ih.1 ha hok, htrans ih.2 (hR ih.1 ha hok)⟩
  exact key.2

/-- **The simulation rule**: under an invariant, when every step of a machine is matched by some
moves `M` of another, which keep the relation `R` between the two, so is every run. -/
theorem Reach.simulates {T : Type*} {M : T → T → Prop} {I : S → Prop} {R : S → T → Prop}
    (hI : ∀ {s a t}, I s → step s a = some t → ok s a t → I t)
    (hR : ∀ {s a t x}, I s → step s a = some t → ok s a t → R s x →
      ∃ y, ReflTransGen M x y ∧ R t y) {s t : S}
    (h : Reach step ok s t) (hs : I s) {x : T} (hx : R s x) :
    ∃ y, ReflTransGen M x y ∧ R t y := by
  have key : I t ∧ ∃ y, ReflTransGen M x y ∧ R t y := by
    induction h with
    | refl => exact ⟨hs, x, ReflTransGen.refl, hx⟩
    | tail _ hstep ih =>
      obtain ⟨a, ha, hok⟩ := hstep
      obtain ⟨hinv, y, hxy, hy⟩ := ih
      obtain ⟨z, hyz, hz⟩ := hR hinv ha hok hy
      exact ⟨hI hinv ha hok, z, hxy.trans hyz, hz⟩
  exact key.2

/-- Run a list of actions, each enabled and meeting the condition. -/
def runIf (step : S → A → Option S) (ok : S → A → S → Prop) [∀ s a t, Decidable (ok s a t)] :
    List A → S → Option S
  | [], s => some s
  | a :: as, s =>
    match step s a with
    | some t => if ok s a t then runIf step ok as t else none
    | none => none

theorem reach_of_runIf [∀ s a t, Decidable (ok s a t)] {as : List A} {s t : S}
    (h : runIf step ok as s = some t) : Reach step ok s t := by
  induction as generalizing s with
  | nil => cases h; exact Reach.refl _
  | cons a as ih =>
    simp only [runIf] at h
    split at h
    · rename_i u hu
      split_ifs at h with hok
      exact ReflTransGen.head ⟨a, hu, hok⟩ (ih h)
    · cases h

/-- A computed run shows that a state with a decidable property is reached. -/
theorem exists_reach (step : S → A → Option S) (ok : S → A → S → Prop)
    [∀ s a t, Decidable (ok s a t)] (as : List A) {s : S} {p : S → Bool}
    (h : (runIf step ok as s).any p = true) : ∃ t, Reach step ok s t ∧ p t = true := by
  cases hr : runIf step ok as s with
  | none => rw [hr] at h; cases h
  | some t => rw [hr] at h; exact ⟨t, reach_of_runIf hr, h⟩

end OnlineAuction.Foundation
