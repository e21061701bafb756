import OnlineAuction.Foundation.Runs
import Mathlib.Data.List.Basic

/-!
# Observers of a machine

Any number of observers watch a machine. A step of the machine may tell them something (`hear`),
and an observer takes steps of its own (`own`), in which it reads the state of the machine and
leaves it. The observers know nothing of one another, so what holds of all of them is shown for one
at a time.

## What is proved

* `Watch.invariant` — a relation between the machine and one observer that holds when the observer
  joins, and is kept by the steps of both, holds of every observer in every run.
* `Watch.simulates` — when a machine and each of its observers are shown step by step by another, so
  are they in every run.
-/

namespace OnlineAuction.Foundation

open Relation

universe u v w

variable {S O : Type u} {A : Type v} {J B : Type w}

/-- How observers watch a machine. -/
structure Watch (S O : Type u) (A : Type v) (J B : Type w) where
  /-- The machine. -/
  step : S → A → Option S
  /-- How an observer begins. -/
  enter : J → O
  /-- What a step of the machine does to an observer. -/
  hear : S → A → S → O → O
  /-- What an observer does itself. -/
  own : S → O → B → Option O

/-- A machine with its observers. -/
structure Watched (S O : Type u) where
  /-- The machine. -/
  core : S
  /-- The observers, in the order in which they joined. -/
  observers : List O

/-- The steps of both. -/
inductive WatchAct (A : Type v) (J B : Type w) where
  /-- The machine. -/
  | core (a : A)
  /-- An observer joins. -/
  | join (j : J)
  /-- The `k`-th observer. -/
  | own (k : ℕ) (b : B)

namespace Watch

variable (W : Watch S O A J B)

/-- One step of the machine or of an observer. -/
def next (w : Watched S O) : WatchAct A J B → Option (Watched S O)
  | .core a => (W.step w.core a).map fun t => ⟨t, w.observers.map (W.hear w.core a t)⟩
  | .join j => some { w with observers := w.observers ++ [W.enter j] }
  | .own k b => (w.observers[k]?.bind fun o => W.own w.core o b).map fun o =>
    { w with observers := w.observers.set k o }

variable {W} {ok : Watched S O → WatchAct A J B → Watched S O → Prop}

/-- **One observer at a time**: the rule for what holds between the machine and each observer. -/
theorem invariant {I : S → Prop} {P : S → O → Prop}
    (hcore : ∀ {w a t}, I w.core → W.step w.core a = some t →
      ok w (.core a) ⟨t, w.observers.map (W.hear w.core a t)⟩ →
      I t ∧ ∀ o ∈ w.observers, P w.core o → P t (W.hear w.core a t o))
    (hjoin : ∀ {s j}, I s → P s (W.enter j))
    (hown : ∀ {w k b o o' w'}, I w.core → P w.core o → w.observers[k]? = some o →
      W.own w.core o b = some o' → ok w (.own k b) w' → P w.core o') {w w' : Watched S O}
    (h : Reach W.next ok w w') (hI : I w.core) (hP : ∀ o ∈ w.observers, P w.core o) :
    I w'.core ∧ ∀ o ∈ w'.observers, P w'.core o := by
  refine h.invariant (I := fun w => I w.core ∧ ∀ o ∈ w.observers, P w.core o) ?_ ⟨hI, hP⟩
  rintro w act w' ⟨hI, hP⟩ hstep hok
  cases act with
  | core a =>
    obtain ⟨t, ht, rfl⟩ := Option.map_eq_some_iff.mp hstep
    obtain ⟨hI', hkept⟩ := hcore hI ht hok
    refine ⟨hI', ?_⟩
    intro o ho
    obtain ⟨o₀, ho₀, rfl⟩ := List.mem_map.mp ho
    exact hkept o₀ ho₀ (hP o₀ ho₀)
  | join j =>
    cases hstep
    refine ⟨hI, ?_⟩
    intro o ho
    rcases List.mem_append.mp ho with ho | ho
    · exact hP o ho
    · rw [List.mem_singleton.mp ho]
      exact hjoin hI
  | own k b =>
    obtain ⟨o', ho', rfl⟩ := Option.map_eq_some_iff.mp hstep
    obtain ⟨o₀, hk, hown'⟩ := Option.bind_eq_some_iff.mp ho'
    refine ⟨hI, ?_⟩
    intro o ho
    rcases List.mem_or_eq_of_mem_set ho with ho | rfl
    · exact hP o ho
    · exact hown (w := w) hI (hP o₀ (List.mem_of_getElem? hk)) hk hown' hok

section Simulation

variable {S' O' : Type u} {W' : Watch S' O' A J B} {R : S' → S → Prop} {P : S → O → Prop} {f : O → O'}
  {ok' : S' → WatchAct A J B → Prop}

/-- **The simulation rule** for observers: `R` is kept between the two machines, and the observers of
one are the images under `f` of those of the other, which keep `P`. -/
theorem simulates
    (hcore : ∀ {s' s a t'}, R s' s → W'.step s' a = some t' → ok' s' (.core a) →
      ∃ t, W.step s a = some t ∧ R t' t ∧
        ∀ o, P s o → W'.hear s' a t' (f o) = f (W.hear s a t o) ∧ P t (W.hear s a t o))
    (hjoin : ∀ {s' s j}, R s' s → ok' s' (.join j) → W'.enter j = f (W.enter j) ∧ P s (W.enter j))
    (hown : ∀ {s' s o b o'}, R s' s → P s o → W'.own s' (f o) b = some o' →
      ∃ o₁, W.own s o b = some o₁ ∧ o' = f o₁ ∧ P s o₁)
    {w₀' w' : Watched S' O'} {w₀ : Watched S O}
    (h : Reach W'.next (fun w act _ => ok' w.core act) w₀' w') (hR : R w₀'.core w₀.core)
    (hf : w₀'.observers = w₀.observers.map f) (hP : ∀ o ∈ w₀.observers, P w₀.core o) :
    ∃ w, Reach W.next (fun _ _ _ => True) w₀ w ∧ R w'.core w.core ∧
      w'.observers = w.observers.map f ∧ ∀ o ∈ w.observers, P w.core o := by
  refine h.invariant (I := fun w' => ∃ w, Reach W.next (fun _ _ _ => True) w₀ w ∧ R w'.core w.core ∧
    w'.observers = w.observers.map f ∧ ∀ o ∈ w.observers, P w.core o) ?_
    ⟨w₀, Reach.refl _, hR, hf, hP⟩
  rintro x act y ⟨w, hw, hR, hf, hP⟩ hstep hok
  cases act with
  | core a =>
    obtain ⟨t', ht', rfl⟩ := Option.map_eq_some_iff.mp hstep
    obtain ⟨t, ht, hRt, hheard⟩ := hcore hR ht' hok
    refine ⟨⟨t, w.observers.map (W.hear w.core a t)⟩, hw.tail ⟨.core a, ?_, trivial⟩, hRt, ?_, ?_⟩
    · simp only [next, ht, Option.map_some]
    · rw [hf, List.map_map, List.map_map]
      exact List.map_congr_left fun o ho => (hheard o (hP o ho)).1
    · intro o ho
      obtain ⟨o₀, ho₀, rfl⟩ := List.mem_map.mp ho
      exact (hheard o₀ (hP o₀ ho₀)).2
  | join j =>
    cases hstep
    obtain ⟨henter, hPj⟩ := hjoin hR hok
    refine ⟨⟨w.core, w.observers ++ [W.enter j]⟩, hw.tail ⟨.join j, rfl, trivial⟩, hR, ?_, ?_⟩
    · simp [hf, henter]
    · intro o ho
      rcases List.mem_append.mp ho with ho | ho
      · exact hP o ho
      · exact List.mem_singleton.mp ho ▸ hPj
  | own k b =>
    obtain ⟨o', ho', rfl⟩ := Option.map_eq_some_iff.mp hstep
    obtain ⟨o₀', hk', hown'⟩ := Option.bind_eq_some_iff.mp ho'
    rw [hf, List.getElem?_map, Option.map_eq_some_iff] at hk'
    obtain ⟨o₀, hk, rfl⟩ := hk'
    obtain ⟨o₁, hstep₁, rfl, hP₁⟩ := hown hR (hP o₀ (List.mem_of_getElem? hk)) hown'
    refine ⟨⟨w.core, w.observers.set k o₁⟩, hw.tail ⟨.own k b, ?_, trivial⟩, hR, ?_, ?_⟩
    · simp only [next, hk, Option.bind_some, hstep₁, Option.map_some]
    · rw [hf, List.map_set]
    · intro o ho
      rcases List.mem_or_eq_of_mem_set ho with ho | rfl
      · exact hP o ho
      · exact hP₁

end Simulation

end Watch

end OnlineAuction.Foundation
