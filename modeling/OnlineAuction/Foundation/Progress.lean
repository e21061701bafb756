import OnlineAuction.Foundation.Runs
import Mathlib.Data.Set.Finite.Basic

/-!
# Machines that settle

What a machine has begun comes to an end when its steps use up a measure, and when it is never stuck
before the end. Parties that wait for one another are never all stuck when whoever waits does so for
a party of a lower rank.

## What is proved

* `Runs.invariant` — what holds at the start and is kept by every step, as it is counted or not, holds
  of every run with its count.
* `Runs.add_measure_le` — a run is no longer than the measure it starts with.
* `Settles.exists_final` — a machine that settles can reach its end, by good steps alone.
* `exists_ready` — among parties that wait for lower ones, one is ready.
* `finite_of_reach` — a set that each step adds finitely much to is finite in every state reached.
-/

namespace OnlineAuction.Foundation

universe u v

variable {S : Type u} {A : Type v} {step : S → A → Option S} {ok : S → A → S → Prop} {c : A → Bool}

/-- A run whose steps all meet the condition `ok`, with `n` of those that `c` counts. -/
inductive Runs (step : S → A → Option S) (ok : S → A → S → Prop) (c : A → Bool) : ℕ → S → S → Prop where
  /-- No step. -/
  | refl (s : S) : Runs step ok c 0 s s
  /-- One step more. -/
  | tail {n : ℕ} {s t u : S} {a : A} (h : Runs step ok c n s t) (hstep : step t a = some u)
    (hok : ok t a u) : Runs step ok c (n + (c a).toNat) s u

/-- A counted run reaches its end. -/
theorem Runs.reach {n : ℕ} {s t : S} (h : Runs step ok c n s t) : Reach step ok s t := by
  induction h with
  | refl => exact Reach.refl _
  | tail _ hstep hok ih => exact ih.trans (.single ⟨_, hstep, hok⟩)

/-- **The counted invariant rule.** -/
theorem Runs.invariant {I : ℕ → S → Prop}
    (hI : ∀ {n s a t}, I n s → step s a = some t → ok s a t → I (n + (c a).toNat) t) {n : ℕ} {s t : S}
    (h : Runs step ok c n s t) (hs : I 0 s) : I n t := by
  induction h with
  | refl => exact hs
  | tail _ hstep hok ih => exact hI (ih hs) hstep hok

/-- A run that meets a condition meets one that follows from it under an invariant. -/
theorem Runs.weaken {I : S → Prop} {ok' : S → A → S → Prop} {n : ℕ} {s t : S}
    (h : Runs step ok c n s t) (hI : ∀ {s a t}, I s → step s a = some t → ok s a t → I t)
    (hok : ∀ {s a t}, I s → ok s a t → ok' s a t) (hs : I s) : Runs step ok' c n s t := by
  induction h with
  | refl => exact .refl _
  | tail h hstep ha ih => exact (ih hs).tail hstep (hok (h.reach.invariant hI hs) ha)

theorem Runs.trans {m n : ℕ} {s t u : S} (h₁ : Runs step ok c m s t) (h₂ : Runs step ok c n t u) :
    Runs step ok c (m + n) s u := by
  induction h₂ with
  | refl => exact h₁
  | tail _ hstep hok ih =>
    rw [← Nat.add_assoc]
    exact (ih h₁).tail hstep hok

/-- A computed run counts its actions. -/
theorem runs_of_runIf [∀ s a t, Decidable (ok s a t)] {as : List A} {s t : S}
    (h : runIf step ok as s = some t) : Runs step ok c (as.countP c) s t := by
  induction as generalizing s with
  | nil => cases h; exact .refl _
  | cons a as ih =>
    simp only [runIf] at h
    split at h
    · rename_i u hu
      split_ifs at h with hok
      have hhead : Runs step ok c ((c a).toNat) s u := by
        simpa using (Runs.refl (c := c) s).tail hu hok
      rw [List.countP_cons, Nat.add_comm]
      cases hc : c a <;> rw [hc] at hhead <;> exact hhead.trans (ih h)
    · cases h

/-- **The measure rule**: under an invariant, when every step lowers a measure, a run is no longer
than the measure it starts with. -/
theorem Runs.add_measure_le {I : S → Prop} {μ : S → ℕ}
    (hI : ∀ {s a t}, I s → step s a = some t → ok s a t → I t)
    (hμ : ∀ {s a t}, I s → step s a = some t → ok s a t → μ t < μ s) {n : ℕ} {s t : S}
    (h : Runs step ok (fun _ => true) n s t) (hs : I s) : n + μ t ≤ μ s := by
  refine (h.invariant (I := fun n t => I t ∧ n + μ t ≤ μ s) ?_ ⟨hs, (Nat.zero_add _).le⟩).2
  rintro n t a u ⟨ht, hle⟩ hstep hok
  have hlt := hμ ht hstep hok
  exact ⟨hI ht hstep hok, by simp only [Bool.toNat_true]; omega⟩

/-- From `s` the machine settles: its runs are bounded, and until it is final some good step can be
taken. -/
structure Settles (step : S → A → Option S) (ok good : S → A → S → Prop) (final : S → Prop)
    (s : S) : Prop where
  /-- There is a longest run. -/
  bounded : ∃ N, ∀ {n t}, Runs step ok (fun _ => true) n s t → n ≤ N
  /-- It is not stuck. -/
  unstuck : ∀ {t}, Reach step ok s t → ¬ final t → ∃ a u, step t a = some u ∧ good t a u

/-- **A machine that settles can reach its end**, from wherever a run has led. -/
theorem Settles.exists_final {good : S → A → S → Prop} {final : S → Prop} {s : S}
    (h : Settles step ok good final s) (hgood : ∀ {s a t}, good s a t → ok s a t) {t : S} {n : ℕ}
    (ht : Runs step ok (fun _ => true) n s t) : ∃ u, Reach step good t u ∧ final u := by
  obtain ⟨N, hN⟩ := h.bounded
  -- induction on the number of steps that may still come
  induction hk : N - n using Nat.strong_induction_on generalizing t n with
  | _ k ih =>
    by_cases hfinal : final t
    · exact ⟨t, Reach.refl t, hfinal⟩
    · obtain ⟨a, u, hstep, hok⟩ := h.unstuck ht.reach hfinal
      have hu := ht.tail hstep (hgood hok)
      have hle := hN hu
      simp only [Bool.toNat_true] at hle hu
      obtain ⟨w, hw, hfinal'⟩ := ih (N - (n + 1)) (by omega) hu rfl
      exact ⟨w, Reach.trans (.single ⟨a, hstep, hok⟩) hw, hfinal'⟩

/-- **Waiting ends**: when every busy party that is not ready waits for a busy one of a lower rank,
one is ready. -/
theorem exists_ready {P : Type u} {B R : P → Prop} (rank : P → ℕ)
    (hwaits : ∀ p, B p → ¬ R p → ∃ q, B q ∧ rank q < rank p) {p : P} (hp : B p) :
    ∃ q, B q ∧ R q := by
  induction hk : rank p using Nat.strong_induction_on generalizing p with
  | _ k ih =>
    by_cases hready : R p
    · exact ⟨p, hp, hready⟩
    · obtain ⟨q, hq, hlt⟩ := hwaits p hp hready
      exact ih (rank q) (hk ▸ hlt) hq rfl

/-- **Finitely much in finitely many steps.** -/
theorem finite_of_reach {K : Type u} {X : S → Set K}
    (hX : ∀ {s a t}, step s a = some t → ∃ F : Set K, F.Finite ∧ X t ⊆ X s ∪ F) {s t : S}
    (h : Reach step ok s t) (hs : (X s).Finite) : (X t).Finite := by
  refine h.invariant (I := fun s => (X s).Finite) ?_ hs
  intro s a t hs hstep _
  obtain ⟨F, hF, hsub⟩ := hX hstep
  exact (hs.union hF).subset hsub

end OnlineAuction.Foundation
