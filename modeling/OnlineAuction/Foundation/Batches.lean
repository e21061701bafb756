import OnlineAuction.Foundation.Progress
import Mathlib.Data.Finset.Card

/-!
# Workers that take batches

A worker takes a batch of items that are due, at least so many or all of them, and does the whole
batch before it takes the next. Other steps come in between, by which more items become due. As it
may take any of them, one item may wait for long; what the worker gets done altogether is bounded
from below.

## What is proved

* `Worker.keeps_up` — after `n` batches every item that was due at the start is done, or `n` full
  batches of items are.
-/

namespace OnlineAuction.Foundation

universe u v w

variable {S : Type u} {A : Type v} {K : Type w}

/-- What a step does to the batch at hand. -/
inductive BatchMove (due done : S → K → Prop) (batch : S → Option (Finset K)) (limit : ℕ) (s t : S) :
    Bool → Prop where
  /-- It stays. -/
  | kept (h : batch t = batch s) : BatchMove due done batch limit s t false
  /-- A batch is taken: all items that are due, or as many as the limit. -/
  | taken {P : Finset K} (hidle : batch s = none) (h : batch t = some P)
    (hfull : limit ≤ P.card ∨ ∀ k, due s k → k ∈ P) : BatchMove due done batch limit s t false
  /-- The batch is done. -/
  | finished {P : Finset K} (hbatch : batch s = some P) (h : batch t = none)
    (hbefore : ∀ k ∈ P, ¬ done s k) (hafter : ∀ k ∈ P, done t k) :
    BatchMove due done batch limit s t true

/-- A machine in which a worker takes batches; `counts` tells the steps that finish one. -/
structure Worker (step : S → A → Option S) (ok : S → A → S → Prop) (I : S → Prop) (K : Type w)
    (limit : ℕ) where
  /-- The items that are due. -/
  due : S → K → Prop
  /-- The items that are done. -/
  done : S → K → Prop
  /-- The batch at hand. -/
  batch : S → Option (Finset K)
  /-- The steps that finish a batch. -/
  counts : A → Bool
  /-- The invariant is kept. -/
  inv_step : ∀ {s a t}, I s → step s a = some t → ok s a t → I t
  /-- What is done stays so. -/
  done_step : ∀ {s a t k}, I s → step s a = some t → ok s a t → done s k → done t k
  /-- What is due stays so until it is done. -/
  due_step : ∀ {s a t k}, I s → step s a = some t → ok s a t → due s k → due t k ∨ done t k
  /-- What a step does to the batch. -/
  batch_step : ∀ {s a t}, I s → step s a = some t → ok s a t →
    BatchMove due done batch limit s t (counts a)

namespace Worker

variable {step : S → A → Option S} {ok : S → A → S → Prop} {I : S → Prop} {limit : ℕ}
  (W : Worker step ok I K limit) {s : S}

/-- What `n` batches have brought about since `s`. -/
structure Kept (s : S) (n : ℕ) (t : S) : Prop where
  /-- The invariant. -/
  inv : I t
  /-- What was done stays so. -/
  done : ∀ k, W.done s k → W.done t k
  /-- What was due is due or done. -/
  due : ∀ k, W.due s k → W.due t k ∨ W.done t k
  /-- The batch at hand is full, or has all that was due. -/
  batch : ∀ P, W.batch t = some P → limit ≤ P.card ∨ ∀ k, W.due s k → W.done t k ∨ k ∈ P
  /-- All that was due is done, or `n` full batches are. -/
  count : (∀ k, W.due s k → W.done t k) ∨
    ∃ B : Finset K, limit * n ≤ B.card ∧ ∀ k ∈ B, ¬ W.done s k ∧ W.done t k

variable {W} in
/-- One step. -/
theorem kept_step [DecidableEq K] {n : ℕ} {t u : S} {a : A} (h : W.Kept s n t)
    (hstep : step t a = some u) (hok : ok t a u) : W.Kept s (n + (W.counts a).toNat) u := by
  have hmono : ∀ {k}, W.done t k → W.done u k := fun hk => W.done_step h.inv hstep hok hk
  have hdue : ∀ k, W.due s k → W.due u k ∨ W.done u k := by
    intro k hk
    rcases h.due k hk with hdue | hdone
    · exact W.due_step h.inv hstep hok hdue
    · exact Or.inr (hmono hdone)
  have hcount : (∀ k, W.due s k → W.done u k) ∨
      ∃ B : Finset K, limit * n ≤ B.card ∧ ∀ k ∈ B, ¬ W.done s k ∧ W.done u k := by
    rcases h.count with hall | ⟨B, hcard, hB⟩
    · exact Or.inl fun k hk => hmono (hall k hk)
    · exact Or.inr ⟨B, hcard, fun k hk => ⟨(hB k hk).1, hmono (hB k hk).2⟩⟩
  have hmove := W.batch_step h.inv hstep hok
  generalize W.counts a = counted at hmove ⊢
  refine ⟨W.inv_step h.inv hstep hok, fun k hk => hmono (h.done k hk), hdue, ?_, ?_⟩
  · intro P hP
    cases hmove with
    | kept heq =>
      rcases h.batch P (heq ▸ hP) with hfull | hall
      · exact Or.inl hfull
      · exact Or.inr fun k hk => (hall k hk).imp_left hmono
    | taken _ heq hfull =>
      obtain rfl := Option.some.inj (heq.symm.trans hP)
      refine hfull.imp_right fun hall k hk => ?_
      rcases h.due k hk with hdue | hdone
      · exact Or.inr (hall k hdue)
      · exact Or.inl (hmono hdone)
    | finished _ hnone => cases hnone.symm.trans hP
  · cases hmove with
    | kept | taken => simpa using hcount
    | @finished P hbatch _ hbefore hafter =>
      rcases h.batch P hbatch with hfull | hall
      · rcases h.count with hall | ⟨B, hcard, hB⟩
        · exact Or.inl fun k hk => hmono (hall k hk)
        · -- what was done before is not in the batch
          have hdisj : Disjoint B P := Finset.disjoint_left.mpr fun k hkB hkP =>
            hbefore k hkP (hB k hkB).2
          refine Or.inr ⟨B ∪ P, ?_, ?_⟩
          · rw [Finset.card_union_of_disjoint hdisj, Bool.toNat_true, Nat.mul_succ]
            exact Nat.add_le_add hcard hfull
          · intro k hk
            rcases Finset.mem_union.mp hk with hk | hk
            · exact ⟨(hB k hk).1, hmono (hB k hk).2⟩
            · exact ⟨fun hdone => hbefore k hk (h.done k hdone), hafter k hk⟩
      · exact Or.inl fun k hk => (hall k hk).elim hmono (hafter k)

/-- **A worker keeps up**: after `n` batches every item that was due at the start is done, or `n`
full batches of items are. -/
theorem keeps_up [DecidableEq K] {n : ℕ} {t : S} (h : Runs step ok W.counts n s t) (hs : I s)
    (hidle : W.batch s = none) :
    (∀ k, W.due s k → W.done t k) ∨
      ∃ B : Finset K, limit * n ≤ B.card ∧ ∀ k ∈ B, ¬ W.done s k ∧ W.done t k := by
  have hinit : W.Kept s 0 s := by
    refine ⟨hs, fun _ => id, fun _ => Or.inl, ?_, Or.inr ⟨∅, by simp, by simp⟩⟩
    intro P hP
    cases hidle.symm.trans hP
  exact (h.invariant (I := fun n t => W.Kept s n t) (fun h hstep hok => kept_step h hstep hok) hinit).count

end Worker

end OnlineAuction.Foundation
