import Mathlib.Data.List.Basic
import Mathlib.Data.List.Nodup
import Mathlib.Logic.Function.Basic
import Mathlib.Tactic.SplitIfs

/-!
# A journal and the order of its execution

Requests are appended to a journal and executed later, in an order of their own, by a gate that
takes a request in or leaves it. Replaying the journal offers the requests to the gate in the order
of the journal. Nothing is assumed of what the gate takes in.

## What is proved

* `Gate.run_of_untaken` and `Gate.run_of_rejects` — offers that are not taken in change nothing.
* `Faithful` — what has been executed, replayed in the order of the journal, gives the state that the
  execution has come to. `Faithful.append` keeps it, and `Faithful.execute` when the execution is in
  order.
* `Gate.inOrder` — when an execution is in order: a request that is taken in finds none before it in
  the journal that waits and would be taken in now, none after it that was taken in, and leaves none
  after it that was left and would be taken in then.
-/

namespace OnlineAuction.Foundation

universe u v w

/-- A gate for requests with keys. -/
structure Gate (σ : Type u) (ι : Type v) (κ : Type w) [DecidableEq κ] where
  /-- The key of a request. -/
  key : ι → κ
  /-- The request is taken in. -/
  admits : σ → ι → Bool
  /-- What taking it in does. -/
  book : σ → ι → σ
  /-- The state knows which keys were taken in. -/
  taken : σ → κ → Bool
  /-- Taking in a request adds its key. -/
  taken_book : ∀ s i k, taken (book s i) k = (taken s k || decide (k = key i))

variable {σ : Type u} {ι : Type v} {κ : Type w} [DecidableEq κ] (g : Gate σ ι κ)

namespace Gate

/-! ### Offers -/

/-- A request is offered. -/
def offer (s : σ) (i : ι) : σ := if g.admits s i then g.book s i else s

/-- The requests of a list are offered, in its order. -/
def run (s : σ) (l : List ι) : σ := l.foldl g.offer s

@[simp] theorem run_nil (s : σ) : g.run s [] = s := rfl

@[simp] theorem run_cons (s : σ) (i : ι) (l : List ι) : g.run s (i :: l) = g.run (g.offer s i) l := rfl

theorem run_append (s : σ) (l₁ l₂ : List ι) : g.run s (l₁ ++ l₂) = g.run (g.run s l₁) l₂ :=
  List.foldl_append

variable {g}

theorem offer_of_admits {s : σ} {i : ι} (h : g.admits s i = true) : g.offer s i = g.book s i :=
  if_pos h

theorem offer_of_rejects {s : σ} {i : ι} (h : g.admits s i = false) : g.offer s i = s :=
  if_neg (by rw [h]; exact Bool.false_ne_true)

/-- What was taken in stays so. -/
theorem taken_offer {s : σ} {k : κ} (h : g.taken s k = true) (i : ι) :
    g.taken (g.offer s i) k = true := by
  unfold offer
  split_ifs
  · rw [g.taken_book, h, Bool.true_or]
  · exact h

theorem taken_run {s : σ} {k : κ} (h : g.taken s k = true) (l : List ι) :
    g.taken (g.run s l) k = true := by
  induction l generalizing s with
  | nil => exact h
  | cons i l ih => exact ih (taken_offer h i)

/-- **Offers that are not taken in** change nothing. -/
theorem run_of_untaken {s : σ} {l : List ι} (h : ∀ i ∈ l, g.taken (g.run s l) (g.key i) = false) :
    g.run s l = s := by
  induction l generalizing s with
  | nil => rfl
  | cons i l ih =>
    cases hadm : g.admits s i with
    | true =>
      have htaken : g.taken (g.offer s i) (g.key i) = true := by
        rw [offer_of_admits hadm, g.taken_book, decide_eq_true rfl, Bool.or_true]
      exact absurd ((h i List.mem_cons_self).symm.trans (taken_run htaken l)) Bool.false_ne_true
    | false =>
      rw [run_cons, offer_of_rejects hadm]
      refine ih fun j hj => ?_
      rw [← offer_of_rejects hadm]
      exact h j (List.mem_cons_of_mem _ hj)

/-- Offers that would be left one by one change nothing. -/
theorem run_of_rejects {s : σ} {l : List ι} (h : ∀ i ∈ l, g.admits s i = false) : g.run s l = s := by
  induction l with
  | nil => rfl
  | cons i l ih =>
    rw [run_cons, offer_of_rejects (h i List.mem_cons_self)]
    exact ih fun j hj => h j (List.mem_cons_of_mem _ hj)

/-! ### The journal -/

variable (g) in
/-- The requests of a journal that were executed. -/
def executed (done : κ → Bool) (l : List ι) : List ι := l.filter fun i => done (g.key i)

theorem executed_append (done : κ → Bool) (l₁ l₂ : List ι) :
    g.executed done (l₁ ++ l₂) = g.executed done l₁ ++ g.executed done l₂ := List.filter_append ..

theorem executed_cons_of_done {done : κ → Bool} {i : ι} (h : done (g.key i) = true) (l : List ι) :
    g.executed done (i :: l) = i :: g.executed done l := List.filter_cons_of_pos h

theorem executed_cons_of_waits {done : κ → Bool} {i : ι} (h : done (g.key i) = false)
    (l : List ι) : g.executed done (i :: l) = g.executed done l :=
  List.filter_cons_of_neg (by rw [h]; exact Bool.false_ne_true)

theorem executed_congr {done done' : κ → Bool} {l : List ι}
    (h : ∀ i ∈ l, done' (g.key i) = done (g.key i)) : g.executed done' l = g.executed done l :=
  List.filter_congr h

variable (g) in
/-- The execution of the request with the key `b`, which is taken in, is in order: of what stands
before it in the journal and waits, nothing would be taken in now, unless something after that was
taken in already; of what stands after it, nothing was taken in, and nothing that was left would be
taken in then. -/
def inOrder (done : κ → Bool) (live : σ) (b : κ) : List ι → Bool
  | [] => true
  | i :: rest =>
    if g.key i = b then
      rest.all fun j => !g.taken live (g.key j) && (!done (g.key j) || !g.admits (g.book live i) j)
    else
      (done (g.key i) || (rest.any fun j => g.taken live (g.key j)) || !g.admits live i) &&
        inOrder done live b rest

/-- An order that is kept is kept from each request on. -/
theorem inOrder_of_append {done : κ → Bool} {live : σ} {b : κ} {pre l : List ι}
    (h : g.inOrder done live b (pre ++ l) = true) (hpre : ∀ i ∈ pre, g.key i ≠ b) :
    g.inOrder done live b l = true := by
  induction pre with
  | nil => exact h
  | cons i pre ih =>
    rw [List.cons_append, inOrder, if_neg (hpre i List.mem_cons_self), Bool.and_eq_true] at h
    exact ih h.2 fun j hj => hpre j (List.mem_cons_of_mem _ hj)

/-- Of what stands after a request that is taken in, in order, nothing was taken in, and what was
left is left then too. -/
theorem inOrder_after {done : κ → Bool} {live : σ} {i : ι} {rest : List ι}
    (h : g.inOrder done live (g.key i) (i :: rest) = true) : ∀ j ∈ rest,
    g.taken live (g.key j) = false ∧ (done (g.key j) = true → g.admits (g.book live i) j = false) := by
  rw [inOrder, if_pos rfl] at h
  intro j hj
  have hafter := List.all_eq_true.mp h j hj
  simp only [Bool.and_eq_true, Bool.not_eq_true', Bool.or_eq_true] at hafter
  exact ⟨hafter.1, fun hdone => hafter.2.resolve_left (by rw [hdone]; simp)⟩

/-- A request that waits before it, with nothing taken in after that, would be left now. -/
theorem inOrder_before {done : κ → Bool} {live : σ} {b : κ} {w : ι} {rest : List ι}
    (h : g.inOrder done live b (w :: rest) = true) (hwb : g.key w ≠ b)
    (hwaits : done (g.key w) = false) (hrest : ¬ ∃ i ∈ rest, g.taken live (g.key i) = true) :
    g.admits live w = false := by
  rw [inOrder, if_neg hwb] at h
  simp only [Bool.and_eq_true, Bool.or_eq_true, hwaits, Bool.false_eq_true, false_or,
    List.any_eq_true, Bool.not_eq_true'] at h
  exact h.1.resolve_left hrest

end Gate

/-- The executed requests, replayed in the order of the journal, lead to the state `live`. -/
structure Faithful (s₀ : σ) (entries : List ι) (done : κ → Bool) (live : σ) : Prop where
  /-- The keys are different. -/
  nodup : (entries.map g.key).Nodup
  /-- The replay. -/
  replay : g.run s₀ (g.executed done entries) = live
  /-- A request that waits, with one after it that was taken in, would be left in its place. -/
  overtaken : ∀ pre w post, entries = pre ++ w :: post → done (g.key w) = false →
    (∃ i ∈ post, g.taken live (g.key i) = true) →
    g.admits (g.run s₀ (g.executed done pre)) w = false

namespace Faithful

variable {g} {s₀ live : σ} {entries : List ι} {done : κ → Bool}

/-- Before anything is appended. -/
theorem nil (s₀ : σ) (done : κ → Bool) : Faithful g s₀ [] done s₀ where
  nodup := List.nodup_nil
  replay := rfl
  overtaken := by
    intro pre w post heq
    exact absurd heq.symm (by simp)

/-- Only the requests of the journal matter. -/
theorem congr (h : Faithful g s₀ entries done live) {done' : κ → Bool}
    (hdone : ∀ i ∈ entries, done' (g.key i) = done (g.key i)) : Faithful g s₀ entries done' live where
  nodup := h.nodup
  replay := by rw [Gate.executed_congr hdone, h.replay]
  overtaken := by
    rintro pre w post heq hw htaken
    subst heq
    rw [Gate.executed_congr fun i hi => hdone i (List.mem_append_left _ hi)]
    refine h.overtaken pre w post rfl ?_ htaken
    rw [← hdone w (by simp), hw]

/-- **A request is appended**, to wait. -/
theorem append (h : Faithful g s₀ entries done live) {i : ι} (hnew : g.key i ∉ entries.map g.key)
    (huntaken : g.taken live (g.key i) = false) (hwaits : done (g.key i) = false) :
    Faithful g s₀ (entries ++ [i]) done live where
  nodup := by
    rw [List.map_append, List.map_singleton]
    exact h.nodup.append (List.nodup_singleton _) (by simpa using hnew)
  replay := by
    rw [Gate.executed_append, Gate.executed_cons_of_waits hwaits]
    exact (congrArg (g.run s₀) (List.append_nil _)).trans h.replay
  overtaken := by
    rintro pre w post heq hw ⟨j, hj, htaken⟩
    rcases List.eq_nil_or_concat post with rfl | ⟨post, i', rfl⟩
    · cases hj
    · rw [List.concat_eq_append, ← List.cons_append, ← List.append_assoc] at heq
      obtain ⟨hentries, hi⟩ := List.append_inj' heq rfl
      obtain rfl : i = i' := List.singleton_inj.mp hi
      refine h.overtaken pre w post hentries hw ⟨j, ?_, htaken⟩
      rw [List.concat_eq_append] at hj
      refine (List.mem_append.mp hj).resolve_right fun hj => ?_
      rw [List.mem_singleton.mp hj, huntaken] at htaken
      cases htaken

/-- What stands before a request and after it. -/
theorem keys_ne (h : Faithful g s₀ entries done live) {pre post : List ι} {b : ι}
    (hentries : entries = pre ++ b :: post) : ∀ i, i ∈ pre ∨ i ∈ post → g.key i ≠ g.key b := by
  have hnodup := h.nodup
  rw [hentries, List.map_append, List.map_cons, List.nodup_middle, List.nodup_cons] at hnodup
  rintro i hi heq
  apply hnodup.1
  rw [← heq, ← List.map_append]
  exact List.mem_map_of_mem (List.mem_append.mpr hi)

/-- When nothing after a request that waits was taken in, its place in the replay is the state now. -/
theorem place_of_untaken (h : Faithful g s₀ entries done live) {pre post : List ι} {b : ι}
    (hentries : entries = pre ++ b :: post) (hb : done (g.key b) = false)
    (hpost : ∀ i ∈ post, g.taken live (g.key i) = false) :
    g.run s₀ (g.executed done pre) = live := by
  have hlive := h.replay
  rw [hentries, Gate.executed_append, Gate.executed_cons_of_waits hb, Gate.run_append] at hlive
  rw [Gate.run_of_untaken] at hlive
  · exact hlive
  · intro i hi
    rw [hlive]
    exact hpost i (List.mem_of_mem_filter hi)

/-- A request that is left would be left in its place too. -/
theorem rejects_in_place (h : Faithful g s₀ entries done live) {pre post : List ι} {b : ι}
    (hentries : entries = pre ++ b :: post) (hb : done (g.key b) = false)
    (hadm : g.admits live b = false) : g.admits (g.run s₀ (g.executed done pre)) b = false := by
  by_cases htaken : ∃ i ∈ post, g.taken live (g.key i) = true
  · exact h.overtaken pre b post hentries hb htaken
  · rwa [h.place_of_untaken hentries hb fun i hi =>
      eq_false_of_ne_true fun h => htaken ⟨i, hi, h⟩]

/-- The execution of `b` changes nothing for the others. -/
theorem executed_update (h : Faithful g s₀ entries done live) {pre post : List ι} {b : ι}
    (hentries : entries = pre ++ b :: post) {l : List ι} (hl : ∀ i ∈ l, i ∈ pre ∨ i ∈ post) :
    g.executed (Function.update done (g.key b) true) l = g.executed done l :=
  Gate.executed_congr fun i hi =>
    Function.update_of_ne (h.keys_ne hentries i (hl i hi)) _ _

/-- Once `b` is executed, it is replayed in its place. -/
theorem executed_update_cons (h : Faithful g s₀ entries done live) {pre post : List ι} {b : ι}
    (hentries : entries = pre ++ b :: post) {mid : List ι} (hmid : ∀ i ∈ mid, i ∈ post) :
    g.executed (Function.update done (g.key b) true) (pre ++ b :: mid) =
      g.executed done pre ++ b :: g.executed done mid := by
  rw [Gate.executed_append, Gate.executed_cons_of_done (Function.update_self _ _ _),
    h.executed_update hentries fun i hi => Or.inl hi,
    h.executed_update hentries fun i hi => Or.inr (hmid i hi)]

end Faithful

/-- Two requests of a list: the one stands after the other, or before it. -/
theorem split_cases {entries pre post pre' post' : List ι} {b w : ι}
    (hb : entries = pre ++ b :: post) (hw : entries = pre' ++ w :: post') (hne : w ≠ b) :
    (∃ mid, pre' = pre ++ b :: mid ∧ post = mid ++ w :: post') ∨
      ∃ mid, pre = pre' ++ w :: mid ∧ post' = mid ++ b :: post := by
  rw [hb] at hw
  rcases List.append_eq_append_iff.mp hw with ⟨mid, hpre, hrest⟩ | ⟨mid, hpre, hrest⟩
  · cases mid with
    | nil => exact absurd (List.cons.inj hrest).1.symm hne
    | cons i mid =>
      obtain ⟨rfl, hpost⟩ := List.cons.inj hrest
      exact Or.inl ⟨mid, hpre, hpost⟩
  · cases mid with
    | nil => exact absurd (List.cons.inj hrest).1 hne
    | cons i mid =>
      obtain ⟨rfl, hpost⟩ := List.cons.inj hrest
      exact Or.inr ⟨mid, hpre, hpost⟩

namespace Faithful

variable {g} {s₀ live : σ} {entries : List ι} {done : κ → Bool}

/-- A request that waits after the execution of `b` is another one, and has waited before. -/
theorem waits_of_update {b w : ι} (hw : Function.update done (g.key b) true (g.key w) = false) :
    w ≠ b ∧ done (g.key w) = false := by
  by_cases hkey : g.key w = g.key b
  · rw [hkey, Function.update_self] at hw
    cases hw
  · rw [Function.update_of_ne hkey] at hw
    exact ⟨fun heq => hkey (congrArg g.key heq), hw⟩

/-- **A request is executed and left.** -/
theorem execute_rejected (h : Faithful g s₀ entries done live) {pre post : List ι} {b : ι}
    (hentries : entries = pre ++ b :: post) (hb : done (g.key b) = false)
    (hadm : g.admits live b = false) :
    Faithful g s₀ entries (Function.update done (g.key b) true) live := by
  have hplace := h.rejects_in_place hentries hb hadm
  have hskip : ∀ mid, (∀ i ∈ mid, i ∈ post) →
      g.run s₀ (g.executed (Function.update done (g.key b) true) (pre ++ b :: mid)) =
        g.run s₀ (g.executed done (pre ++ b :: mid)) := by
    intro mid hmid
    rw [h.executed_update_cons hentries hmid, Gate.executed_append,
      Gate.executed_cons_of_waits hb, Gate.run_append, Gate.run_append, Gate.run_cons,
      Gate.offer_of_rejects hplace]
  refine ⟨h.nodup, ?_, ?_⟩
  · rw [hentries, hskip post fun _ hi => hi, ← hentries, h.replay]
  · intro pre' w post' hw hwaits htaken
    obtain ⟨hne, hwaits⟩ := waits_of_update hwaits
    have hold := h.overtaken pre' w post' hw hwaits htaken
    rcases split_cases hentries hw hne with ⟨mid, rfl, hpost⟩ | ⟨mid, hpre, -⟩
    · rwa [hskip mid fun i hi => by rw [hpost]; exact List.mem_append_left _ hi]
    · rwa [h.executed_update hentries fun i hi =>
        Or.inl (by rw [hpre]; exact List.mem_append_left _ hi)]

/-- **A request is executed and taken in**, in order. -/
theorem execute_admitted (h : Faithful g s₀ entries done live) {pre post : List ι} {b : ι}
    (hentries : entries = pre ++ b :: post) (hb : done (g.key b) = false)
    (hadm : g.admits live b = true) (hok : g.inOrder done live (g.key b) entries = true) :
    Faithful g s₀ entries (Function.update done (g.key b) true) (g.book live b) := by
  have hkeys := h.keys_ne hentries
  have hafter := Gate.inOrder_after
    (Gate.inOrder_of_append (hentries ▸ hok) fun i hi => hkeys i (Or.inl hi))
  have hplace := h.place_of_untaken hentries hb fun i hi => (hafter i hi).1
  refine ⟨h.nodup, ?_, ?_⟩
  · rw [hentries, h.executed_update_cons hentries fun _ hi => hi, Gate.run_append, Gate.run_cons,
      hplace, Gate.offer_of_admits hadm]
    apply Gate.run_of_rejects
    intro i hi
    obtain ⟨hmem, hdone⟩ := List.mem_filter.mp hi
    exact (hafter i hmem).2 hdone
  · rintro pre' w post' hw hwaits ⟨i, hi, htaken⟩
    obtain ⟨hne, hwaits⟩ := waits_of_update hwaits
    rcases split_cases hentries hw hne with ⟨mid, -, hpost⟩ | ⟨mid, hpre, -⟩
    · -- `w` stands after `b`, where nothing was taken in
      exfalso
      have hmem : i ∈ post := by
        rw [hpost]
        exact List.mem_append_right _ (List.mem_cons_of_mem _ hi)
      rw [g.taken_book, (hafter i hmem).1, Bool.false_or, decide_eq_true_eq] at htaken
      exact hkeys i (Or.inr hmem) htaken
    · -- `w` stands before `b`
      have hin : ∀ i ∈ pre', i ∈ pre ∨ i ∈ post := fun i hi =>
        Or.inl (by rw [hpre]; exact List.mem_append_left _ hi)
      rw [h.executed_update hentries hin]
      by_cases hbefore : ∃ i ∈ post', g.taken live (g.key i) = true
      · exact h.overtaken pre' w post' hw hwaits hbefore
      · have hwb : g.key w ≠ g.key b := hkeys w (Or.inl (by rw [hpre]; simp))
        have hleft := Gate.inOrder_before
          (Gate.inOrder_of_append (hw ▸ hok) fun i hi => hkeys i (hin i hi)) hwb hwaits hbefore
        exact h.rejects_in_place hw hwaits hleft

/-- **A request is executed** in order. -/
theorem execute (h : Faithful g s₀ entries done live) {b : ι} (hmem : b ∈ entries)
    (hb : done (g.key b) = false)
    (hok : g.admits live b = true → g.inOrder done live (g.key b) entries = true) :
    Faithful g s₀ entries (Function.update done (g.key b) true) (g.offer live b) := by
  obtain ⟨pre, post, hentries⟩ := List.append_of_mem hmem
  cases hadm : g.admits live b with
  | true =>
    rw [Gate.offer_of_admits hadm]
    exact h.execute_admitted hentries hb hadm (hok hadm)
  | false =>
    rw [Gate.offer_of_rejects hadm]
    exact h.execute_rejected hentries hb hadm

/-- When nothing waits, the whole journal replays to the state. -/
theorem run_eq (h : Faithful g s₀ entries done live) (hdone : ∀ i ∈ entries, done (g.key i) = true) :
    g.run s₀ entries = live := by
  have hall : g.executed done entries = entries := List.filter_eq_self.mpr hdone
  rw [← h.replay, hall]

end Faithful

end OnlineAuction.Foundation
