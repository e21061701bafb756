import Mathlib.Data.List.Sort
import Mathlib.Data.List.Nodup

/-!
# Reading a table page by page

A table is read in descending order of a key, a page at a time. Every page is cut from the rows below
the cursor, which is the key of the last row of the page before; one row more than the page may hold
is fetched to see whether there is a next page. Meanwhile the table may grow.

## What is proved

* `page_spec` — a page has the rows from the cursor down to its own last key, and all that are left
  when there is no next page.
* `Covered` — what a walk has listed: the rows it began with, down to its cursor. `Covered.grow` and
  `Covered.page` keep it.
* `page_next_lt` — the cursor goes down.
* `page_next_eq_none_iff` — a page is the last one when all rows below the cursor fit on it.
-/

namespace OnlineAuction.Foundation

namespace Keyset

universe u v

/-! ### Places -/

/-- How far a walk has come. -/
inductive Place (κ : Type v) where
  /-- No page has been read. -/
  | start
  /-- The next page begins below this cursor. -/
  | at (cursor : κ)
  /-- The last page has been read. -/
  | done
  deriving DecidableEq

variable {κ : Type v}

/-- The cursor of the next page. -/
def Place.cursor : Place κ → Option κ
  | .at c => some c
  | _ => none

/-- Where a walk is when a page has this next cursor. -/
def Place.after : Option κ → Place κ
  | some c => .at c
  | none => .done

@[simp] theorem Place.after_ne_start (next : Option κ) : Place.after next ≠ .start := by
  cases next <;> simp [Place.after]

@[simp] theorem Place.after_eq_at {next : Option κ} {c : κ} :
    Place.after next = .at c ↔ next = some c := by
  cases next <;> simp [Place.after]

@[simp] theorem Place.after_eq_done {next : Option κ} : Place.after next = .done ↔ next = none := by
  cases next <;> simp [Place.after]

variable {α : Type u} [LinearOrder κ] (key : α → κ)

/-! ### One page -/

/-- The row is below the cursor. -/
def Below (cursor : Option κ) (x : α) : Prop := ∀ c ∈ cursor, key x < c

instance (cursor : Option κ) (x : α) : Decidable (Below key cursor x) :=
  inferInstanceAs (Decidable (∀ c ∈ cursor, _))

/-- The rows in descending order of their keys. -/
def descending (rows : List α) : List α := rows.insertionSort fun x y => key y ≤ key x

/-- At most `limit + 1` rows below the cursor, in descending order. -/
def fetch (rows : List α) (cursor : Option κ) (limit : ℕ) : List α :=
  (descending key (rows.filter fun x => Below key cursor x)).take (limit + 1)

/-- A page and its next cursor, from the rows fetched for it. -/
def cut (limit : ℕ) (found : List α) : List α × Option κ :=
  if limit < found.length then (found.take limit, (found.take limit).getLast?.map key)
  else (found, none)

/-- The page after a cursor, and the next cursor. -/
def page (rows : List α) (cursor : Option κ) (limit : ℕ) : List α × Option κ :=
  cut key limit (fetch key rows cursor limit)

/-- What a page is of the rows of a table. -/
structure PageSpec (rows : List α) (cursor : Option κ) (p : List α × Option κ) : Prop where
  /-- It is strictly descending. -/
  sorted : p.1.Pairwise fun x y => key y < key x
  /-- Its rows are below the cursor. -/
  sound : ∀ x ∈ p.1, x ∈ rows ∧ Below key cursor x
  /-- Without a next cursor it has all of them. -/
  last : p.2 = none → ∀ x ∈ rows, Below key cursor x → x ∈ p.1
  /-- With one it has those down to the next cursor, which is the key of a row. -/
  more : ∀ c, p.2 = some c → (∃ x ∈ p.1, key x = c) ∧ (∀ x ∈ p.1, c ≤ key x) ∧
    ∀ x ∈ rows, Below key cursor x → c ≤ key x → x ∈ p.1

variable {key}

/-- Rows with different keys are strictly descending. -/
theorem pairwise_descending {rows : List α} (h : (rows.map key).Nodup) :
    (descending key rows).Pairwise fun x y => key y < key x := by
  have hle : (descending key rows).Pairwise fun x y => key y ≤ key x := by
    have : Std.Total fun x y : α => key y ≤ key x := ⟨fun x y => le_total _ _⟩
    have : IsTrans α fun x y => key y ≤ key x := ⟨fun x y z hxy hyz => hyz.trans hxy⟩
    exact List.pairwise_insertionSort _ rows
  have hne : (descending key rows).Pairwise fun x y => key x ≠ key y :=
    List.pairwise_map.mp (((List.perm_insertionSort _ rows).map key).nodup_iff.mpr h)
  exact (hle.and hne).imp fun h => lt_of_le_of_ne h.1 h.2.symm

theorem mem_descending {rows : List α} {x : α} : x ∈ descending key rows ↔ x ∈ rows :=
  List.mem_insertionSort _

theorem length_descending {rows : List α} : (descending key rows).length = rows.length :=
  List.length_insertionSort _ _

@[simp] theorem below_none (x : α) : Below key none x := fun _ h => by cases h

/-- When the rows below the cursor fit on one page, they are the last page. -/
theorem page_of_length_le {rows : List α} {cursor : Option κ} {limit : ℕ}
    (h : (rows.filter fun x => Below key cursor x).length ≤ limit) :
    page key rows cursor limit =
      (descending key (rows.filter fun x => Below key cursor x), none) := by
  have hlen : (descending key (rows.filter fun x => Below key cursor x)).length ≤ limit := by
    rwa [length_descending]
  rw [page, fetch, List.take_of_length_le (hlen.trans (Nat.le_succ _)), cut,
    if_neg (not_lt.mpr hlen)]

/-- When they do not, the page ends with the row that the next cursor is taken from. -/
theorem page_of_lt_length {rows : List α} {cursor : Option κ} {limit : ℕ}
    (h : limit < (rows.filter fun x => Below key cursor x).length) :
    page key rows cursor limit =
      ((descending key (rows.filter fun x => Below key cursor x)).take limit,
        ((descending key (rows.filter fun x => Below key cursor x)).take limit).getLast?.map
          key) := by
  have hlen : limit < (fetch key rows cursor limit).length := by
    rw [fetch, List.length_take, length_descending]
    omega
  rw [page, cut, if_pos hlen, fetch, List.take_take, min_eq_left (Nat.le_succ limit)]

theorem take_ne_nil {all : List α} {limit : ℕ} (hlimit : 0 < limit) (hlen : limit < all.length) :
    all.take limit ≠ [] := by
  intro hnil
  rcases List.take_eq_nil_iff.mp hnil with h | h
  · omega
  · rw [h] at hlen
    exact absurd hlen (Nat.not_lt_zero _)

/-- A page that is cut off ends above all that are left. -/
theorem pageSpec_take {rows all : List α} {cursor : Option κ} {limit : ℕ}
    (hsorted : all.Pairwise fun x y => key y < key x)
    (hmem : ∀ x, x ∈ all ↔ x ∈ rows ∧ Below key cursor x) (hlimit : 0 < limit)
    (hlen : limit < all.length) :
    PageSpec key rows cursor (all.take limit, (all.take limit).getLast?.map key) := by
  -- the last row of the page
  obtain ⟨z, hz⟩ : ∃ z, (all.take limit).getLast? = some z := by
    rw [← Option.ne_none_iff_exists', ne_eq, List.getLast?_eq_none_iff]
    exact take_ne_nil hlimit hlen
  obtain ⟨init, hinit⟩ := List.getLast?_eq_some_iff.mp hz
  have hpage : (all.take limit).Pairwise fun x y => key y < key x :=
    hsorted.sublist (List.take_sublist _ _)
  rw [← List.take_append_drop limit all] at hsorted
  have hrest := (List.pairwise_append.mp hsorted).2.2
  have hzmem : z ∈ all.take limit := by rw [hinit]; simp
  refine ⟨hpage, fun x hx => (hmem x).mp (List.mem_of_mem_take hx), ?_, ?_⟩
  · simp [hz]
  · intro c hc
    simp only [hz, Option.map_some, Option.some.injEq] at hc
    subst hc
    refine ⟨⟨z, hzmem, rfl⟩, ?_, ?_⟩
    · intro x hx
      rw [hinit] at hx hpage
      rcases List.mem_append.mp hx with hx | hx
      · exact ((List.pairwise_append.mp hpage).2.2 x hx z (List.mem_singleton_self z)).le
      · rw [List.mem_singleton.mp hx]
    · intro x hx hb hcx
      have hall := (hmem x).mpr ⟨hx, hb⟩
      rw [← List.take_append_drop limit all, List.mem_append] at hall
      refine hall.resolve_right fun hdrop => ?_
      exact absurd (hrest z hzmem x hdrop) (not_lt.mpr hcx)

/-- **A page** of a table whose rows have different keys. -/
theorem page_spec {rows : List α} (h : (rows.map key).Nodup) (cursor : Option κ) {limit : ℕ}
    (hlimit : 0 < limit) : PageSpec key rows cursor (page key rows cursor limit) := by
  have hsorted : (descending key (rows.filter fun x => Below key cursor x)).Pairwise
      fun x y => key y < key x :=
    pairwise_descending (h.sublist ((List.filter_sublist).map key))
  have hmem : ∀ x, x ∈ descending key (rows.filter fun x => Below key cursor x) ↔
      x ∈ rows ∧ Below key cursor x := by
    intro x
    rw [mem_descending, List.mem_filter, decide_eq_true_iff]
  rcases le_or_gt (rows.filter fun x => Below key cursor x).length limit with hfit | hlong
  · rw [page_of_length_le hfit]
    exact ⟨hsorted, fun x hx => (hmem x).mp hx, fun _ x hx hb => (hmem x).mpr ⟨hx, hb⟩,
      fun c hc => by cases hc⟩
  · rw [page_of_lt_length hlong]
    exact pageSpec_take hsorted hmem hlimit (by rwa [length_descending])

/-- **The last page** is the one that all rows below the cursor fit on. -/
theorem page_next_eq_none_iff {rows : List α} {cursor : Option κ} {limit : ℕ} (hlimit : 0 < limit) :
    (page key rows cursor limit).2 = none ↔
      (rows.filter fun x => Below key cursor x).length ≤ limit := by
  refine ⟨fun h => ?_, fun h => by rw [page_of_length_le h]⟩
  by_contra hlong
  push Not at hlong
  rw [page_of_lt_length hlong, Option.map_eq_none_iff, List.getLast?_eq_none_iff] at h
  exact take_ne_nil hlimit (by rwa [length_descending]) h

/-! ### A walk -/

variable (key) in
/-- A walk that began with the rows `first` has listed them down to its cursor. -/
structure Covered (first rows listed : List α) (place : Place κ) : Prop where
  /-- The rows have different keys. -/
  nodup : (rows.map key).Nodup
  /-- No row has gone. -/
  kept : ∀ x ∈ first, x ∈ rows
  /-- The list is strictly descending. -/
  sorted : listed.Pairwise fun x y => key y < key x
  /-- It has rows of the table only. -/
  sound : ∀ x ∈ listed, x ∈ rows
  /-- It begins empty. -/
  start : place = .start → listed = []
  /-- It is down to the cursor. -/
  passed : ∀ c, place = .at c → (∀ x ∈ listed, c ≤ key x) ∧ ∀ x ∈ first, c ≤ key x → x ∈ listed
  /-- At the end it has all rows. -/
  done : place = .done → ∀ x ∈ first, x ∈ listed

theorem Covered.begin {rows : List α} (h : (rows.map key).Nodup) :
    Covered key rows rows [] .start where
  nodup := h
  kept := fun _ hx => hx
  sorted := List.Pairwise.nil
  sound := by simp
  start := fun _ => rfl
  passed := by simp
  done := by simp

/-- The table may grow. -/
theorem Covered.grow {first rows rows' listed : List α} {place : Place κ}
    (h : Covered key first rows listed place) (hrows : ∀ x ∈ rows, x ∈ rows')
    (hnodup : (rows'.map key).Nodup) : Covered key first rows' listed place :=
  ⟨hnodup, fun x hx => hrows x (h.kept x hx), h.sorted, fun x hx => hrows x (h.sound x hx), h.start,
    h.passed, h.done⟩

/-- **The walk goes on**: the next page continues the list. -/
theorem Covered.page {first rows listed : List α} {place : Place κ}
    (h : Covered key first rows listed place) (hplace : place ≠ .done) {limit : ℕ}
    (hlimit : 0 < limit) :
    Covered key first rows (listed ++ (Keyset.page key rows place.cursor limit).1)
      (.after (Keyset.page key rows place.cursor limit).2) := by
  have hspec := page_spec h.nodup place.cursor hlimit
  generalize Keyset.page key rows place.cursor limit = p at hspec ⊢
  -- a row that the walk began with is listed already, or below the cursor
  have hsplit : ∀ x ∈ first, x ∈ listed ∨ Below key place.cursor x := by
    intro x hx
    cases place with
    | start => exact Or.inr fun c hc => by cases hc
    | «at» c =>
      rcases le_or_gt c (key x) with hle | hlt
      · exact Or.inl ((h.passed c rfl).2 x hx hle)
      · exact Or.inr fun c' hc' => by cases hc'; exact hlt
    | done => exact absurd rfl hplace
  -- the page is below all that is listed
  have hbelow : ∀ x ∈ listed, ∀ y ∈ p.1, key y < key x := by
    intro x hx y hy
    cases place with
    | start => rw [h.start rfl] at hx; cases hx
    | «at» c => exact ((hspec.sound y hy).2 c rfl).trans_le ((h.passed c rfl).1 x hx)
    | done => exact absurd rfl hplace
  refine ⟨h.nodup, h.kept, List.pairwise_append.mpr ⟨h.sorted, hspec.sorted, hbelow⟩, ?_, ?_, ?_, ?_⟩
  · intro x hx
    exact (List.mem_append.mp hx).elim (h.sound x) fun hx => (hspec.sound x hx).1
  · intro hstart
    exact absurd hstart (Place.after_ne_start _)
  · intro c hc
    obtain ⟨⟨z, hz, rfl⟩, hlow, hall⟩ := hspec.more c (Place.after_eq_at.mp hc)
    constructor
    · intro x hx
      exact (List.mem_append.mp hx).elim (fun hx => (hbelow x hx z hz).le) (hlow x)
    · intro x hx hcx
      exact List.mem_append.mpr ((hsplit x hx).imp_right fun hb => hall x (h.kept x hx) hb hcx)
  · intro hdone x hx
    have hp := Place.after_eq_done.mp hdone
    exact List.mem_append.mpr ((hsplit x hx).imp_right fun hb => hspec.last hp x (h.kept x hx) hb)

/-- **The cursor goes down**, to the key of a row. -/
theorem page_next_lt {rows : List α} (h : (rows.map key).Nodup) {cursor : Option κ} {limit : ℕ}
    (hlimit : 0 < limit) {c : κ} (hc : (page key rows cursor limit).2 = some c) :
    (∃ x ∈ rows, key x = c) ∧ ∀ c' ∈ cursor, c < c' := by
  have hspec := page_spec h cursor hlimit
  obtain ⟨⟨z, hz, rfl⟩, -, -⟩ := hspec.more c hc
  exact ⟨⟨z, (hspec.sound z hz).1, rfl⟩, (hspec.sound z hz).2⟩

/-- Two lists with the same keys, all different, and with the same values where their keys are the same
have the same values. -/
theorem map_eq_of_keys {α β γ κ : Type} {f : α → κ} {g : β → κ} {u : α → γ} {v : β → γ} {xs : List α}
    {ys : List β} (hkeys : xs.map f = ys.map g) (hnodup : (ys.map g).Nodup)
    (h : ∀ x ∈ xs, ∃ y ∈ ys, g y = f x ∧ u x = v y) : xs.map u = ys.map v := by
  have hlen : xs.length = ys.length := by simpa using congrArg List.length hkeys
  refine List.ext_getElem (by simpa using hlen) fun i hi hi' => ?_
  rw [List.length_map] at hi hi'
  obtain ⟨y, hy, hkey, hvalue⟩ := h xs[i] (List.getElem_mem hi)
  have hsame : f xs[i] = g ys[i] := by
    have hget := List.getElem_of_eq hkeys (by simpa using hi)
    simpa using hget
  obtain rfl : y = ys[i] :=
    List.inj_on_of_nodup_map hnodup hy (List.getElem_mem hi') (hkey.trans hsame)
  simpa using hvalue

end Keyset

end OnlineAuction.Foundation
