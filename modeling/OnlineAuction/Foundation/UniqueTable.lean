import Mathlib.Data.List.Nodup
import Mathlib.Data.List.Perm.Basic

/-!
# A table with a unique key

Transactions insert one row each, which the others see when it is committed. An insert waits while the
row of an open transaction has its key (`held`), and is refused when a committed one has it (`taken`).

## What is proved

* `Unique.insert`, `Unique.commit` and `Unique.rollback` — no two rows have the same key, the rows of
  open transactions included.
* `Unique.not_held_commit` — who waits for a key waits for one transaction only.
* `nodup_upsert` and `mem_keys_upsert` — to insert or update keeps the keys distinct, and loses none.
-/

namespace OnlineAuction.Foundation

universe u v w

/-- A table, each row with its transaction. -/
structure UniqueTable (τ : Type u) (ρ : Type v) where
  /-- The rows that are committed. -/
  committed : List (τ × ρ)
  /-- The rows of open transactions. -/
  pending : List (τ × ρ)

namespace UniqueTable

variable {τ : Type u} {ρ : Type v} {κ : Type w}

/-- No row. -/
def empty : UniqueTable τ ρ := ⟨[], []⟩

/-- All rows. -/
def rows (t : UniqueTable τ ρ) : List (τ × ρ) := t.committed ++ t.pending

/-- The committed rows with the key. -/
def select [DecidableEq κ] (t : UniqueTable τ ρ) (key : ρ → κ) (k : κ) : List (τ × ρ) :=
  t.committed.filter fun e => key e.2 = k

/-- A committed row has the key. -/
def taken [DecidableEq κ] (t : UniqueTable τ ρ) (key : ρ → κ) (k : κ) : Bool :=
  t.committed.any fun e => key e.2 = k

/-- The row of an open transaction has the key. -/
def held [DecidableEq κ] (t : UniqueTable τ ρ) (key : ρ → κ) (k : κ) : Bool :=
  t.pending.any fun e => key e.2 = k

/-- The transaction `x` inserts a row. -/
def insert (t : UniqueTable τ ρ) (x : τ) (r : ρ) : UniqueTable τ ρ :=
  { t with pending := (x, r) :: t.pending }

/-- It commits. -/
def commit [DecidableEq τ] (t : UniqueTable τ ρ) (x : τ) : UniqueTable τ ρ where
  committed := t.pending.filter (fun e => e.1 = x) ++ t.committed
  pending := t.pending.filter fun e => ¬ e.1 = x

/-- It is rolled back. -/
def rollback [DecidableEq τ] (t : UniqueTable τ ρ) (x : τ) : UniqueTable τ ρ :=
  { t with pending := t.pending.filter fun e => ¬ e.1 = x }

/-- All that are open are rolled back. -/
def rollbackAll (t : UniqueTable τ ρ) : UniqueTable τ ρ := { t with pending := [] }

section Members

variable {t : UniqueTable τ ρ} {key : ρ → κ} {k : κ} {x : τ} {r : ρ} {e : τ × ρ}

@[simp] theorem mem_select [DecidableEq κ] : e ∈ t.select key k ↔ e ∈ t.committed ∧ key e.2 = k := by
  simp [select]

theorem taken_eq_true_iff [DecidableEq κ] :
    t.taken key k = true ↔ ∃ e ∈ t.committed, key e.2 = k := by
  simp [taken]

theorem held_eq_true_iff [DecidableEq κ] :
    t.held key k = true ↔ ∃ e ∈ t.pending, key e.2 = k := by
  simp [held]

@[simp] theorem mem_pending_insert : e ∈ (t.insert x r).pending ↔ e = (x, r) ∨ e ∈ t.pending :=
  List.mem_cons

@[simp] theorem mem_committed_commit [DecidableEq τ] :
    e ∈ (t.commit x).committed ↔ (e ∈ t.pending ∧ e.1 = x) ∨ e ∈ t.committed := by
  simp [commit]

@[simp] theorem mem_pending_commit [DecidableEq τ] :
    e ∈ (t.commit x).pending ↔ e ∈ t.pending ∧ e.1 ≠ x := by
  simp [commit]

@[simp] theorem mem_pending_rollback [DecidableEq τ] :
    e ∈ (t.rollback x).pending ↔ e ∈ t.pending ∧ e.1 ≠ x := by
  simp [rollback]

end Members

/-! ### No two rows with the same key -/

/-- No two rows have the same key. -/
def Unique (key : ρ → κ) (t : UniqueTable τ ρ) : Prop := (t.rows.map fun e => key e.2).Nodup

section Unique

variable {t : UniqueTable τ ρ} {key : ρ → κ} {k : κ} {x : τ} {r : ρ}

theorem unique_empty : Unique key (empty : UniqueTable τ ρ) := List.nodup_nil

theorem Unique.insert [DecidableEq κ] (h : Unique key t) (htaken : t.taken key (key r) = false)
    (hheld : t.held key (key r) = false) : Unique key (t.insert x r) := by
  have hperm : (t.insert x r).rows.Perm ((x, r) :: t.rows) := List.perm_middle
  refine (hperm.map _).nodup_iff.mpr ?_
  rw [List.map_cons, List.nodup_cons]
  refine ⟨fun hmem => ?_, h⟩
  obtain ⟨e, he, hkey⟩ := List.mem_map.mp hmem
  rcases List.mem_append.mp he with he | he
  · exact absurd (taken_eq_true_iff.mpr ⟨e, he, hkey⟩) (by simp [htaken])
  · exact absurd (held_eq_true_iff.mpr ⟨e, he, hkey⟩) (by simp [hheld])

/-- A commit moves rows. -/
theorem rows_commit_perm [DecidableEq τ] (t : UniqueTable τ ρ) (x : τ) :
    (t.commit x).rows.Perm t.rows := by
  have hsplit : (t.pending.filter (fun e => e.1 = x) ++ t.pending.filter (fun e => ¬ e.1 = x)).Perm
      t.pending := by
    simpa using List.filter_append_perm (fun e : τ × ρ => decide (e.1 = x)) t.pending
  calc (t.commit x).rows
      = t.pending.filter (fun e => e.1 = x) ++ (t.committed ++ t.pending.filter fun e => ¬ e.1 = x) :=
        List.append_assoc _ _ _
    List.Perm _ (t.committed ++ (t.pending.filter (fun e => e.1 = x) ++
        t.pending.filter fun e => ¬ e.1 = x)) := List.perm_append_comm_assoc _ _ _
    List.Perm _ t.rows := hsplit.append_left _

theorem Unique.commit [DecidableEq τ] (h : Unique key t) (x : τ) : Unique key (t.commit x) :=
  ((rows_commit_perm t x).map _).nodup_iff.mpr h

theorem Unique.rollback [DecidableEq τ] (h : Unique key t) (x : τ) : Unique key (t.rollback x) :=
  h.sublist ((List.filter_sublist.append_left t.committed).map _)

theorem Unique.rollbackAll (h : Unique key t) : Unique key t.rollbackAll :=
  h.sublist (((List.nil_sublist t.pending).append_left t.committed).map _)

/-- A row is known by its key. -/
theorem Unique.eq_of_key (h : Unique key t) {e e' : τ × ρ} (he : e ∈ t.rows) (he' : e' ∈ t.rows)
    (hkey : key e.2 = key e'.2) : e = e' :=
  List.inj_on_of_nodup_map h he he' hkey

/-- At most one row is selected. -/
theorem Unique.select_cases [DecidableEq κ] (h : Unique key t) (k : κ) :
    t.select key k = [] ∨ ∃ e, t.select key k = [e] := by
  have hsub : (t.select key k).Sublist t.rows :=
    List.filter_sublist.trans (List.sublist_append_left _ _)
  have hnodup : ((t.select key k).map fun e => key e.2).Nodup := h.sublist (hsub.map _)
  have hconst : (t.select key k).map (fun e => key e.2) = List.replicate (t.select key k).length k :=
    List.map_eq_replicate_iff.mpr fun e he => (mem_select.mp he).2
  rw [hconst, List.nodup_replicate] at hnodup
  rcases Nat.le_one_iff_eq_zero_or_eq_one.mp hnodup with hlen | hlen
  · exact Or.inl (List.length_eq_zero_iff.mp hlen)
  · exact Or.inr (List.length_eq_one_iff.mp hlen)

/-- When the transaction that holds a key commits, nobody holds it. -/
theorem Unique.not_held_commit [DecidableEq τ] [DecidableEq κ] (h : Unique key t)
    (hmem : (x, r) ∈ t.pending) : (t.commit x).held key (key r) = false := by
  rw [Bool.eq_false_iff]
  intro hheld
  obtain ⟨e, he, hkey⟩ := held_eq_true_iff.mp hheld
  obtain ⟨he, hne⟩ := mem_pending_commit.mp he
  exact hne (congrArg Prod.fst
    (h.eq_of_key (List.mem_append_right _ he) (List.mem_append_right _ hmem) hkey))

end Unique

end UniqueTable

/-! ### Insert or update -/

section Upsert

variable {α : Type u} {κ : Type v} [DecidableEq κ] (key : α → κ)

/-- The row takes the place of the one with its key, or is added. -/
def upsert (rows : List α) (r : α) : List α :=
  if rows.any (fun r' => key r' = key r) then rows.map fun r' => if key r' = key r then r else r'
  else rows ++ [r]

variable {key} {rows : List α} {r x : α}

theorem mem_of_mem_upsert (h : x ∈ upsert key rows r) : x = r ∨ x ∈ rows := by
  unfold upsert at h
  split_ifs at h
  · obtain ⟨r', hr', rfl⟩ := List.mem_map.mp h
    split_ifs
    · exact Or.inl rfl
    · exact Or.inr hr'
  · exact (List.mem_append.mp h).symm.imp_left List.mem_singleton.mp

/-- The keys. -/
theorem map_key_upsert : (upsert key rows r).map key =
    if key r ∈ rows.map key then rows.map key else rows.map key ++ [key r] := by
  have hany : rows.any (fun r' => key r' = key r) = true ↔ key r ∈ rows.map key := by
    simp [List.mem_map]
  unfold upsert
  simp only [hany]
  split_ifs with hmem
  · rw [List.map_map]
    refine List.map_congr_left fun r' _ => ?_
    rw [Function.comp_apply]
    split_ifs with hkey
    · exact hkey.symm
    · rfl
  · rw [List.map_append, List.map_singleton]

/-- **The keys stay distinct.** -/
theorem nodup_upsert (h : (rows.map key).Nodup) : ((upsert key rows r).map key).Nodup := by
  rw [map_key_upsert]
  split_ifs with hmem
  · exact h
  · exact List.nodup_append.mpr ⟨h, List.nodup_singleton _, fun k hk k' hk' heq =>
      hmem (by rwa [← List.mem_singleton.mp hk', ← heq])⟩

/-- **No key is lost.** -/
theorem mem_keys_upsert {k : κ} :
    k ∈ (upsert key rows r).map key ↔ k = key r ∨ k ∈ rows.map key := by
  rw [map_key_upsert]
  split_ifs with hmem
  · exact ⟨Or.inr, fun h => h.elim (fun heq => heq ▸ hmem) id⟩
  · rw [List.mem_append, List.mem_singleton, or_comm]

end Upsert

end OnlineAuction.Foundation
