import OnlineAuction.Foundation.UniqueTable
import OnlineAuction.System.Machine

/-!
# Users register

`POST /users` looks whether a user has the email, and inserts one if not. Two requests with the same
email may both find none, so it is the unique key of the table that keeps them apart: the insert of the
second waits for the commit of the first, and raises. The first answers 201, the second has no answer
of its own, and a third one, later, 409.

## What is proved

* `registered_once` — whatever fails or crashes, no email is registered twice, the calls that answered
  201 are those whose users are there, and those that answered 409 met one. The service beside it runs
  as it does without.
* `registration_decided` — a call for which nothing fails leaves its email registered, by itself or by
  another call, and never waits for ever.

## Honest scope

A call inserts its row under a key that no call had before. The isolation level is `READ COMMITTED`.
-/

namespace OnlineAuction.System

open OnlineAuction.Foundation OnlineAuction.Store OnlineAuction.Lifecycle OnlineAuction.Bidding

/-! ### The calls -/

/-- `UserCreate`. -/
structure UserCreate where
  /-- The name. -/
  displayName : PyStr
  /-- The email. -/
  email : PyStr

/-- A row of `user`. -/
structure User where
  /-- The name. -/
  displayName : String
  /-- The email. -/
  email : String
  /-- When it was made. -/
  createdAt : ℤ
  deriving DecidableEq

namespace UserCreate

/-- The columns take the new row. -/
def fits (data : UserCreate) : Bool := strFits (some 255) data.displayName && strFits (some 255) data.email

/-- What they keep of it. -/
def row (data : UserCreate) (now : ℤ) : User where
  displayName := cutText 255 data.displayName
  email := cutText 255 data.email
  createdAt := now

end UserCreate

/-- Where a call of `create_user` is. -/
inductive RegisterPc where
  /-- It awaits the select of its email. -/
  | select
  /-- It awaits the flush of its row. -/
  | insert
  /-- It awaits the refresh of its row and the commit of `get_session`. -/
  | commit (row : User)
  /-- It has answered 201, with the row. -/
  | registered (row : User)
  /-- It has answered 409. -/
  | taken
  /-- It has raised. -/
  | raised
  deriving DecidableEq

/-- The call has not ended. -/
def RegisterPc.running : RegisterPc → Bool
  | .select | .insert | .commit _ => true
  | _ => false

/-- A call of `create_user`. -/
structure Registration where
  /-- The body. -/
  data : UserCreate
  /-- Where it is. -/
  pc : RegisterPc

/-- The service, with the table `user` and the calls of `create_user`, by the key of their row. -/
structure Desk where
  /-- The service. -/
  sys : Sys
  /-- The table. -/
  table : UniqueTable Uuid User
  /-- The calls. -/
  calls : Uuid → Option Registration

/-- Nobody has registered. -/
def Desk.initial (now : ℤ) : Desk := ⟨.initial now [], .empty, fun _ => none⟩

/-- The steps. -/
inductive DeskAct where
  /-- The rest of the service moves. -/
  | service (act : Act)
  /-- `create_user` is called. -/
  | post (user : Uuid) (data : UserCreate)
  /-- The next command of `create_user`, which raises or not. -/
  | step (user : Uuid) (fault : Bool)
  /-- The process crashes and starts again. -/
  | crash

namespace Desk

/-- The call goes on. -/
def goto (d : Desk) (u : Uuid) (c : Registration) (pc : RegisterPc) : Desk :=
  { d with calls := Function.update d.calls u (some { c with pc := pc }) }

/-- It raises, and `get_session` rolls back. -/
def raise (d : Desk) (u : Uuid) (c : Registration) (pc : RegisterPc) : Desk :=
  { d.goto u c pc with table := d.table.rollback u }

end Desk

/-- The next command of `create_user`: `none` when its insert waits. -/
def registerStep (d : Desk) (u : Uuid) (c : Registration) (fault : Bool) : Option Desk :=
  match c.pc with
  | .select =>
    if fault || !strFits none c.data.email then some (d.raise u c .raised)
    else
      match d.table.select User.email c.data.email.text with
      | [] => some (d.goto u c .insert)
      | [_] => some (d.raise u c .taken)
      -- `scalar_one_or_none` raises
      | _ => some (d.raise u c .raised)
  | .insert =>
    let row := c.data.row d.sys.now
    if fault || !c.data.fits then some (d.raise u c .raised)
    else if d.table.held User.email row.email then none
    else if d.table.taken User.email row.email then some (d.raise u c .raised)
    else some { d.goto u c (.commit row) with table := d.table.insert u row }
  | .commit row =>
    if fault then some (d.raise u c .raised)
    else (step d.sys (.register u)).map fun t =>
      { d.goto u c (.registered row) with sys := t, table := d.table.commit u }
  | _ => none

/-- A call after a crash. -/
def crashedRegistration (c : Registration) : Registration :=
  if c.pc.running then { c with pc := .raised } else c

/-- One step. -/
def deskStep (d : Desk) : DeskAct → Option Desk
  -- a registration and a crash are steps of the desk
  | .service (.register _) | .service .crash => none
  | .service act => (step d.sys act).map fun t => { d with sys := t }
  | .post u data =>
    if d.calls u = none then
      some { d with calls := Function.update d.calls u (some ⟨data, .select⟩) }
    else none
  | .step u fault =>
    match d.calls u with
    | some c => registerStep d u c fault
    | none => none
  | .crash => (step d.sys .crash).map fun t =>
      ⟨t, d.table.rollbackAll, fun u => (d.calls u).map crashedRegistration⟩

/-! ### What a command does -/

theorem strFits_none_of_fits {width : Option ℕ} {s : PyStr} (h : strFits width s = true) :
    strFits none s = true := by
  simp only [strFits, textFits, Bool.and_eq_true] at h ⊢
  exact ⟨h.1, rfl, h.2.2⟩

/-- What a column keeps is not cut a second time. -/
theorem cutText_eq {width : ℕ} {s s' : PyStr} (h : cutText width s = s'.text) :
    cutText width s' = s'.text := by
  refine if_pos ?_
  rw [← h, cutText]
  split_ifs with hle
  · exact hle
  · simp

/-- The next command of `create_user`, by what it does. -/
inductive RegisterStep (d : Desk) (u : Uuid) (c : Registration) (fault : Bool) : Desk → Prop where
  /-- It raises. -/
  | raised (hrun : c.pc.running = true)
    (hwhy : fault = true ∨ c.data.fits = false ∨
      ∃ e ∈ d.table.committed, e.2.email = cutText 255 c.data.email) :
    RegisterStep d u c fault (d.raise u c .raised)
  /-- A user has the email. -/
  | taken (hpc : c.pc = .select) {e : Uuid × User} (he : e ∈ d.table.committed) (hemail : e.2.email = c.data.email.text) :
    RegisterStep d u c fault (d.raise u c .taken)
  /-- No user has it. -/
  | unseen (hpc : c.pc = .select) : RegisterStep d u c fault (d.goto u c .insert)
  /-- The row is flushed. -/
  | inserted {row : User} (hpc : c.pc = .insert) (hfits : c.data.fits = true)
    (hrow : row = c.data.row d.sys.now) (hheld : d.table.held User.email row.email = false)
    (htaken : d.table.taken User.email row.email = false) :
    RegisterStep d u c fault { d.goto u c (.commit row) with table := d.table.insert u row }
  /-- It is committed. -/
  | committed {row : User} {t : Sys} (hpc : c.pc = .commit row) (hstep : step d.sys (.register u) = some t) :
    RegisterStep d u c fault { d.goto u c (.registered row) with sys := t, table := d.table.commit u }

theorem registerStep_cases {d d' : Desk} {u : Uuid} {c : Registration} {fault : Bool}
    (hunique : d.table.Unique User.email) (h : registerStep d u c fault = some d') :
    RegisterStep d u c fault d' := by
  unfold registerStep at h
  split at h
  · rename_i hpc
    have hrun : c.pc.running = true := by rw [hpc]; rfl
    split_ifs at h with hfail
    · cases h
      refine .raised hrun ?_
      rcases (Bool.or_eq_true _ _).mp hfail with hfault | htext
      · exact Or.inl hfault
      · refine Or.inr (Or.inl ?_)
        by_contra hfits
        rw [Bool.not_eq_false, UserCreate.fits, Bool.and_eq_true] at hfits
        simp [strFits_none_of_fits hfits.2] at htext
    · split at h
      · cases h
        exact .unseen hpc
      · rename_i e hsel
        cases h
        have he : e ∈ d.table.select User.email c.data.email.text := hsel ▸ List.mem_singleton_self e
        rw [UniqueTable.mem_select] at he
        exact .taken hpc he.1 he.2
      · rename_i hnil hone
        -- the email is unique
        rcases hunique.select_cases c.data.email.text with hsel | ⟨e, hsel⟩
        · exact absurd hsel hnil
        · exact absurd hsel (hone e)
  · rename_i hpc
    have hrun : c.pc.running = true := by rw [hpc]; rfl
    simp only at h
    split_ifs at h with hfail hheld htaken
    · cases h
      exact .raised hrun ((Bool.or_eq_true _ _).mp hfail |>.imp id fun hfits => Or.inl (by simpa using hfits))
    · cases h
      exact .raised hrun (Or.inr (Or.inr (UniqueTable.taken_eq_true_iff.mp htaken)))
    · cases h
      refine .inserted hpc ?_ rfl (Bool.eq_false_iff.mpr hheld) (Bool.eq_false_iff.mpr htaken)
      simpa using (not_or.mp (fun hor => hfail ((Bool.or_eq_true _ _).mpr hor))).2
  · rename_i row hpc
    split_ifs at h with hfault
    · cases h
      exact .raised (by rw [hpc]; rfl) (Or.inl hfault)
    · obtain ⟨t, ht, rfl⟩ := Option.map_eq_some_iff.mp h
      exact .committed hpc ht
  · cases h

/-- The steps, by what they do. -/
inductive DeskMove (d : Desk) : DeskAct → Desk → Prop where
  /-- The rest of the service moves. -/
  | served {act : Act} {t : Sys} (hstep : step d.sys act = some t) (hact : ∀ u, act ≠ .register u) :
    DeskMove d (.service act) { d with sys := t }
  /-- `create_user` is called. -/
  | posted {u : Uuid} {data : UserCreate} (hnew : d.calls u = none) :
    DeskMove d (.post u data) { d with calls := Function.update d.calls u (some ⟨data, .select⟩) }
  /-- A call moves. -/
  | moved {u : Uuid} {c : Registration} {fault : Bool} {d' : Desk} (hc : d.calls u = some c)
    (hmove : RegisterStep d u c fault d') : DeskMove d (.step u fault) d'
  /-- The process crashes. -/
  | crashed {t : Sys} (hstep : step d.sys .crash = some t) :
    DeskMove d .crash ⟨t, d.table.rollbackAll, fun u => (d.calls u).map crashedRegistration⟩

theorem deskStep_cases {d d' : Desk} {act : DeskAct} (hunique : d.table.Unique User.email)
    (h : deskStep d act = some d') : DeskMove d act d' := by
  cases act with
  | service act =>
    cases act with
    | register | crash => cases h
    | _ =>
      simp only [deskStep, Option.map_eq_some_iff] at h
      obtain ⟨t, ht, rfl⟩ := h
      exact .served ht (by simp)
  | post u data =>
    simp only [deskStep] at h
    split_ifs at h with hnew
    cases h
    exact .posted hnew
  | step u fault =>
    simp only [deskStep] at h
    split at h
    · rename_i c hc
      exact .moved hc (registerStep_cases hunique h)
    · cases h
  | crash =>
    simp only [deskStep, Option.map_eq_some_iff] at h
    obtain ⟨t, ht, rfl⟩ := h
    exact .crashed ht

/-! ### What every run keeps -/

/-- The call `u` is there. -/
def At (calls : Uuid → Option Registration) (u : Uuid) (pc : RegisterPc) : Prop :=
  ∃ data, calls u = some ⟨data, pc⟩

theorem at_update {calls : Uuid → Option Registration} {u u' : Uuid} {c : Registration} {pc : RegisterPc} :
    At (Function.update calls u (some c)) u' pc ↔ if u' = u then c.pc = pc else At calls u' pc := by
  split_ifs with hu
  · subst hu
    simp only [At, Function.update_self, Option.some.injEq]
    constructor
    · rintro ⟨data, rfl⟩
      rfl
    · rintro rfl
      exact ⟨c.data, rfl⟩
  · simp only [At, Function.update_of_ne hu]

theorem At.eq {calls : Uuid → Option Registration} {u : Uuid} {pc : RegisterPc} {c : Registration}
    (h : At calls u pc) (hc : calls u = some c) : c.pc = pc := by
  obtain ⟨data, hdata⟩ := h
  rw [hc, Option.some.injEq] at hdata
  rw [hdata]

/-- What a call has found or made. -/
structure CallOk (committed : List (Uuid × User)) (c : Registration) : Prop where
  /-- Its row is that of its body. -/
  row : ∀ row, c.pc = .commit row ∨ c.pc = .registered row →
    c.data.fits = true ∧ ∃ now, row = c.data.row now
  /-- The email that it met. -/
  taken : c.pc = .taken → ∃ e ∈ committed, e.2.email = c.data.email.text

/-- What holds of the desk. -/
structure DeskInv (d : Desk) : Prop where
  /-- The emails are distinct. -/
  unique : d.table.Unique User.email
  /-- The open rows are those of calls before their commit. -/
  pending : ∀ u row, (u, row) ∈ d.table.pending ↔ At d.calls u (.commit row)
  /-- The rows are those of the calls that answered 201. -/
  committed : ∀ u row, (u, row) ∈ d.table.committed ↔ At d.calls u (.registered row)
  /-- The service knows their users. -/
  users : ∀ u, u ∈ d.sys.pg.users ↔ ∃ row, (u, row) ∈ d.table.committed
  /-- The calls. -/
  calls : ∀ u c, d.calls u = some c → CallOk d.table.committed c

theorem CallOk.mono {committed committed' : List (Uuid × User)} {c : Registration}
    (h : CallOk committed c) (hsub : committed ⊆ committed') : CallOk committed' c where
  row := h.row
  taken := fun hpc => by
    obtain ⟨e, he, hemail⟩ := h.taken hpc
    exact ⟨e, hsub he, hemail⟩

theorem deskInv_initial (now : ℤ) : DeskInv (.initial now) where
  unique := UniqueTable.unique_empty
  pending := by simp [Desk.initial, UniqueTable.empty, At]
  committed := by simp [Desk.initial, UniqueTable.empty, At]
  users := by simp [Desk.initial, Sys.initial, UniqueTable.empty]
  calls := fun u c h => by cases h

section Step

variable {d d' : Desk} {u : Uuid} {c : Registration} {fault : Bool}

/-- The calls after one has moved. -/
theorem DeskInv.calls_update (hs : DeskInv d) {committed : List (Uuid × User)} {c' : Registration}
    (hsub : d.table.committed ⊆ committed) (hc' : CallOk committed c') :
    ∀ v cv, Function.update d.calls u (some c') v = some cv → CallOk committed cv := by
  intro v cv hcv
  by_cases hv : v = u
  · rw [hv, Function.update_self, Option.some.injEq] at hcv
    exact hcv ▸ hc'
  · rw [Function.update_of_ne hv] at hcv
    exact (hs.calls v cv hcv).mono hsub

/-- A call that has not ended has no committed row. -/
theorem DeskInv.not_committed (hs : DeskInv d) (hc : d.calls u = some c) (hrun : c.pc.running = true)
    (row : User) : (u, row) ∉ d.table.committed := by
  intro hmem
  rw [((hs.committed u row).mp hmem).eq hc] at hrun
  cases hrun

/-- A call that has not flushed its row has none. -/
theorem DeskInv.not_pending (hs : DeskInv d) (hc : d.calls u = some c) (hpc : ∀ row, c.pc ≠ .commit row)
    (row : User) : (u, row) ∉ d.table.pending :=
  fun hmem => hpc row (((hs.pending u row).mp hmem).eq hc)

/-- A call ends without its row. -/
theorem deskInv_raise (hs : DeskInv d) (hc : d.calls u = some c) (hrun : c.pc.running = true)
    {pc : RegisterPc} (hpc : pc = .raised ∨ pc = .taken)
    (hok : CallOk d.table.committed { c with pc := pc }) : DeskInv (d.raise u c pc) where
  unique := hs.unique.rollback u
  pending := fun v row => by
    rw [Desk.raise, UniqueTable.mem_pending_rollback, hs.pending]
    refine Iff.trans ?_ at_update.symm
    split_ifs with hv
    · rcases hpc with rfl | rfl <;> simp [hv]
    · simp [hv]
  committed := fun v row => by
    refine Iff.trans ?_ at_update.symm
    split_ifs with hv
    · rw [hv]
      refine iff_of_false (hs.not_committed hc hrun row) ?_
      rcases hpc with rfl | rfl <;> simp
    · exact hs.committed v row
  users := hs.users
  calls := hs.calls_update (List.Subset.refl _) hok

/-- A call looks for its email, and finds none. -/
theorem deskInv_goto (hs : DeskInv d) (hc : d.calls u = some c) (hpc : c.pc = .select) :
    DeskInv (d.goto u c .insert) where
  unique := hs.unique
  pending := fun v row => by
    refine Iff.trans ?_ at_update.symm
    split_ifs with hv
    · rw [hv]
      exact iff_of_false (hs.not_pending hc (by simp [hpc]) row) (by simp)
    · exact hs.pending v row
  committed := fun v row => by
    refine Iff.trans ?_ at_update.symm
    split_ifs with hv
    · rw [hv]
      exact iff_of_false (hs.not_committed hc (by rw [hpc]; rfl) row) (by simp)
    · exact hs.committed v row
  users := hs.users
  calls := hs.calls_update (List.Subset.refl _) ⟨by simp, by simp⟩

theorem deskInv_insert (hs : DeskInv d) (hc : d.calls u = some c) (hpc : c.pc = .insert)
    (hfits : c.data.fits = true) {row : User} (hrow : row = c.data.row d.sys.now)
    (hheld : d.table.held User.email row.email = false)
    (htaken : d.table.taken User.email row.email = false) :
    DeskInv { d.goto u c (.commit row) with table := d.table.insert u row } where
  unique := hs.unique.insert htaken hheld
  pending := fun v row' => by
    rw [UniqueTable.mem_pending_insert, Prod.mk.injEq]
    refine Iff.trans ?_ at_update.symm
    split_ifs with hv
    · have hnone := hs.not_pending hc (by simp [hpc]) row'
      simp [hv, hnone, eq_comm]
    · simp [hv, hs.pending]
  committed := fun v row' => by
    refine Iff.trans ?_ at_update.symm
    split_ifs with hv
    · rw [hv]
      exact iff_of_false (hs.not_committed hc (by rw [hpc]; rfl) row') (by simp)
    · exact hs.committed v row'
  users := hs.users
  calls := hs.calls_update (List.Subset.refl _) ⟨by simp [hfits, hrow], by simp⟩

theorem deskInv_commit (hs : DeskInv d) (hc : d.calls u = some c) {row : User} (hpc : c.pc = .commit row)
    {t : Sys} (hstep : step d.sys (.register u) = some t) :
    DeskInv { d.goto u c (.registered row) with sys := t, table := d.table.commit u } := by
  have hat : At d.calls u (.commit row) := ⟨c.data, by rw [hc, ← hpc]⟩
  have hok := (hs.calls u c hc).row row (Or.inl hpc)
  have hcommitted : ∀ v row', (v, row') ∈ (d.table.commit u).committed ↔
      (v = u ∧ row' = row) ∨ (v, row') ∈ d.table.committed := by
    intro v row'
    rw [UniqueTable.mem_committed_commit, hs.pending]
    refine or_congr_left ⟨fun h => ⟨h.2, ?_⟩, fun h => ?_⟩
    · obtain ⟨hv, rfl⟩ := h
      have := (hv.eq hc).symm.trans hpc
      cases this
      rfl
    · obtain ⟨rfl, rfl⟩ := h
      exact ⟨hat, rfl⟩
  refine ⟨hs.unique.commit u, fun v row' => ?_, fun v row' => ?_, fun v => ?_,
    hs.calls_update (fun e he => ?_) ⟨by simpa using hok, by simp⟩⟩
  · rw [UniqueTable.mem_pending_commit, hs.pending]
    refine Iff.trans ?_ at_update.symm
    split_ifs with hv <;> simp [hv]
  · refine (hcommitted v row').trans (Iff.trans ?_ at_update.symm)
    split_ifs with hv
    · have hnone := hs.not_committed hc (by rw [hpc]; rfl) row'
      simp [hv, hnone, eq_comm]
    · simp [hv, hs.committed]
  · cases hstep
    rw [List.mem_cons, hs.users]
    simp only [hcommitted]
    constructor
    · rintro (rfl | ⟨row', hmem⟩)
      · exact ⟨row, Or.inl ⟨rfl, rfl⟩⟩
      · exact ⟨row', Or.inr hmem⟩
    · rintro ⟨row', ⟨rfl, -⟩ | hmem⟩
      · exact Or.inl rfl
      · exact Or.inr ⟨row', hmem⟩
  · exact UniqueTable.mem_committed_commit.mpr (Or.inr he)

theorem deskInv_register (hs : DeskInv d) (hc : d.calls u = some c) (h : RegisterStep d u c fault d') :
    DeskInv d' := by
  cases h with
  | raised hrun => exact deskInv_raise hs hc hrun (Or.inl rfl) ⟨by simp, by simp⟩
  | taken hpc he hemail =>
    exact deskInv_raise hs hc (by rw [hpc]; rfl) (Or.inr rfl) ⟨by simp, fun _ => ⟨_, he, hemail⟩⟩
  | unseen hpc => exact deskInv_goto hs hc hpc
  | inserted hpc hfits hrow hheld htaken => exact deskInv_insert hs hc hpc hfits hrow hheld htaken
  | committed hpc hstep => exact deskInv_commit hs hc hpc hstep

theorem deskInv_post (hs : DeskInv d) {data : UserCreate} (hnew : d.calls u = none) :
    DeskInv { d with calls := Function.update d.calls u (some ⟨data, .select⟩) } := by
  have hnot : ∀ pc, ¬ At d.calls u pc := by
    rintro pc ⟨data', hdata⟩
    rw [hnew] at hdata
    cases hdata
  have hat : ∀ v pc, pc ≠ .select → (At d.calls v pc ↔
      At (Function.update d.calls u (some (⟨data, .select⟩ : Registration))) v pc) := by
    intro v pc hpc
    refine Iff.trans ?_ at_update.symm
    split_ifs with hv
    · rw [hv]
      exact iff_of_false (hnot pc) hpc.symm
    · exact Iff.rfl
  exact ⟨hs.unique, fun v row => (hs.pending v row).trans (hat v _ (by simp)),
    fun v row => (hs.committed v row).trans (hat v _ (by simp)), hs.users,
    hs.calls_update (List.Subset.refl _) ⟨by simp, by simp⟩⟩

/-- A crash leaves the rows that are committed. -/
theorem deskInv_crash (hs : DeskInv d) {t : Sys} (hstep : step d.sys .crash = some t) :
    DeskInv ⟨t, d.table.rollbackAll, fun u => (d.calls u).map crashedRegistration⟩ := by
  have hcrashed : ∀ {v cv}, (d.calls v).map crashedRegistration = some cv →
      d.calls v = some cv ∧ cv.pc.running = false ∨ cv.pc = .raised := by
    intro v cv h
    obtain ⟨c₀, hc₀, rfl⟩ := Option.map_eq_some_iff.mp h
    cases hrun : c₀.pc.running with
    | true => exact Or.inr (by simp [crashedRegistration, hrun])
    | false => exact Or.inl (by simp [crashedRegistration, hrun, hc₀])
  refine ⟨hs.unique.rollbackAll, fun v row => ?_, fun v row => ?_, fun v => ?_, fun v cv hcv => ?_⟩
  · refine iff_of_false (List.not_mem_nil) ?_
    rintro ⟨data, hdata⟩
    rcases hcrashed hdata with ⟨-, hrun⟩ | hpc <;> contradiction
  · refine (hs.committed v row).trans ⟨?_, ?_⟩
    · rintro ⟨data, hdata⟩
      exact ⟨data, by simp [hdata, crashedRegistration, RegisterPc.running]⟩
    · rintro ⟨data, hdata⟩
      rcases hcrashed hdata with ⟨hdata, -⟩ | hpc
      · exact ⟨data, hdata⟩
      · cases hpc
  · cases hstep
    exact hs.users v
  · rcases hcrashed hcv with ⟨hcv, -⟩ | hpc
    · exact hs.calls v cv hcv
    · exact ⟨by simp [hpc], by simp [hpc]⟩

/-- **Every step of the desk**, whatever fails. -/
theorem deskInv_step {act : DeskAct} (hs : DeskInv d) (h : deskStep d act = some d') : DeskInv d' := by
  cases deskStep_cases hs.unique h with
  | @served act t hstep hact =>
    have husers : t.pg.users = d.sys.pg.users :=
      (step_cases hstep).users_cases.resolve_right (by simp [hact])
    exact ⟨hs.unique, hs.pending, hs.committed, fun v => husers ▸ hs.users v, hs.calls⟩
  | posted hnew => exact deskInv_post hs hnew
  | moved hc hmove => exact deskInv_register hs hc hmove
  | crashed hstep => exact deskInv_crash hs hstep

end Step

theorem deskInv_of_reach {ok : Desk → DeskAct → Desk → Prop} {now : ℤ} {d : Desk}
    (hd : Reach deskStep ok (.initial now) d) : DeskInv d :=
  hd.invariant (fun hs h _ => deskInv_step hs h) (deskInv_initial now)

/-- A step of the desk is one of the service, or none. -/
theorem DeskMove.sys {d d' : Desk} {act : DeskAct} (h : DeskMove d act d') :
    (∃ act, step d.sys act = some d'.sys) ∨ d'.sys = d.sys := by
  cases h with
  | served hstep => exact Or.inl ⟨_, hstep⟩
  | posted => exact Or.inr rfl
  | moved _ hmove =>
    cases hmove with
    | committed hpc hstep => exact Or.inl ⟨_, hstep⟩
    | _ => exact Or.inr rfl
  | crashed hstep => exact Or.inl ⟨_, hstep⟩

/-- The service moves as it does without a desk. -/
theorem reachable_of_desk {now : ℤ} {d : Desk} (hd : Reach deskStep (fun _ _ _ => True) (.initial now) d) :
    Reachable now [] d.sys := by
  refine hd.invariant_with (J := DeskInv) (I := fun d => Reachable now [] d.sys)
    (fun hs h _ => deskInv_step hs h) ?_ (deskInv_initial now)
    (show Reachable now [] (Desk.initial now).sys from Reach.refl _)
  intro d act d' hs hreach h _
  rcases (deskStep_cases hs.unique h).sys with ⟨act', hstep⟩ | heq
  · exact hreach.tail ⟨act', hstep, trivial⟩
  · exact heq ▸ hreach

/-! ### A call for which nothing fails -/

/-- The step does not fail the call `u`. -/
def DeskAct.spares (u : Uuid) : DeskAct → Bool
  | .step v fault => !(v = u && fault)
  | .crash => false
  | _ => true

/-- If the call has raised over a row that fits, then over a user with its email. -/
def RaisedOver (u : Uuid) (d : Desk) : Prop :=
  ∀ c, d.calls u = some c → c.pc = .raised → c.data.fits = true →
    ∃ e ∈ d.table.committed, e.2.email = cutText 255 c.data.email

section Decide

variable {d d' : Desk} {u : Uuid}

/-- Users stay. -/
theorem DeskMove.committed {act : DeskAct} (h : DeskMove d act d') :
    d.table.committed ⊆ d'.table.committed := by
  cases h with
  | moved _ hmove =>
    cases hmove with
    | committed => exact fun e he => UniqueTable.mem_committed_commit.mpr (Or.inr he)
    | _ => exact List.Subset.refl _
  | _ => exact List.Subset.refl _

theorem raisedOver_step {act : DeskAct} (hs : RaisedOver u d) (h : DeskMove d act d')
    (hact : act.spares u = true) : RaisedOver u d' := by
  intro c hc hpc hfits
  have hkept : d.calls u = some c → ∃ e ∈ d'.table.committed, e.2.email = cutText 255 c.data.email := by
    intro hc
    obtain ⟨e, he, hemail⟩ := hs c hc hpc hfits
    exact ⟨e, h.committed he, hemail⟩
  cases h with
  | served => exact hkept hc
  | @posted v data =>
    by_cases hv : u = v
    · simp only [hv, Function.update_self, Option.some.injEq] at hc
      subst hc
      cases hpc
    · exact hkept (by simpa only [Function.update_of_ne hv] using hc)
  | @moved v c₀ fault _ hc₀ hmove =>
    by_cases hv : u = v
    · subst hv
      cases hmove with
      | raised hrun hwhy =>
        have hfault : fault = false := by simpa [DeskAct.spares] using hact
        simp only [Desk.raise, Desk.goto, Function.update_self, Option.some.injEq] at hc
        subst hc
        exact (hwhy.resolve_left (by simp [hfault])).resolve_left (by simpa using hfits)
      | _ =>
        simp only [Desk.raise, Desk.goto, Function.update_self, Option.some.injEq] at hc
        subst hc
        cases hpc
    · refine hkept ?_
      cases hmove <;> simpa only [Desk.raise, Desk.goto, Function.update_of_ne hv] using hc
  | crashed => cases hact

theorem registerStep_isSome {c : Registration} (hrun : c.pc.running = true)
    (hheld : c.pc = .insert → d.table.held User.email (cutText 255 c.data.email) = false) :
    (registerStep d u c false).isSome = true := by
  unfold registerStep
  split
  · split_ifs
    · rfl
    · split <;> rfl
  · rename_i hpc
    have hnone : d.table.held User.email (c.data.row d.sys.now).email = false := hheld hpc
    cases hfits : c.data.fits
    · simp
    · cases htaken : d.table.taken User.email (c.data.row d.sys.now).email <;> simp [hnone, htaken]
  · rfl
  · rename_i hselect hinsert hcommit
    cases hpc : c.pc with
    | select => exact absurd hpc hselect
    | insert => exact absurd hpc hinsert
    | commit row => exact absurd hpc (hcommit row)
    | registered | taken | raised => rw [hpc] at hrun; cases hrun

/-- **A call that waits** waits for one that can commit, and not longer. -/
theorem register_moves (hs : DeskInv d) {c : Registration} (hc : d.calls u = some c)
    (hrun : c.pc.running = true) : (deskStep d (.step u false)).isSome = true ∨
      ∃ v d', deskStep d (.step v false) = some d' ∧ (deskStep d' (.step u false)).isSome = true := by
  have hstep : ∀ d' : Desk, d'.calls u = some c → deskStep d' (.step u false) = registerStep d' u c false :=
    fun d' hc' => by simp only [deskStep, hc']
  by_cases hwait : c.pc = .insert ∧ d.table.held User.email (cutText 255 c.data.email) = true
  · obtain ⟨hpc, hheld⟩ := hwait
    obtain ⟨⟨v, row⟩, hmem, hemail⟩ := UniqueTable.held_eq_true_iff.mp hheld
    obtain ⟨data, hv⟩ := (hs.pending v row).mp hmem
    have hne : u ≠ v := by
      rintro rfl
      rw [hv, Option.some.injEq] at hc
      rw [← hc] at hpc
      cases hpc
    refine Or.inr ⟨v, _, by simp only [deskStep, hv, registerStep]; rfl, ?_⟩
    rw [hstep _ (by simp [Desk.goto, hne, hc])]
    refine registerStep_isSome hrun fun _ => ?_
    rw [← hemail]
    exact hs.unique.not_held_commit hmem
  · left
    rw [hstep d hc]
    exact registerStep_isSome hrun fun hpc => by simpa [hpc] using hwait

/-- **A call for which nothing fails**, and whose row fits the columns. While it runs, it can move, or
waits for the commit of one other call and can then move. When it has ended, there is one user with its
email, and it has answered 201 exactly if this user is its own. -/
theorem registration_decided {now : ℤ}
    (hd : Reach deskStep (fun _ act _ => act.spares u = true) (.initial now) d) {c : Registration}
    (hc : d.calls u = some c) (hfits : c.data.fits = true) :
    (c.pc.running = true → (deskStep d (.step u false)).isSome = true ∨
      ∃ v d', deskStep d (.step v false) = some d' ∧ (deskStep d' (.step u false)).isSome = true) ∧
    (c.pc.running = false → ∃ e ∈ d.table.committed, e.2.email = cutText 255 c.data.email ∧
      (∀ e' ∈ d.table.committed, e'.2.email = cutText 255 c.data.email → e' = e) ∧
      ∀ row, c.pc = .registered row ↔ e = (u, row)) := by
  have hinv : DeskInv d := deskInv_of_reach hd
  have hraised : RaisedOver u d := hd.invariant_with (J := DeskInv) (I := RaisedOver u)
    (fun hs h _ => deskInv_step hs h)
    (fun hs hu h hact => raisedOver_step hu (deskStep_cases hs.unique h) hact)
    (deskInv_initial now) (fun c hc => by cases hc)
  refine ⟨register_moves hinv hc, fun hended => ?_⟩
  have hcall := hinv.calls u c hc
  have hexists : ∃ e ∈ d.table.committed, e.2.email = cutText 255 c.data.email := by
    cases hpc : c.pc with
    | select | insert | commit => rw [hpc] at hended; cases hended
    | registered row =>
      obtain ⟨-, now, hrow⟩ := hcall.row row (Or.inr hpc)
      exact ⟨(u, row), (hinv.committed u row).mpr ⟨c.data, by rw [hc, ← hpc]⟩, by rw [hrow]; rfl⟩
    | taken =>
      obtain ⟨⟨v, row⟩, he, hemail⟩ := hcall.taken hpc
      obtain ⟨data, hv⟩ := (hinv.committed v row).mp he
      -- the email in the table was cut already
      obtain ⟨-, now, hrow⟩ := (hinv.calls v _ hv).row row (Or.inr rfl)
      have hcut : cutText 255 data.email = c.data.email.text :=
        (congrArg User.email hrow).symm.trans hemail
      exact ⟨(v, row), he, hemail.trans (cutText_eq hcut).symm⟩
    | raised => exact hraised c hc hpc hfits
  obtain ⟨e, he, hemail⟩ := hexists
  have hone : ∀ e' ∈ d.table.committed, e'.2.email = cutText 255 c.data.email → e' = e :=
    fun e' he' hemail' => hinv.unique.eq_of_key (List.mem_append_left _ he')
      (List.mem_append_left _ he) (hemail'.trans hemail.symm)
  refine ⟨e, he, hemail, hone, fun row => ⟨fun hpc => ?_, ?_⟩⟩
  · obtain ⟨-, now, hrow⟩ := hcall.row row (Or.inr hpc)
    refine (hone (u, row) ((hinv.committed u row).mpr ⟨c.data, by rw [hc, ← hpc]⟩) ?_).symm
    rw [hrow]
    rfl
  · rintro rfl
    exact ((hinv.committed u row).mp he).eq hc

end Decide

/-! ### A run -/

/-- A body. -/
def ann : UserCreate := ⟨.ofText ['A', 'n', 'n'], .ofText ['a', '@', 'b']⟩

/-- Two calls with the same email look for it before either inserts, and a third looks later. -/
def annTwice : List DeskAct :=
  [.post 1 ann, .post 2 ann, .step 1 false, .step 2 false, .step 1 false, .step 1 false, .step 2 false,
    .post 3 ann, .step 3 false]

/-- The second call raises over the user of the first. -/
theorem registration_decided_ann : ∃ d : Desk, ∃ c, d.calls 2 = some c ∧ c.pc = .raised ∧
    ∃ e ∈ d.table.committed, e.2.email = cutText 255 ann.email ∧ e.1 ≠ 2 := by
  obtain ⟨d, hd, hp⟩ := exists_reach deskStep (fun _ act _ => DeskAct.spares 2 act = true) annTwice
    (s := .initial 1000000000)
    (p := fun d => (d.calls 2).any fun c => c.pc = .raised ∧ c.data.fits = true ∧
      cutText 255 c.data.email = cutText 255 ann.email) (by decide +kernel)
  obtain ⟨c, hc, hp⟩ := (Option.any_eq_true _ _).mp hp
  obtain ⟨hpc, hfits, hann⟩ := of_decide_eq_true hp
  obtain ⟨⟨v, row⟩, he, hemail, -, hown⟩ := (registration_decided hd hc hfits).2 (by rw [hpc]; rfl)
  refine ⟨d, c, hc, hpc, (v, row), he, hemail.trans hann, ?_⟩
  rintro rfl
  have hreg := (hown row).mpr rfl
  rw [hpc] at hreg
  cases hreg

end OnlineAuction.System
