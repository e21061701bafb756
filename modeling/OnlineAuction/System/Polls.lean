import OnlineAuction.System.Auctions

/-!
# The polls in the service

The polls as functions of a whole batch (`pollDueStarts`, `pollDueCloses`) and as steps of
the service, and what a close poll with exceptions leaves behind in every reachable state.

## What is proved

* `pollDueStarts_reach` and `pollDueCloses_reach` — a poll whose steps nothing interrupts
  leads the service to the stores that these functions compute.
* `closePoll_isolated_iff` — in every reachable state the close poll settles the auctions
  that do not raise and leaves the others as they were exactly when all that raise do so at
  a read, or a flush fails and every auction raises.
-/

namespace OnlineAuction.System

open OnlineAuction.Foundation OnlineAuction.Store OnlineAuction.Lifecycle OnlineAuction.Bidding
open Relation

/-- **An uninterrupted start poll** leads to the stores `pollDueStarts` computes. -/
theorem pollDueStarts_reach {s : Sys} {batch : List (Uuid × Auction)} (hidle : s.starts = none)
    (hbatch : Selects s.pg (dueStart s.now) batch) (fails : Uuid → Bool) :
    ∃ t, Reach step (fun _ _ _ => True) s t ∧ t.starts = none ∧
      (t.redis, t.pg) = pollDueStarts fails batch s.redis s.pg := by
  have hselect : step s (.startSelect batch) = some { s with starts := some ⟨batch, []⟩ } := by
    simp only [step, hidle, Option.isNone_none, true_and, if_pos hbatch]
  let during := fun x : Redis × StartPoll => { s with redis := x.1, starts := some x.2 }
  have hlift : ∀ x y, StartMove fails x y →
      StepIf step (fun _ _ _ => True) (during x) (during y) := by
    rintro x y ⟨b, -, hmove⟩
    exact ⟨.startStep (fails b.1), by simp only [during, step, hmove, Option.map_some], trivial⟩
  have hrun : Reach step (fun _ _ _ => True) _ _ :=
    ReflTransGen.lift during hlift _ _ (startAll_run fails batch [] s.redis)
  refine ⟨_, .head ⟨_, hselect, trivial⟩ (hrun.tail ⟨.startCommit false, rfl, trivial⟩), rfl, rfl⟩

/-- **An uninterrupted close poll** leads to the stores `pollDueCloses` computes. -/
theorem pollDueCloses_reach {s : Sys} {batch : List (Uuid × Auction)} (hidle : s.closes = none)
    (hbatch : Selects s.pg (dueClose s.now) batch) (plan : Uuid → Option ClosePhase) :
    ∃ t, Reach step (fun _ _ _ => True) s t ∧ t.closes = none ∧
      (t.redis, t.pg) = pollDueCloses s.now plan batch s.redis s.pg := by
  have hselect : step s (.closeSelect batch) =
      some { s with closes := some ⟨s.now, batch, .check, []⟩ } := by
    simp only [step, hidle, Option.isNone_none, true_and, if_pos hbatch]
  let during := fun x : Redis × Option ClosePoll => { s with redis := x.1, closes := x.2 }
  have hlift : ∀ x y, CloseMove s.pg.users plan x y →
      StepIf step (fun _ _ _ => True) (during x) (during y) := by
    rintro ⟨r, p⟩ y ⟨p', hp', b, -, hmove⟩
    obtain rfl : p = some p' := hp'
    exact ⟨.closeStep (decide (plan b.1 = some p'.pc.phase)), by
      simp only [during, step, hmove, Option.map_some], trivial⟩
  have hrun : Reach step (fun _ _ _ => True) _ _ := ReflTransGen.lift during hlift _ _
    (closeAll_run s.pg.users plan s.now batch [] s.redis)
  unfold pollDueCloses
  cases hall : closeAll s.pg.users s.now plan batch s.redis [] with
  | mk r' dirty =>
    rw [hall] at hrun
    cases dirty with
    | none => exact ⟨_, .head ⟨_, hselect, trivial⟩ hrun, rfl, rfl⟩
    | some dirty =>
      exact ⟨_, .head ⟨_, hselect, trivial⟩ (hrun.tail ⟨.closeCommit false, rfl, trivial⟩), rfl, rfl⟩

/-- **What a close poll leaves behind**, in every reachable state, for every batch and every
choice of commands that raise. -/
theorem closePoll_isolated_iff {now : ℤ} {users : List Uuid} {s : Sys} (hs : Reachable now users s)
    {batch : List (Uuid × Auction)} (hbatch : Selects s.pg (dueClose s.now) batch)
    (plan : Uuid → Option ClosePhase) :
    Isolated plan batch s.redis s.pg (pollDueCloses s.now plan batch s.redis s.pg).1
        (pollDueCloses s.now plan batch s.redis s.pg).2 ↔
      RaisesHarmlessly plan batch s.redis s.pg := by
  refine closePoll_iff hbatch ?_ plan
  intro b hb
  obtain ⟨hrow, hdue⟩ := hbatch.rows b hb
  exact extendedEnd_of_due (auctionsInv_of_reach hs) hrow (of_decide_eq_true hdue).2

/-! ### A run -/

/-- Two auctions for cameras, the second with a bid of `99`, who is no user, and then a minute
passes. -/
def twoCameras : List Act :=
  [.create 5 1 camera, .createStep 5 false, .createStep 5 false, .create 6 1 camera,
    .createStep 6 false, .createStep 6 false,
    .bid 100 6 99 { amount := .ofNumber (.fin 25) }, .bidStep 100 false, .bidStep 100 false,
    .bidStep 100 false, .tick 60000000]

theorem closePoll_isolated_camera : ∃ s, Reachable 1000000000 [1] s ∧
    (Isolated (fun _ => none) [(5, cameraRow)] s.redis s.pg
        (pollDueCloses s.now (fun _ => none) [(5, cameraRow)] s.redis s.pg).1
        (pollDueCloses s.now (fun _ => none) [(5, cameraRow)] s.redis s.pg).2 ↔
      RaisesHarmlessly (fun _ => none) [(5, cameraRow)] s.redis s.pg) := by
  obtain ⟨s, hs, hp⟩ := exists_reach step (fun _ _ _ => True) twoCameras
    (s := .initial 1000000000 [1])
    (p := fun s => Selects s.pg (dueClose s.now) [(5, cameraRow)]) (by decide +kernel)
  exact ⟨s, hs, closePoll_isolated_iff hs (of_decide_eq_true hp) _⟩

/-- **One failed flush undoes the others**: closing the first camera does not raise and its
hash is closed, but as the second one's flush fails, its row stays `ACTIVE`. -/
theorem camera_not_isolated : ∃ s, Reachable 1000000000 [1] s ∧
    Selects s.pg (dueClose s.now) [(5, cameraRow), (6, cameraRow)] ∧
    closeFailure s.pg.users none (s.redis.hash 5) cameraRow = none ∧
    closeFailure s.pg.users none (s.redis.hash 6) cameraRow = some .flush ∧
    (((pollDueCloses s.now (fun _ => none) [(5, cameraRow), (6, cameraRow)] s.redis s.pg).2.auction
      5).map (·.state)) = some .active ∧
    (pollDueCloses s.now (fun _ => none) [(5, cameraRow), (6, cameraRow)] s.redis s.pg).1.hget 5
      (·.state) = some .unsold ∧
    ¬ Isolated (fun _ => none) [(5, cameraRow), (6, cameraRow)] s.redis s.pg
        (pollDueCloses s.now (fun _ => none) [(5, cameraRow), (6, cameraRow)] s.redis s.pg).1
        (pollDueCloses s.now (fun _ => none) [(5, cameraRow), (6, cameraRow)] s.redis s.pg).2 := by
  obtain ⟨s, hs, hp⟩ := exists_reach step (fun _ _ _ => True) twoCameras
    (s := .initial 1000000000 [1])
    (p := fun s => Selects s.pg (dueClose s.now) [(5, cameraRow), (6, cameraRow)] ∧
      closeFailure s.pg.users none (s.redis.hash 5) cameraRow = none ∧
      closeFailure s.pg.users none (s.redis.hash 6) cameraRow = some .flush ∧
      (((pollDueCloses s.now (fun _ => none) [(5, cameraRow), (6, cameraRow)] s.redis s.pg).2.auction
        5).map (·.state)) = some .active ∧
      (pollDueCloses s.now (fun _ => none) [(5, cameraRow), (6, cameraRow)] s.redis s.pg).1.hget 5
        (·.state) = some .unsold) (by decide +kernel)
  obtain ⟨hbatch, hnone, hflush, hactive, hshut⟩ := of_decide_eq_true hp
  refine ⟨s, hs, hbatch, hnone, hflush, hactive, hshut, ?_⟩
  intro hisolated
  obtain ⟨row, hcl, hrow, -⟩ := hisolated.settled (5, cameraRow) List.mem_cons_self hnone
  rw [hrow, Option.map_some, Option.some.injEq] at hactive
  exact hcl.not_active hactive

end OnlineAuction.System
