import OnlineAuction.System.Auctions
import OnlineAuction.System.Amounts

/-!
# The end of an auction

The end stands in the row in microseconds and in the hash in whole seconds. The close poll compares
its clock with both, the script compares the hash with a clock that the call read before it loaded
the row and wrote the stream.

## What is proved

* `acceptedBy` — what accepts a bid is the script of a call whose clock, in whole seconds, is
  before the end of the row.
* `end_agrees` — an active hash has the end of its row in whole seconds; no end is ever found moved;
  after a poll has selected an auction, no bid is accepted on it whose clock was read since.
* `accepted_before_end` — where no call overtaken by the end reaches an open auction, bids are
  accepted before the end only.
-/

namespace OnlineAuction.System

open OnlineAuction.Foundation OnlineAuction.Store OnlineAuction.Lifecycle OnlineAuction.Bidding

/-! ### The two copies of the end -/

/-- The auction has the row: committed, or flushed by a creation that is still on its way. -/
def Listed (s : Sys) (a : Uuid) (row : Auction) : Prop :=
  s.pg.auction a = some row ∨ ∃ pc, pc ≠ .ended ∧ s.creates a = some ⟨row, pc⟩

theorem AuctionsInv.ofRow {s : Sys} (hs : AuctionsInv s) {a : Uuid} {row : Auction}
    {h : AuctionHash} (hrow : Listed s a row) (hh : s.redis.hash a = some h) : OfRow row h := by
  rcases hrow with hrow | ⟨pc, hpc, hc⟩
  · exact hs.hashes a row h hrow hh
  · exact (hs.pending a _ hc hpc).2.2 h hh

/-- An active hash has an end. -/
def EndKnown (s : Sys) : Prop :=
  ∀ a h, s.redis.hash a = some h → h.state = some .active → h.endTs ≠ none

theorem endKnown_step {s t : Sys} {act : Act} (hs : AuctionsInv s) (hend : EndKnown s)
    (h : SysStep s act t) : EndKnown t := by
  intro a h' hh hstate
  cases h.hash a with
  | kept hash => exact hend a h' (hash ▸ hh) hstate
  | opened _ _ hash | started _ _ hash =>
    rw [hash, Option.some.injEq] at hh
    subst hh
    simp [initRedisHash]
  | booked _ _ _ _ _ hfound hadm hash =>
    rw [hash, Option.some.injEq] at hh
    subst hh
    have hold := hend a _ hfound
    exact hold hstate
  | closed _ src hpc htodo hash =>
    -- a close never writes `ACTIVE`
    rw [hash, Option.some.injEq] at hh
    subst hh
    have hne := ((hs.closes _ src).obj _ (Or.inr hpc) _ (by rw [htodo]; rfl)).state.2
    exact absurd (Option.some.inj hstate) hne
  | lost _ hash => rw [hash] at hh; cases hh

theorem endKnown_of_reach {now : ℤ} {users : List Uuid} {s : Sys} (hs : Reachable now users s) :
    EndKnown s :=
  hs.invariant_with (fun hs hstep _ => auctionsInv_step hs hstep)
    (fun hs hend hstep _ => endKnown_step hs hend (step_cases hstep))
    (auctionsInv_initial now users) (fun _ _ hh => by cases hh)

/-- **The end in an active hash** is that of the row. -/
theorem endTs_of_active {now : ℤ} {users : List Uuid} {s : Sys} (hs : Reachable now users s)
    {a : Uuid} {row : Auction} {h : AuctionHash} (hrow : Listed s a row)
    (hh : s.redis.hash a = some h) (hstate : h.state = some .active) :
    h.endTs = some (unixSeconds row.endTs) := by
  obtain ⟨e, he⟩ := Option.ne_none_iff_exists'.mp (endKnown_of_reach hs a h hh hstate)
  rw [he, ((auctionsInv_of_reach hs).ofRow hrow hh).endTs e he]

/-- No step moves the end of a committed row. -/
theorem endTs_step {s t : Sys} {act : Act} {a : Uuid} {endTs : ℤ} (hs : AuctionsInv s)
    (h : SysStep s act t) (hrow : (s.pg.auction a).map (·.endTs) = some endTs) :
    (t.pg.auction a).map (·.endTs) = some endTs := by
  obtain ⟨row, hrow', rfl⟩ := Option.map_eq_some_iff.mp hrow
  exact ((h.row a).change hs).fixed (fun _ _ _ _ => rfl) hrow'

/-! ### Accepted bids -/

/-- What accepted a bid on the auction `a`: the script of a call whose clock, in whole seconds, is
before the end of the row. -/
structure AcceptedBy (s : Sys) (act : Act) (a : Uuid) (b : Uuid) (c : Call) (row : Auction) :
    Prop where
  /-- The call runs its script. -/
  run : act = .bidStep b false
  /-- The call. -/
  call : s.bids b = some c
  /-- Its script, with its arguments. -/
  script : ∃ endTs, scriptRun s act = some (c, c.argv b endTs) ∧
    ∃ h, s.redis.hash a = some h ∧ openFor h (c.argv b endTs) = true
  /-- It bids on the auction. -/
  auction : c.auctionId = a
  /-- The row of the auction. -/
  found : s.pg.auction a = some row
  /-- Its clock is before the end. -/
  clock : unixSeconds c.nowTs < unixSeconds row.endTs

/-- **Whatever accepts a bid** has read its clock before the end. -/
theorem acceptedBy {s t : Sys} {act : Act} {a : Uuid} (hs : AuctionsInv s) (h : SysStep s act t)
    (hacc : t.accepted a ≠ s.accepted a) : ∃ b c row, AcceptedBy s act a b c row := by
  cases h.hash a with
  | kept _ log | opened _ _ _ log | started _ _ _ log | closed _ _ _ _ _ log | lost _ _ log =>
    exact absurd log hacc
  | @booked b c endTs h hact src hpc hauction hfresh hfound hadmits =>
    subst hauction
    obtain ⟨row, hrow⟩ := Option.ne_none_iff_exists'.mp (hs.loaded b c src (by rw [hpc]; rfl))
    obtain ⟨e, inc, hadm⟩ := hadmits
    have he := (hs.hashes _ row h hrow hfound).endTs e hadm.hasEnd
    have hopen : openFor h (c.argv b endTs) = true :=
      decide_eq_true ⟨hadm.state, by rw [hadm.hasEnd]; exact decide_eq_true hadm.notEnded⟩
    refine ⟨b, c, row, hact, src, ⟨endTs, ?_, h, hfound, hopen⟩, rfl, hrow, ?_⟩
    · rw [hact]
      exact scriptRun_of_evalsha src hpc
    · have := hadm.notEnded
      rwa [he] at this

/-- **The copies of the end agree.** An active hash has the end of its row in whole seconds, which
is the floor for every end from 1970 on and before `2 ^ 34` seconds after it. The close poll finds
no end moved. When it has selected an auction at an instant, every bid accepted later is that of a
call that read its clock before that instant. -/
theorem end_agrees {now : ℤ} {users : List Uuid} {s : Sys} (hs : Reachable now users s) {a : Uuid} :
    (∀ row h, Listed s a row → s.redis.hash a = some h → h.state = some .active →
      h.endTs = some (unixSeconds row.endTs) ∧
        (0 ≤ row.endTs → row.endTs < 2 ^ 34 * 1000000 →
          h.endTs = some ⌊(row.endTs / 1000000 : ℚ)⌋)) ∧
    (∀ p, s.closes = some p → ∀ b ∈ p.todo, extendedEnd p.nowUtc (s.redis.hash b.1) = none) ∧
    ∀ batch t u v row act, step s (.closeSelect batch) = some t → (a, row) ∈ batch →
      Reach step (fun _ _ _ => True) t u → step u act = some v → v.accepted a ≠ u.accepted a →
      ∃ b c, act = .bidStep b false ∧ u.bids b = some c ∧ c.auctionId = a ∧ c.nowTs < s.now := by
  refine ⟨?_, ?_, ?_⟩
  · intro row h hrow hh hstate
    have hend := endTs_of_active hs hrow hh hstate
    refine ⟨hend, ?_⟩
    intro h₀ hlt
    rw [hend, unixSeconds_eq_floor h₀ hlt]
  · intro p hp b hb
    obtain ⟨hrow, -, hdue⟩ := ((auctionsInv_of_reach hs).closes p hp).todo b hb
    exact extendedEnd_of_due (auctionsInv_of_reach hs) hrow hdue
  · intro batch t u v row act hsel hmem hlater hstep hacc
    have ht : Reach step (fun _ _ _ => True) s t := .single ⟨_, hsel, trivial⟩
    have hu : AuctionsInv u := auctionsInv_of_reach ((hs.trans ht).trans hlater)
    -- the selected row was due, and its end is still there
    obtain ⟨hrow, hdue⟩ : s.pg.auction a = some row ∧ row.endTs ≤ s.now := by
      cases step_cases hsel with
      | closeSelected _ hbatch =>
        obtain ⟨hrow, hdue⟩ := hbatch.rows (a, row) hmem
        exact ⟨hrow, (of_decide_eq_true hdue).2⟩
    have hend : (u.pg.auction a).map (·.endTs) = some row.endTs :=
      (ht.trans hlater).invariant_with (fun hs hstep _ => auctionsInv_step hs hstep)
        (fun hs hend hstep _ => endTs_step hs (step_cases hstep) hend)
        (auctionsInv_of_reach hs) (by rw [hrow]; rfl)
    obtain ⟨b, c, row', hby⟩ := acceptedBy hu (step_cases hstep) hacc
    refine ⟨b, c, hby.run, hby.call, hby.auction, ?_⟩
    rw [hby.found, Option.map_some, Option.some.injEq] at hend
    have hclock := hby.clock
    rw [hend] at hclock
    by_contra hlate
    have := unixSeconds_mono (hdue.trans (not_lt.mp hlate))
    omega

/-! ### Overtaken calls -/

/-- The step runs the script of a call at or after the end of its auction, and the auction is still
open for the clock of the call. -/
def overtaken (s : Sys) (act : Act) : Bool :=
  (scriptRun s act).any fun (c, argv) =>
    (s.redis.hash c.auctionId).any (openFor · argv) ∧
      (s.pg.auction c.auctionId).any (·.endTs ≤ s.now)

/-- **Bids are accepted before the end** by every step that runs no overtaken script: it is then
before the end of the row when the script runs. -/
theorem accepted_before_end {now : ℤ} {users : List Uuid} {s t : Sys} {act : Act}
    (hs : Reach step (fun s act _ => overtaken s act = false) (.initial now users) s)
    (hstep : step s act = some t) (hok : overtaken s act = false) {a : Uuid}
    (hacc : t.accepted a ≠ s.accepted a) :
    ∃ row, s.pg.auction a = some row ∧ s.now < row.endTs := by
  obtain ⟨b, c, row, hby⟩ := acceptedBy (auctionsInv_of_reach hs) (step_cases hstep) hacc
  obtain ⟨endTs, hscript, h, hh, hopen⟩ := hby.script
  refine ⟨row, hby.found, ?_⟩
  by_contra hlate
  have hauction := hby.auction
  subst hauction
  rw [overtaken, hscript, Option.any_some] at hok
  simp only [hh, hby.found, Option.any_some, hopen, true_and, decide_eq_false_iff_not] at hok
  exact hok (decide_eq_true (not_lt.mp hlate))

/-! ### Runs -/

/-- A camera whose auction ends in the year 2514, a microsecond before a whole second. -/
def farCamera : AuctionCreate := { camera with endTs := ⟨17179869184999999, true⟩ }

/-- **The floor is missed** five centuries ahead: binary64 has no number there that is a microsecond
below a whole second. -/
theorem farCamera_rounded_up : ∃ s row h, Reachable 1000000000 [1] s ∧
    s.pg.auction 5 = some row ∧ s.redis.hash 5 = some h ∧ h.state = some .active ∧
    ⌊(row.endTs / 1000000 : ℚ)⌋ = 17179869184 ∧ h.endTs = some 17179869185 := by
  obtain ⟨s, hs, hp⟩ := exists_reach step (fun _ _ _ => True)
    [.create 5 1 farCamera, .createStep 5 false, .createStep 5 false]
    (s := .initial 1000000000 [1])
    (p := fun s => (s.pg.auction 5).any fun row => (s.redis.hash 5).any fun h =>
      h.state = some .active ∧ ⌊(row.endTs / 1000000 : ℚ)⌋ = 17179869184 ∧
        h.endTs = some 17179869185) (by decide +kernel)
  obtain ⟨row, hrow, hp⟩ := (Option.any_eq_true _ _).mp hp
  obtain ⟨h, hh, hp⟩ := (Option.any_eq_true _ _).mp hp
  obtain ⟨hstate, hfloor, hend⟩ := of_decide_eq_true hp
  exact ⟨s, row, h, hs, hrow, hh, hstate, hfloor, hend⟩

/-- The camera is selected at its end, and its hash is still active. -/
theorem end_agrees_camera : ∃ s h, Reachable 1000000000 [1] s ∧
    s.redis.hash 5 = some h ∧ h.endTs = some ⌊((1060000000 : ℤ) / 1000000 : ℚ)⌋ ∧
    ∀ t u v act, step s (.closeSelect [(5, cameraRow)]) = some t →
      Reach step (fun _ _ _ => True) t u → step u act = some v → v.accepted 5 ≠ u.accepted 5 →
      ∃ b c, act = .bidStep b false ∧ u.bids b = some c ∧ c.auctionId = 5 ∧
        c.nowTs < 1060000000 := by
  obtain ⟨s, hs, hp⟩ := exists_reach step (fun _ _ _ => True)
    [.create 5 1 camera, .createStep 5 false, .createStep 5 false, .tick 60000000]
    (s := .initial 1000000000 [1])
    (p := fun s => (s.redis.hash 5).any fun h => h.state = some .active ∧
      s.pg.auction 5 = some cameraRow ∧ s.now = 1060000000) (by decide +kernel)
  obtain ⟨h, hh, hp⟩ := (Option.any_eq_true _ _).mp hp
  obtain ⟨hstate, hrow, hnow⟩ := of_decide_eq_true hp
  obtain ⟨hcopy, -, haccept⟩ := end_agrees hs (a := 5)
  refine ⟨s, h, hs, hh, (hcopy _ h (Or.inl hrow) hh hstate).2 (by decide) (by decide), ?_⟩
  intro t u v act hsel hlater hstep hacc
  rw [← hnow]
  exact haccept _ t u v cameraRow act hsel (by simp) hlater hstep hacc

/-- A bid on the camera is accepted before its end. -/
theorem accepted_before_end_camera : ∃ s t : Sys,
    step s (.bidStep 100 false) = some t ∧ t.accepted 5 ≠ s.accepted 5 ∧
      ∃ row, s.pg.auction 5 = some row ∧ s.now < row.endTs := by
  obtain ⟨s, hs, hp⟩ := exists_reach step (fun s act _ => overtaken s act = false)
    (cameraBid (.ofNumber (.fin 25))).dropLast (s := .initial 1000000000 [1, 7])
    (p := fun s => overtaken s (.bidStep 100 false) = false ∧
      (step s (.bidStep 100 false)).any fun t => t.accepted 5 ≠ s.accepted 5) (by decide +kernel)
  obtain ⟨hok, hp⟩ := of_decide_eq_true hp
  obtain ⟨t, hstep, hacc⟩ := (Option.any_eq_true _ _).mp hp
  have hacc := of_decide_eq_true hacc
  exact ⟨s, t, hstep, hacc, accepted_before_end hs hstep hok hacc⟩

/-- **A bid is accepted after the end**: it is made before the end of the camera, and waits for more
than a minute before its script runs; no poll has closed the auction yet. -/
theorem camera_accepts_late : ∃ s t : Sys,
    Reach step (fun _ act _ => act.faultless = true) (.initial 1000000000 [1, 7]) s ∧
      step s (.bidStep 100 false) = some t ∧
      (t.accepted 5).map (·.argv.bidId) = [100] ∧ s.accepted 5 = [] ∧
      ∃ row, s.pg.auction 5 = some row ∧ row.endTs < s.now := by
  obtain ⟨s, hs, hp⟩ := exists_reach step (fun _ act _ => act.faultless = true)
    ((cameraBid (.ofNumber (.fin 25))).dropLast ++ [.tick 61000000])
    (s := .initial 1000000000 [1, 7])
    (p := fun s => (s.pg.auction 5).any fun row => row.endTs < s.now ∧ s.accepted 5 = [] ∧
      (step s (.bidStep 100 false)).any fun t => (t.accepted 5).map (·.argv.bidId) = [100])
    (by decide +kernel)
  obtain ⟨row, hrow, hp⟩ := (Option.any_eq_true _ _).mp hp
  obtain ⟨hlate, hnone, hp⟩ := of_decide_eq_true hp
  obtain ⟨t, hstep, hacc⟩ := (Option.any_eq_true _ _).mp hp
  exact ⟨s, t, hs, hstep, of_decide_eq_true hacc, hnone, row, hrow, hlate⟩

end OnlineAuction.System
