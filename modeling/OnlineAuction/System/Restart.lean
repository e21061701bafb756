import OnlineAuction.System.History

/-!
# Starting an auction more than once

`start_auction` writes the hash before its poll commits, and writes it whatever it holds. If the
poll ends without a commit, the auction still waits in the table, its hash is open for bids, and
the next poll writes it again.

## What is proved

* `waiting_step` — as long as no poll that ends without a commit has started an auction with an
  accepted bid, and none is accepted on an auction that waits (`startSafe`), an auction that waits
  has no accepted bid.
* `restart_keeps` — in such a run no step takes an accepted bid back.
-/

namespace OnlineAuction.System

open OnlineAuction.Foundation OnlineAuction.Store OnlineAuction.Lifecycle OnlineAuction.Bidding

/-- The auction waits in the table, and the running start poll has not started it. -/
def waits (s : Sys) (a : Uuid) : Bool :=
  (s.pg.auction a).any (·.state = .upcoming) ∧ ¬ s.starts.any fun p => p.dirty.any (·.1 = a)

/-- A start poll that ends without a commit has started no auction with an accepted bid, no bid is
accepted on an auction that waits, and no hash is lost. -/
def startSafe (s : Sys) (act : Act) : Bool :=
  match act with
  | .loseHash _ => false
  | .startCommit true | .crash => s.starts.all fun p => p.dirty.all fun b => s.accepted b.1 = []
  | act => (acceptsOn s act).all fun a => !waits s a

/-- Why an auction waits after a step. -/
inductive WaitsBefore (s : Sys) (act : Act) (a : Uuid) : Prop where
  /-- It waited before. -/
  | waited (h : waits s a = true)
  /-- It is new. -/
  | stored {row : Auction} (hact : act = .createStep a false) (hnone : s.pg.auction a = none)
    (src : s.creates a = some ⟨row, .commit⟩) (hstate : row.state = .upcoming)
  /-- A poll that had started it ends without a commit. -/
  | ended {p : StartPoll} {b : Uuid × Auction} (hact : act = .crash ∨ act = .startCommit true)
    (src : s.starts = some p) (hmem : b ∈ p.dirty) (hb : b.1 = a)

theorem waits_before {s t : Sys} {act : Act} {a : Uuid} (hs : AuctionsInv s) (h : SysStep s act t)
    (ht : waits t a = true) : WaitsBefore s act a := by
  obtain ⟨hupcoming, hdirty⟩ := of_decide_eq_true ht
  obtain ⟨row', hrow', hstate'⟩ := (Option.any_eq_true _ _).mp hupcoming
  have hstate' := of_decide_eq_true hstate'
  cases (h.row a).change hs with
  | stored hact hnone src _ row =>
    obtain rfl := Option.some.inj (row.symm.trans hrow')
    exact .stored hact hnone src hstate'
  | started _ _ _ row =>
    obtain rfl := Option.some.inj (row.symm.trans hrow')
    cases hstate'
  | closed _ _ _ hclosing row =>
    obtain rfl := Option.some.inj (row.symm.trans hrow')
    exact absurd hstate' hclosing.state.1
  | kept row =>
    by_cases hstarted : s.starts.any (fun p => p.dirty.any (·.1 = a)) = true
    · -- the running poll had started it, so it has ended without a commit
      obtain ⟨p, hp, hmem⟩ := (Option.any_eq_true _ _).mp hstarted
      obtain ⟨b, hb, hba⟩ := List.any_eq_true.mp hmem
      have hba := of_decide_eq_true hba
      cases h.startPoll with
      | kept _ poll => rw [poll] at hdirty; exact absurd hstarted hdirty
      | selected _ hidle => rw [hidle] at hp; cases hp
      | started _ src poll =>
        rw [poll] at hdirty
        obtain rfl := Option.some.inj (hp.symm.trans src)
        simp only [Option.any_some, List.any_append, Bool.or_eq_true, not_or] at hdirty
        exact absurd hmem hdirty.1
      | gone hact =>
        rcases hact with rfl | ⟨fault, dirty, rfl, src⟩
        · exact .ended (Or.inl rfl) hp hb hba
        · cases fault with
          | true => exact .ended (Or.inr rfl) hp hb hba
          | false =>
            exfalso
            obtain rfl := Option.some.inj (hp.symm.trans src)
            obtain ⟨row₀, -, -, heq⟩ := (hs.starts _ src).dirty b hb
            have hrow : t.pg.auction b.1 = some b.2 := by
              rw [h.startCommitted src]
              exact Pg.setRows_of_mem (by simpa using (hs.starts _ src).nodup) hb _
            rw [hba, hrow', Option.some.injEq] at hrow
            rw [hrow, heq] at hstate'
            cases hstate'
    · exact .waited (decide_eq_true ⟨row ▸ hupcoming, hstarted⟩)

/-- **An auction that waits has no accepted bid**, step after step. -/
theorem waiting_step {s t : Sys} {act : Act} {a : Uuid} (hs : AuctionsInv s)
    (hw : waits s a = true → s.accepted a = []) (h : SysStep s act t) (hok : startSafe s act = true)
    (ht : waits t a = true) : t.accepted a = [] := by
  have hback := waits_before hs h ht
  cases h.hash a with
  | booked hact src hpc hauction hfresh hfound hadmits =>
    subst hauction
    have haccepts := acceptsOn_of_admits src hpc hfound hadmits
    cases hback with
    | waited hwaits =>
      rw [hact] at hok
      simp [startSafe, haccepts, hwaits] at hok
    | stored hact' => rw [hact] at hact'; cases hact'
    | ended hact' => rw [hact] at hact'; rcases hact' with hact' | hact' <;> cases hact'
  | kept _ log | opened _ _ _ log | started _ _ _ log | closed _ _ _ _ _ log | lost _ _ log =>
    rw [log]
    cases hback with
    | waited hwaits => exact hw hwaits
    | stored _ hnone => exact hs.accepted a hnone
    | @ended p b hact src hmem hb =>
      have hall : (s.starts.all fun p => p.dirty.all fun b => s.accepted b.1 = []) = true := by
        rcases hact with rfl | rfl <;> exact hok
      rw [src, Option.all_some, List.all_eq_true] at hall
      exact hb ▸ of_decide_eq_true (hall b hmem)

/-- Such a step remembers every auction. -/
theorem remembers_of_startSafe {s : Sys} {act : Act} {a : Uuid} (hs : AuctionsInv s)
    (hw : waits s a = true → s.accepted a = []) (hok : startSafe s act = true) :
    Remembers s act a where
  kept := by
    rintro rfl
    cases hok
  started := by
    rintro ⟨-, row, rest, dirty, hp⟩
    obtain ⟨hrow, hstate⟩ := hs.row_of_starts hp
    have hnodup := (hs.starts _ hp).nodup
    rw [List.cons_append, List.map_cons, List.nodup_cons] at hnodup
    refine hw (decide_eq_true ⟨by rw [hrow]; exact decide_eq_true hstate, ?_⟩)
    intro hdirty
    rw [hp, Option.any_some] at hdirty
    obtain ⟨b, hb, hba⟩ := List.any_eq_true.mp hdirty
    refine hnodup.1 (List.mem_map.mpr ⟨b, List.mem_append_right _ hb, of_decide_eq_true hba⟩)

/-! ### Every run -/

/-- A step that is safe, and compares no NaN. -/
def restartOk (s : Sys) (act : Act) : Bool := startSafe s act && !comparesNan s act

/-- What such runs keep. -/
structure RestartInv (s : Sys) (a : Uuid) : Prop extends HistoryInv s a where
  /-- An auction that waits has no accepted bid. -/
  waiting : waits s a = true → s.accepted a = []

theorem restartInv_step {s t : Sys} {act : Act} {a : Uuid} (hs : RestartInv s a)
    (hstep : step s act = some t) (hok : restartOk s act = true) : RestartInv t a := by
  obtain ⟨hsafe, hnan⟩ := Bool.and_eq_true_iff.mp hok
  have hrem := remembers_of_startSafe (a := a) hs.auctions hs.waiting hsafe
  exact ⟨historyInv_step hs.toHistoryInv hstep hrem (by simpa using hnan),
    waiting_step hs.auctions hs.waiting (step_cases hstep) hsafe⟩

/-- No bid accepted so far is taken back: the sequence number and the highest bid do not fall, the
highest bidder is not cleared. -/
structure Keeps (h h' : AuctionHash) : Prop where
  /-- The sequence number. -/
  sequenceNum : ∃ n n', h.sequenceNum = some n ∧ h'.sequenceNum = some n' ∧ n ≤ n'
  /-- The highest bid. -/
  highestBid : ∃ d d', h.highestBid = some d ∧ h'.highestBid = some d' ∧ d.value ≤ d'.value
  /-- The highest bidder. -/
  highestBidder : ∃ b, h'.highestBidder = some (some b)

/-- **No accepted bid is taken back** in a run of such steps, and no sequence number is given
twice. -/
theorem restart_keeps {now : ℤ} {users : List Uuid} {s t : Sys}
    (hs : Reach step (fun s act _ => restartOk s act = true) (.initial now users) s)
    (ht : Reach step (fun s act _ => restartOk s act = true) s t) {a : Uuid}
    (hne : s.accepted a ≠ []) :
    (∃ h h', s.redis.hash a = some h ∧ t.redis.hash a = some h' ∧ Keeps h h') ∧
      s.accepted a <+: t.accepted a ∧ ((t.accepted a).map (·.seq)).Nodup := by
  have hinv : ∀ {u}, Reach step (fun s act _ => restartOk s act = true) (.initial now users) u →
      RestartInv u a := fun hu =>
    hu.invariant (fun hs hstep hok => restartInv_step hs hstep hok)
      ⟨historyInv_initial now users a, by simp [waits, Sys.initial]⟩
  have hlog : s.accepted a <+: t.accepted a :=
    ht.relates (I := fun _ => True) (R := fun s t => s.accepted a <+: t.accepted a)
      (fun _ => List.prefix_refl _) List.IsPrefix.trans (fun _ _ _ => trivial)
      (fun _ hstep _ => (step_cases hstep).log a) trivial
  obtain ⟨h, hh, htr⟩ := (hinv hs).follows.tracked hne
  have hne' : t.accepted a ≠ [] := fun hnil => hne (List.prefix_nil.mp (hnil ▸ hlog))
  obtain ⟨h', hh', htr'⟩ := (hinv (hs.trans ht)).follows.tracked hne'
  refine ⟨⟨h, h', hh, hh', ⟨_, _, htr.sequenceNum, htr'.sequenceNum, hlog.length_le⟩, ?_, ?_⟩, hlog, ?_⟩
  · refine ⟨_, _, htr.highestBid, htr'.highestBid, ?_⟩
    obtain ⟨l, hl⟩ := Option.ne_none_iff_exists'.mp (mt List.getLast?_eq_none_iff.mp hne)
    rw [hl]
    exact (hinv (hs.trans ht)).priced.maximum h' _ hh' htr'.highestBid l
      (hlog.subset (List.mem_of_getLast? hl))
  · obtain ⟨l, hl⟩ := Option.ne_none_iff_exists'.mp (mt List.getLast?_eq_none_iff.mp hne')
    exact ⟨l.argv.bidderId, by rw [htr'.highestBidder, hl]; rfl⟩
  · rw [htr'.numbered]
    exact List.nodup_range'

/-! ### Runs -/

/-- The camera again, a minute later. -/
def laterCamera : AuctionCreate :=
  { camera with startTs := ⟨1060000000, true⟩, endTs := ⟨1120000000, true⟩ }

/-- The row it makes. -/
def laterCameraRow : Auction :=
  { cameraRow with state := .upcoming, startTs := 1060000000, endTs := 1120000000 }

/-- A bid on the camera up to its script. -/
def bidOnCamera (bidId bidder : Uuid) (amount : PyFloat) : List Act :=
  [.bid bidId 5 bidder { amount := amount }, .bidStep bidId false, .bidStep bidId false,
    .bidStep bidId false]

/-- The camera waits, is started, and gets a bid before the commit of the poll. -/
def bidBeforeCommit : List Act :=
  [.create 5 1 laterCamera, .createStep 5 false, .tick 60000000,
    .startSelect [(5, laterCameraRow)], .startStep false] ++ bidOnCamera 100 7 (.ofNumber (.fin 25))

theorem restart_keeps_camera : ∃ s t : Sys, (t.accepted 5).map (·.seq) = [1, 2] ∧
    ((∃ h h', s.redis.hash 5 = some h ∧ t.redis.hash 5 = some h' ∧ Keeps h h') ∧
      s.accepted 5 <+: t.accepted 5 ∧ ((t.accepted 5).map (·.seq)).Nodup) := by
  obtain ⟨s, hs, hp⟩ := exists_reach step (fun s act _ => restartOk s act = true)
    bidBeforeCommit (s := .initial 1000000000 [1, 7])
    (p := fun s => s.accepted 5 ≠ [] ∧
      (runIf step (fun s act _ => restartOk s act = true)
        (.startCommit false :: bidOnCamera 101 8 (.ofNumber (.fin 30))) s).any
        fun t => (t.accepted 5).map (·.seq) = [1, 2]) (by decide +kernel)
  obtain ⟨hne, ht⟩ := of_decide_eq_true hp
  obtain ⟨t, ht, hseq⟩ := exists_reach _ _ _ ht
  exact ⟨s, t, of_decide_eq_true hseq, restart_keeps hs ht hne⟩

/-- Nothing goes wrong but the commit of a start poll. -/
def Act.startCommitFails : Act → Bool
  | .startCommit _ => true
  | act => act.faultless

/-- **An accepted bid is wiped**: the commit of the poll fails after the bid, and the next poll
writes the hash again; the sequence number `1` is given to another bid, of a lower amount. -/
theorem camera_bid_wiped : ∃ s t u : Sys,
    Reach step (fun _ act _ => act.startCommitFails = true) (.initial 1000000000 [1, 7]) s ∧
      Reach step (fun _ act _ => act.startCommitFails = true) s t ∧
      Reach step (fun _ act _ => act.startCommitFails = true) t u ∧
      (s.redis.hget 5 (·.sequenceNum) = some 1 ∧ s.redis.hget 5 (·.highestBid) = some (.dec 2500) ∧
        s.redis.hget 5 (·.highestBidder) = some (some 7)) ∧
      (t.redis.hget 5 (·.sequenceNum) = some 0 ∧ t.redis.hget 5 (·.highestBid) = some (.dec 0) ∧
        t.redis.hget 5 (·.highestBidder) = some none) ∧
      (u.accepted 5).map (fun e => (e.seq, e.argv.amount)) = [(1, .dec 2500), (1, .dec 1200)] := by
  obtain ⟨s, hs, hp⟩ := exists_reach step (fun _ act _ => act.startCommitFails = true)
    bidBeforeCommit (s := .initial 1000000000 [1, 7])
    (p := fun s => (s.redis.hget 5 (·.sequenceNum) = some 1 ∧
        s.redis.hget 5 (·.highestBid) = some (.dec 2500) ∧
        s.redis.hget 5 (·.highestBidder) = some (some 7)) ∧
      (runIf step (fun _ act _ => act.startCommitFails = true)
        [.startCommit true, .startSelect [(5, laterCameraRow)], .startStep false] s).any
        fun t => (t.redis.hget 5 (·.sequenceNum) = some 0 ∧
            t.redis.hget 5 (·.highestBid) = some (.dec 0) ∧
            t.redis.hget 5 (·.highestBidder) = some none) ∧
          (runIf step (fun _ act _ => act.startCommitFails = true)
            (bidOnCamera 101 8 (.ofNumber (.fin 12))) t).any
            fun u => (u.accepted 5).map (fun e => (e.seq, e.argv.amount)) =
              [(1, .dec 2500), (1, .dec 1200)]) (by decide +kernel)
  obtain ⟨hsp, hp⟩ := of_decide_eq_true hp
  obtain ⟨t, ht, hp⟩ := exists_reach _ _ _ hp
  obtain ⟨htp, hp⟩ := of_decide_eq_true hp
  obtain ⟨u, hu, hup⟩ := exists_reach _ _ _ hp
  exact ⟨s, t, u, hs, ht, hu, hsp, htp, of_decide_eq_true hup⟩

end OnlineAuction.System
