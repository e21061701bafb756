import OnlineAuction.Foundation.Progress
import OnlineAuction.System.Prices
import OnlineAuction.System.Rejected
import Mathlib.Algebra.BigOperators.Group.Finset.Basic
import Mathlib.Algebra.Order.BigOperators.Group.Finset
import Mathlib.Data.Fintype.Defs

/-!
# Whatever was begun comes to an end

The calls and polls that are running take turns, each by one awaited command. A flush waits while an
open transaction holds a row with the same unique key, so calls wait for one another.

## What is proved

* `callRank_lt` and `work_lt` — every command uses up some of the work left.
* `blocked_waits` — a call waits for one that has come further than itself.
* `work_settles` — from every state that any run reaches, the work left comes to an end in boundedly
  many commands, in whatever order and whatever raises, and until then some command can go on: there
  is no deadlock.
-/

namespace OnlineAuction.System

open OnlineAuction.Foundation OnlineAuction.Store OnlineAuction.Lifecycle OnlineAuction.Bidding

/-! ### The work left -/

/-- The commands that a call has still to await at most. -/
def pcRank : Pc → ℕ
  | .dbGet => 9
  | .xadd _ => 8
  | .evalsha _ => 7
  | .hgetall _ _ => 6
  | .flushBid _ _ => 5
  | .selectProxy _ _ => 4
  | .flushProxy _ _ _ => 3
  | .publish _ _ => 2
  | .commit _ => 1
  | .done _ | .aborted => 0

/-- Those of a creation. -/
def createPcRank : CreatePc → ℕ
  | .hset => 2
  | .commit => 1
  | .ended => 0

/-- Those of the call of a key. -/
def callRank (c : Option Call) : ℕ := (c.map fun c => pcRank c.pc).getD 0

/-- Those of the creation of a key. -/
def createRank (c : Option Create) : ℕ := (c.map fun c => createPcRank c.pc).getD 0

/-- Those of a start poll. -/
def startRank : Option StartPoll → ℕ
  | some p => p.todo.length + 1
  | none => 0

/-- Those of a close poll: four for each auction, and the commit. -/
def closeRank : Option ClosePoll → ℕ
  | some p => 4 * p.todo.length + match p.pc with
    | .check => 4
    | .read => 3
    | .flush _ => 2
    | .hset _ => 1
  | none => 0

/-- A command of something that is running; `fault` says whether it may raise. -/
def Act.works (fault : Bool) : Act → Bool
  | .createStep _ f | .bidStep _ f | .startStep f | .startCommit f | .closeStep f
  | .closeCommit f => fault || !f
  | _ => false

/-- The keys of the calls are among `K`, those of the creations among `L`. -/
structure Keys (K L : Finset Uuid) (s : Sys) : Prop where
  /-- The calls. -/
  bids : ∀ b, s.bids b ≠ none → b ∈ K
  /-- The creations. -/
  creates : ∀ a, s.creates a ≠ none → a ∈ L

/-- The work left. -/
def workLeft (K L : Finset Uuid) (s : Sys) : ℕ :=
  ∑ b ∈ K, callRank (s.bids b) + ∑ a ∈ L, createRank (s.creates a) +
    startRank s.starts + closeRank s.closes

theorem rank_afterRows (endTs : ℤ) (v : Verdict) : pcRank (Call.afterRows endTs v) ≤ 2 := by
  unfold Call.afterRows
  split_ifs <;> simp [pcRank]

theorem rank_pos_iff {pc : Pc} : 0 < pcRank pc ↔ pc.running = true := by
  cases pc <;> simp [pcRank, Pc.running]

/-- **Every command of a call** is one less to come. -/
theorem callRank_lt {b : Uuid} {c : Call} {w w' : World} {pc : Pc} (h : CallStep b c w w' pc) :
    pcRank pc < pcRank c.pc := by
  cases h with
  | found hpc | notFound hpc | appended hpc | noScript hpc | looked hpc | selected hpc
  | published hpc | committed hpc => simp [pcRank, hpc]
  | script hpc =>
    unfold Call.afterScript
    split <;> simp [pcRank, hpc]
  | @flushed endTs verdict amount hpc =>
    have hrows := rank_afterRows endTs verdict
    rw [hpc]
    unfold Call.afterBid
    split_ifs
    · simp [pcRank]
    · exact hrows.trans_lt (by simp [pcRank])
  | @proxied endTs verdict existing proxy hpc =>
    rw [hpc]
    exact (rank_afterRows endTs verdict).trans_lt (by simp [pcRank])
  | raised hrun => exact rank_pos_iff.mpr hrun

/-- Every command of the close poll is one less to come. -/
theorem closeRank_lt {users : List Uuid} {fault : Bool} {r r' : Redis} {p : ClosePoll}
    {p' : Option ClosePoll} {a : Uuid} {row : Auction} {rest : List (Uuid × Auction)}
    (htodo : p.todo = (a, row) :: rest) (h : CloseStep users fault r p a row r' p') :
    closeRank p' < closeRank (some p) := by
  have hnext : ∀ changed, closeRank (some (p.next changed)) = 4 * rest.length + 4 := by
    intro changed
    simp [closeRank, ClosePoll.next, htodo]
  have hlen : p.todo.length = rest.length + 1 := by rw [htodo, List.length_cons]
  have hlt : 4 * rest.length + 4 < closeRank (some p) := by
    simp only [closeRank, hlen]
    split <;> omega
  cases h with
  | skipped | extended | unsettled | closed | unclosed => rw [hnext]; exact hlt
  | checked hpc | assigned hpc | settled hpc => simp [closeRank, hpc]
  | refused => exact (Nat.zero_le _).trans_lt hlt

/-! ### One command -/

/-- Less for one key, and the same for the others. -/
theorem sum_rank_lt {X : Type} {rank : Option X → ℕ} {K : Finset Uuid} {f g : Uuid → Option X}
    {b : Uuid} (hb : b ∈ K) (hne : ∀ b', b' ≠ b → g b' = f b') (hlt : rank (g b) < rank (f b)) :
    ∑ b ∈ K, rank (g b) < ∑ b ∈ K, rank (f b) := by
  refine Finset.sum_lt_sum ?_ ⟨b, hb, hlt⟩
  intro b' _
  by_cases hbb : b' = b
  · exact hbb ▸ hlt.le
  · rw [hne b' hbb]

section Step

variable {s t : Sys} {act : Act} {K L : Finset Uuid}

/-- The commands begin nothing. -/
theorem keys_step (hk : Keys K L s) (h : SysStep s act t) (hact : act.works true = true) :
    Keys K L t := by
  constructor
  · intro b hb
    cases h.bid b with
    | kept call => exact hk.bids b (call ▸ hb)
    | called hact' => rw [hact'] at hact; cases hact
    | moved _ src | crashed _ src => exact hk.bids b (by rw [src]; simp)
  · intro a ha
    cases h.creation a with
    | kept _ create => exact hk.creates a (create ▸ ha)
    | created hact' => rw [hact'] at hact; cases hact
    | opened _ src | ended src => exact hk.creates a (by rw [src]; simp)

/-- **Every command uses up work.** -/
theorem work_lt (hk : Keys K L s) (h : SysStep s act t) (hact : act.works true = true) :
    workLeft K L t < workLeft K L s := by
  have hcreates : ∀ {a c} (c' : Create), s.creates a = some c → createPcRank c'.pc < createPcRank c.pc →
      ∑ b ∈ L, createRank (Function.update s.creates a (some c') b) <
        ∑ b ∈ L, createRank (s.creates b) := by
    intro a c c' hc hlt
    refine sum_rank_lt (hk.creates a (by rw [hc]; simp)) (fun b hb => Function.update_of_ne hb _ _) ?_
    simpa [createRank, hc] using hlt
  have hbids : ∀ {b c pc}, s.bids b = some c → pcRank pc < pcRank c.pc →
      ∑ b' ∈ K, callRank (Function.update s.bids b (some { c with pc := pc }) b') <
        ∑ b' ∈ K, callRank (s.bids b') := by
    intro b c pc hc hlt
    refine sum_rank_lt (hk.bids b (by rw [hc]; simp)) (fun b' hb => Function.update_of_ne hb _ _) ?_
    simpa [callRank, hc] using hlt
  unfold workLeft
  cases h with
  | @opened a row hc =>
    have := hcreates ⟨row, .commit⟩ hc (by simp [createPcRank])
    dsimp only
    omega
  | @stored a row hc =>
    have := hcreates ⟨row, .ended⟩ hc (by simp [createPcRank])
    dsimp only
    omega
  | @uncreated a row pc hc hpc =>
    have hpos : createPcRank .ended < createPcRank pc := by
      cases pc with
      | ended => exact absurd rfl hpc
      | _ => simp [createPcRank]
    have := hcreates ⟨row, .ended⟩ hc hpos
    dsimp only
    omega
  | moved hc _ hmove =>
    have := hbids hc (callRank_lt hmove)
    dsimp only
    omega
  | started hp => simp [startRank, hp]
  | startEnded hp => simp [startRank, hp]
  | closed hp htodo _ hmove =>
    have := closeRank_lt htodo hmove
    dsimp only
    rw [hp]
    omega
  | @closeEnded fault nowUtc pc dirty hp =>
    have hpos : 0 < closeRank (some ⟨nowUtc, [], pc, dirty⟩) := by
      cases pc <;> simp [closeRank]
    dsimp only
    rw [hp, show closeRank none = 0 from rfl]
    omega
  | _ => cases hact

end Step

/-! ### Waiting -/

/-- The call is running, and its next command can take effect. -/
def Ready (s : Sys) (b : Uuid) : Prop :=
  ∃ c, s.bids b = some c ∧ (callStep b c false s.toWorld).isSome = true

/-- The flush of a bid waits for nothing but a row with the same key in an open transaction. -/
theorem exists_open_of_insert {pg : Pg} {row : Bid} (h : insertBid pg row = .blocked) :
    ∃ row' ∈ pg.bidOpen, row.SameKey row' := by
  unfold insertBid at h
  split_ifs at h with _ hopen
  exact hopen

/-- So does that of a proxy bid. -/
theorem exists_open_of_write {pg : Pg} {b : Uuid} {proxy : ProxyBid} {existing : Bool}
    (h : writeProxy pg b proxy existing = .blocked) : ∃ p ∈ pg.proxyOpen, proxy.SameKey p.2 := by
  unfold writeProxy at h
  split_ifs at h with _ hopen
  exact hopen.2

/-- A call with an open row has flushed it, and goes on. -/
theorem call_of_openRow {s : Sys} (hs : CallsInv s) {b : Uuid} {row : Bid}
    (hrow : row ∈ openRows s.pg b) (endTs : ℤ) (verdict : Verdict) :
    ∃ b' c', s.bids b' = some c' ∧ c'.pc.running = true ∧
      pcRank c'.pc < pcRank (.flushBid endTs verdict) := by
  cases hc : s.bids b with
  | none =>
    rw [(hs.uncalled _ hc).1] at hrow
    cases hrow
  | some c =>
    have hopened := (hs.rows _ c hc).opened
    refine ⟨_, c, hc, ?_⟩
    cases hpc : c.pc with
    | selectProxy | flushProxy | publish | commit => simp [Pc.running, pcRank]
    | _ =>
      rw [hpc] at hopened
      rw [show openRows s.pg b = [] from hopened] at hrow
      cases hrow

/-- A call with an open proxy bid has flushed it, and goes on. -/
theorem call_of_openProxy {s : Sys} (hs : ProxiesInv s) {b : Uuid} {p : Uuid × ProxyBid}
    (hp : p ∈ proxiesOf s.pg b) (endTs : ℤ) (verdict : Verdict) (existing : Bool) :
    ∃ b' c', s.bids b' = some c' ∧ c'.pc.running = true ∧
      pcRank c'.pc < pcRank (.flushProxy endTs verdict existing) := by
  cases hc : s.bids b with
  | none =>
    rw [hs.uncalled _ hc] at hp
    cases hp
  | some c =>
    have hflushed : proxyFlushed c.pc = true := by
      by_contra hnot
      rw [(hs.called _ c hc).empty (Bool.eq_false_iff.mpr hnot)] at hp
      cases hp
    refine ⟨_, c, hc, ?_⟩
    cases hpc : c.pc with
    | publish | commit => simp [Pc.running, pcRank]
    | _ => rw [hpc] at hflushed; cases hflushed

/-- **Who waits for whom**: a running call that cannot go on waits for one that has come further. -/
theorem blocked_waits {s : Sys} (hs : CallsInv s) (hproxies : ProxiesInv s) {b : Uuid} {c : Call}
    (hrun : c.pc.running = true)
    (hblocked : callStep b c false s.toWorld = none) :
    ∃ b' c', s.bids b' = some c' ∧ c'.pc.running = true ∧ pcRank c'.pc < pcRank c.pc := by
  unfold callStep at hblocked
  cases hpc : c.pc with
  | flushBid endTs verdict =>
    simp only [hpc] at hblocked
    split at hblocked
    · rename_i amount _
      split at hblocked
      · cases hblocked
      · rename_i hinsert
        obtain ⟨row, hrow, -⟩ := exists_open_of_insert hinsert
        have hmem : row ∈ openRows s.pg row.bidId := List.mem_filter.mpr ⟨hrow, by simp⟩
        exact call_of_openRow hs hmem endTs verdict
      · cases hblocked
    · cases hblocked
  | flushProxy endTs verdict existing =>
    simp only [hpc] at hblocked
    split at hblocked
    · rename_i maxBid _
      split at hblocked
      · cases hblocked
      · rename_i hwrite
        obtain ⟨p, hp, -⟩ := exists_open_of_write hwrite
        have hmem : p ∈ proxiesOf s.pg p.1 := List.mem_filter.mpr ⟨hp, by simp⟩
        exact call_of_openProxy hproxies hmem endTs verdict existing
      · cases hblocked
    · cases hblocked
  | dbGet =>
    simp only [hpc, Bool.false_eq_true, if_false] at hblocked
    split at hblocked <;> cases hblocked
  | done | aborted => rw [hpc] at hrun; cases hrun
  | _ => simp [hpc] at hblocked

/-- The close poll never waits. -/
theorem closeStep_isSome {users : List Uuid} {r : Redis} {p : ClosePoll} (htodo : p.todo ≠ []) :
    (Lifecycle.closeStep users false r p).isSome = true := by
  unfold Lifecycle.closeStep
  split
  · exact absurd ‹_› htodo
  · split
    · simp only [Bool.false_eq_true, if_false]
      split <;> rfl
    · rfl
    · split
      · split <;> rfl
      · rfl
    · rfl

/-- **No deadlock**: until the service is idle, some command can go on without raising. -/
theorem exists_work {s : Sys} (hs : CallsInv s) (hproxies : ProxiesInv s) (hbusy : ¬ Idle s) :
    ∃ act t, step s act = some t ∧ act.works false = true := by
  by_cases hcreates : ∀ a c, s.creates a = some c → c.pc = .ended
  swap
  · obtain ⟨a, c, hc, hpc⟩ : ∃ a c, s.creates a = some c ∧ c.pc ≠ .ended := by
      push Not at hcreates
      exact hcreates
    obtain ⟨row, pc⟩ := c
    cases pc with
    | ended => exact absurd rfl hpc
    | hset | commit => exact ⟨.createStep a false, _, by simp only [step, hc]; rfl, rfl⟩
  by_cases hbids : ∀ b c, s.bids b = some c → c.pc.running = false
  swap
  · obtain ⟨b, c, hc, hrun⟩ : ∃ b c, s.bids b = some c ∧ c.pc.running = true := by
      push Not at hbids
      simpa using hbids
    have hwaits : ∀ b, (∃ c, s.bids b = some c ∧ c.pc.running = true) → ¬ Ready s b →
        ∃ b', (∃ c, s.bids b' = some c ∧ c.pc.running = true) ∧
          callRank (s.bids b') < callRank (s.bids b) := by
      rintro b ⟨c, hc, hrun⟩ hnot
      have hblocked : callStep b c false s.toWorld = none :=
        Option.not_isSome_iff_eq_none.mp fun hsome => hnot ⟨c, hc, hsome⟩
      obtain ⟨b', c', hc', hrun', hlt⟩ := blocked_waits hs hproxies hrun hblocked
      exact ⟨b', ⟨c', hc', hrun'⟩, by simpa [callRank, hc, hc'] using hlt⟩
    -- among the running calls, which wait for one another, one is ready
    obtain ⟨b', -, c', hc', hready⟩ := exists_ready (fun b => callRank (s.bids b)) hwaits ⟨c, hc, hrun⟩
    obtain ⟨out, hout⟩ := Option.isSome_iff_exists.mp hready
    exact ⟨.bidStep b' false, _, by simp only [step, hc', hout]; rfl, rfl⟩
  cases hstarts : s.starts with
  | some p =>
    obtain ⟨todo, dirty⟩ := p
    cases todo with
    | nil => exact ⟨.startCommit false, _, by simp only [step, hstarts]; rfl, rfl⟩
    | cons b rest => exact ⟨.startStep false, _, by simp only [step, hstarts]; rfl, rfl⟩
  | none =>
    cases hcloses : s.closes with
    | some p =>
      obtain ⟨nowUtc, todo, pc, dirty⟩ := p
      cases todo with
      | nil => exact ⟨.closeCommit false, _, by simp only [step, hcloses]; rfl, rfl⟩
      | cons b rest =>
        obtain ⟨out, hout⟩ := Option.isSome_iff_exists.mp
          (@closeStep_isSome s.pg.users s.redis ⟨nowUtc, b :: rest, pc, dirty⟩ (by simp))
        exact ⟨.closeStep false, _, by simp only [step, hcloses, hout]; rfl, rfl⟩
    | none => exact absurd ⟨hcreates, hbids, hstarts, hcloses⟩ hbusy

/-! ### Every run -/

/-- Only finitely many calls and creations were ever begun. -/
theorem exists_keys {now : ℤ} {users : List Uuid} {s : Sys} (hs : Reachable now users s) :
    ∃ K L, Keys K L s := by
  have hbids : {b | s.bids b ≠ none}.Finite := by
    refine finite_of_reach (X := fun s : Sys => {b | s.bids b ≠ none}) ?_ hs (by simp [Sys.initial])
    intro s act t hstep
    refine ⟨{b | ∃ a u data, act = .bid b a u data}, ?_, ?_⟩
    · cases act with
      | bid b a u data => simp
      | _ => simp
    · intro b hb
      cases (step_cases hstep).bid b with
      | kept call => exact Or.inl (by simpa [call] using hb)
      | called hact => exact Or.inr ⟨_, _, _, hact⟩
      | moved _ src | crashed _ src => exact Or.inl (by simp [src])
  have hcreates : {a | s.creates a ≠ none}.Finite := by
    refine finite_of_reach (X := fun s : Sys => {a | s.creates a ≠ none}) ?_ hs (by simp [Sys.initial])
    intro s act t hstep
    refine ⟨{a | ∃ u data, act = .create a u data}, ?_, ?_⟩
    · cases act with
      | create a u data => simp
      | _ => simp
    · intro a ha
      cases (step_cases hstep).creation a with
      | kept _ create => exact Or.inl (by simpa [create] using ha)
      | created hact => exact Or.inr ⟨_, _, hact⟩
      | opened _ src | ended src => exact Or.inl (by simp [src])
  exact ⟨hbids.toFinset, hcreates.toFinset, by simp, by simp⟩

/-- **The work left comes to an end**, from every state that any run reaches: in whatever order the
commands come and whichever of them raise, there are boundedly many, and until the service is idle
one of them can go on without raising. -/
theorem work_settles {now : ℤ} {users : List Uuid} {s : Sys} (hs : Reachable now users s) :
    Settles step (fun _ act _ => act.works true = true) (fun _ act _ => act.works false = true)
      Idle s where
  bounded := by
    obtain ⟨K, L, hk⟩ := exists_keys hs
    refine ⟨workLeft K L s, fun hrun => ?_⟩
    have hle := hrun.add_measure_le (I := Keys K L) (μ := workLeft K L)
      (fun hk hstep hact => keys_step hk (step_cases hstep) hact)
      (fun hk hstep hact => work_lt hk (step_cases hstep) hact) hk
    omega
  unstuck := by
    intro t ht hbusy
    have hreach : Reachable now users t := Reach.trans hs (ht.weaken fun _ => trivial)
    exact exists_work (callsInv_of_reach hreach) (proxiesInv_of_reach hreach) hbusy

/-- **Whatever was begun can be ended** without a fault. -/
theorem exists_idle {now : ℤ} {users : List Uuid} {s : Sys} (hs : Reachable now users s) :
    ∃ t, Reach step (fun _ act _ => act.works false = true) s t ∧ Idle t :=
  (work_settles hs).exists_final (fun {_ act _} h => by cases act <;> simp_all [Act.works])
    (.refl s)

/-- The bid of the camera is sent twice; the second call is rejected, and its flush waits for the
transaction of the first. -/
def twiceBid : List Act :=
  cameraBid (.ofNumber (.fin 25)) ++ [.bidStep 100 false, .bid 101 5 7 { amount := .ofNumber (.fin 25) }] ++
    List.replicate 4 (.bidStep 101 false)

end OnlineAuction.System
