import OnlineAuction.Lifecycle.Polls

/-!
# Polls in which a command raises

A poll handles a batch in one session with one commit and passes over the exceptions of
single auctions. This module settles for every batch and every choice of commands that
raise what the poll leaves behind.

## What is proved

* `startPoll_iff` — a start poll leaves every auction of its batch startable again or active
  with a hash exactly when each auction whose write raised had a hash already.
* `closePoll_iff` — a close poll settles the auctions that do not raise and leaves the
  others as they were exactly when all that raise do so at a read, or a flush fails and every
  auction of the batch raises.

## Honest scope

`closePoll_iff` is about batches none of whose hashes moves the end; no state that the
service reaches has another (`System.Polls`).
-/

namespace OnlineAuction.Lifecycle

open OnlineAuction.Foundation OnlineAuction.Store

/-! ### Starting -/

/-- A hash on which bids can be evaluated: active, with every field of `_init_redis_hash`. -/
structure Initialised (h : AuctionHash) : Prop where
  /-- It is active. -/
  state : h.state = some .active
  /-- It has a highest bid, and a highest bidder, if only the empty text. -/
  highest : h.highestBid.isSome ∧ h.highestBidder.isSome
  /-- It has a start and an end. -/
  times : h.startTs.isSome ∧ h.endTs.isSome
  /-- It has a sequence number and a number of extensions. -/
  counters : h.sequenceNum.isSome ∧ h.extensionsUsed.isSome
  /-- It has an increment. -/
  increment : h.minIncrement.isSome

theorem initialised_init (row : Auction) (h : AuctionHash) : Initialised (initRedisHash row h) :=
  ⟨rfl, ⟨rfl, rfl⟩, ⟨rfl, rfl⟩, ⟨rfl, rfl⟩, rfl⟩

/-- A start leaves the hashes of other auctions. -/
theorem startAll_of_not_mem (fails : Uuid → Bool) {batch : List (Uuid × Auction)} {a : Uuid}
    (h : a ∉ batch.map Prod.fst) (r : Redis) : (startAll fails batch r).hash a = r.hash a := by
  induction batch generalizing r with
  | nil => rfl
  | cons b rest ih =>
    rw [List.map_cons, List.mem_cons, not_or] at h
    rw [startAll, ih h.2, startAuction]
    split_ifs
    · rfl
    · exact Redis.hset_hash_of_ne h.1 _

/-- A start writes the hash of each auction whose write does not raise. -/
theorem startAll_of_mem (fails : Uuid → Bool) {batch : List (Uuid × Auction)}
    (hnodup : (batch.map Prod.fst).Nodup) {a : Uuid} {row : Auction} (h : (a, row) ∈ batch)
    (r : Redis) :
    (startAll fails batch r).hash a =
      if fails a then r.hash a else some (initRedisHash row ((r.hash a).getD {})) := by
  induction batch generalizing r with
  | nil => cases h
  | cons b rest ih =>
    rw [List.map_cons, List.nodup_cons] at hnodup
    rcases List.mem_cons.mp h with rfl | h
    · rw [startAll, startAll_of_not_mem fails hnodup.1, startAuction]
      split_ifs
      · rfl
      · exact Redis.hset_hash_self _ _ _
    · have hne : a ≠ b.1 := fun heq =>
        hnodup.1 (heq ▸ List.mem_map_of_mem (f := Prod.fst) h)
      have hsame : (startAuction (fails b.1) b.1 b.2 r).1.hash a = r.hash a := by
        rw [startAuction]
        split_ifs
        · rfl
        · exact Redis.hset_hash_of_ne hne _
      rw [startAll, ih hnodup.2 h, hsame]

/-- An auction is active with a hash on which bids can be evaluated, or still waits. -/
def StartedOrWaiting (r : Redis) (pg : Pg) (a : Uuid) : Prop :=
  ∃ row, pg.auction a = some row ∧
    (row.state = .upcoming ∨ row.state = .active ∧ ∃ h, r.hash a = some h ∧ Initialised h)

/-- **What a start poll leaves behind**: whichever writes raise, every auction of the batch
is active with a hash or still waits exactly when each auction whose write raised had an
active hash already. -/
theorem startPoll_iff {pg : Pg} {nowUtc : ℤ} {batch : List (Uuid × Auction)}
    (hbatch : Selects pg (dueStart nowUtc) batch) (fails : Uuid → Bool) (r : Redis) :
    (∀ b ∈ batch, StartedOrWaiting (pollDueStarts fails batch r pg).1
        (pollDueStarts fails batch r pg).2 b.1) ↔
      ∀ b ∈ batch, fails b.1 = true → ∃ h, r.hash b.1 = some h ∧ Initialised h := by
  have hkeys : (started batch).map Prod.fst = batch.map Prod.fst := by
    simp [started, Function.comp_def]
  have hrow : ∀ b ∈ batch, (pollDueStarts fails batch r pg).2.auction b.1 =
      some { b.2 with state := .active } := fun b hb =>
    Pg.setRows_of_mem (hkeys ▸ hbatch.nodup) (List.mem_map.mpr ⟨b, hb, rfl⟩) _
  refine forall₂_congr ?_
  intro b hb
  have hhash := startAll_of_mem fails hbatch.nodup (show (b.1, b.2) ∈ batch from hb) r
  constructor
  · rintro ⟨row, hr, hstate⟩ hfail
    rw [hrow b hb, Option.some.injEq] at hr
    subst hr
    rcases hstate with h | ⟨-, h, hh, hinit⟩
    · cases h
    · refine ⟨h, ?_, hinit⟩
      rw [if_pos hfail] at hhash
      rw [← hhash]
      exact hh
  · intro hcond
    refine ⟨_, hrow b hb, Or.inr ⟨rfl, ?_⟩⟩
    cases hfail : fails b.1 with
    | true =>
      obtain ⟨h, hh, hinit⟩ := hcond hfail
      rw [if_pos hfail, hh] at hhash
      exact ⟨h, hhash, hinit⟩
    | false =>
      rw [if_neg (by simp [hfail])] at hhash
      exact ⟨_, hhash, initialised_init _ _⟩

/-- The camera's row before its start. -/
def waitingCamera : Auction := { cameraRow with state := .upcoming }

/-- The tables with the waiting camera only. -/
def waitingPg : Pg := ⟨[1], Function.update (fun _ => none) 5 (some waitingCamera), [], [], [], []⟩

theorem waitingPg_selects : Selects waitingPg (dueStart 1000000000) [(5, waitingCamera)] := by
  decide +kernel

theorem camera_start_iff :
    (∀ b ∈ [(5, waitingCamera)],
        StartedOrWaiting (pollDueStarts (fun _ => true) [(5, waitingCamera)] .empty waitingPg).1
          (pollDueStarts (fun _ => true) [(5, waitingCamera)] .empty waitingPg).2 b.1) ↔
      ∀ b ∈ [(5, waitingCamera)], true = true →
        ∃ h, Redis.empty.hash b.1 = some h ∧ Initialised h :=
  startPoll_iff waitingPg_selects (fun _ => true) .empty

/-- **A start without a hash**: when the write raises, the camera is committed as `ACTIVE`
and has no hash. -/
theorem camera_started_without_hash :
    Selects waitingPg (dueStart 1000000000) [(5, waitingCamera)] ∧
    ((pollDueStarts (fun _ => true) [(5, waitingCamera)] .empty waitingPg).2.auction 5).map
      (·.state) = some .active ∧
    (pollDueStarts (fun _ => true) [(5, waitingCamera)] .empty waitingPg).1.hash 5 = none ∧
    ¬ StartedOrWaiting (pollDueStarts (fun _ => true) [(5, waitingCamera)] .empty waitingPg).1
        (pollDueStarts (fun _ => true) [(5, waitingCamera)] .empty waitingPg).2 5 := by
  refine ⟨waitingPg_selects, by decide +kernel, by decide +kernel, ?_⟩
  rintro ⟨row, hrow, hstate⟩
  obtain rfl : cameraRow = row := by
    refine Option.some.inj (Eq.trans ?_ hrow)
    decide +kernel
  rcases hstate with hstate | ⟨-, h, hh, -⟩
  · cases hstate
  · cases hh

/-! ### Closing -/

/-- How the own closing step of an auction raises. -/
inductive CloseFailure where
  /-- At one of the two reads. -/
  | read
  /-- At the flush. -/
  | flush
  /-- At the comparison with the reserve, after the flush. -/
  | settle
  /-- At the write to the hash, after the flush and the settlement. -/
  | hset
  deriving DecidableEq

/-- Whether and how closing an auction raises, from its hash, its row and the command that
is to raise. -/
def closeFailure (users : List Uuid) (fault : Option ClosePhase) (data : Option AuctionHash)
    (row : Auction) : Option CloseFailure :=
  if fault = some .check ∨ fault = some .read then some .read
  else if fault = some .flush then some .flush
  else
    match flushAuction users (assignWinner data row) with
    | none => some .flush
    | some obj =>
      match resolveSettlementInner obj with
      | none => some .settle
      | some _ => if fault = some .hset then some .hset else none

/-- The row that closing computes: assigned, flushed and settled. -/
def Closes (users : List Uuid) (data : Option AuctionHash) (row row' : Auction) : Prop :=
  ∃ obj obj', flushAuction users (assignWinner data row) = some obj ∧
    resolveSettlementInner obj = some obj' ∧ obj'.row = row'

theorem assignWinner_state (data : Option AuctionHash) (row : Auction) :
    (assignWinner data row).row.state = .closed := by
  unfold assignWinner
  split
  · rfl
  · split <;> rfl

theorem flushAuction_row {users : List Uuid} {obj obj' : AuctionObj}
    (h : flushAuction users obj = some obj') :
    obj'.row = { obj.row with highestBid := obj'.row.highestBid } ∧
      obj'.highestBid = obj.highestBid := by
  unfold flushAuction at h
  split_ifs at h
  split at h
  · cases h; exact ⟨rfl, rfl⟩
  · obtain ⟨d, -, rfl⟩ := Option.map_eq_some_iff.mp h
    exact ⟨rfl, rfl⟩

theorem flushAuction_state {users : List Uuid} {data : Option AuctionHash} {row : Auction}
    {obj : AuctionObj} (h : flushAuction users (assignWinner data row) = some obj) :
    obj.row.state = .closed := by
  rw [(flushAuction_row h).1]
  exact assignWinner_state data row

/-- A closed row is `SOLD` with a winner, or `UNSOLD` without one. -/
theorem Closes.state {users : List Uuid} {data : Option AuctionHash} {row row' : Auction}
    (h : Closes users data row row') :
    row'.state = .sold ∧ row'.winnerId ≠ none ∨ row'.state = .unsold ∧ row'.winnerId = none := by
  obtain ⟨obj, obj', hflush, hsettle, rfl⟩ := h
  rcases settle_cases (flushAuction_state hflush) hsettle with ⟨hw, heq⟩ | heq
  · rw [heq]
    exact Or.inl ⟨rfl, hw⟩
  · rw [heq]
    exact Or.inr ⟨rfl, rfl⟩

/-- **One auction**, whose end was not moved: what the loop does with it, by how its own step
raises. -/
theorem closeOne_cases (users : List Uuid) {nowUtc : ℤ} (fault : Option ClosePhase) {a : Uuid}
    (row : Auction) {r : Redis} (hext : extendedEnd nowUtc (r.hash a) = none) :
    (closeFailure users fault (r.hash a) row = some .read ∧
      closeOne users nowUtc fault a row r = (r, .untouched)) ∨
    (closeFailure users fault (r.hash a) row = some .flush ∧
      closeOne users nowUtc fault a row r = (r, .broken)) ∨
    (closeFailure users fault (r.hash a) row = some .settle ∧ ∃ row', row'.state = .closed ∧
      closeOne users nowUtc fault a row r = (r, .changed row')) ∨
    (closeFailure users fault (r.hash a) row = some .hset ∧ ∃ row', Closes users (r.hash a) row row' ∧
      closeOne users nowUtc fault a row r = (r, .changed row')) ∨
    (closeFailure users fault (r.hash a) row = none ∧ ∃ row', Closes users (r.hash a) row row' ∧
      closeOne users nowUtc fault a row r =
        (r.hset a (.setState row'.state), .changed row')) := by
  unfold closeFailure closeOne
  rw [hext]
  by_cases hcheck : fault = some .check
  · left; simp [hcheck]
  by_cases hread : fault = some .read
  · left; simp [hread]
  rw [if_neg hcheck, if_neg (not_or.mpr ⟨hcheck, hread⟩)]
  simp only [if_neg hread]
  right
  by_cases hflush : fault = some .flush
  · left; simp [hflush]
  simp only [if_neg hflush]
  cases hf : flushAuction users (assignWinner (r.hash a) row) with
  | none => left; simp
  | some obj =>
    right
    cases hs : resolveSettlementInner obj with
    | none => exact Or.inl ⟨by simp [hs], obj.row, flushAuction_state hf, by simp [hs]⟩
    | some obj' =>
      have hcl : Closes users (r.hash a) row obj'.row := ⟨obj, obj', hf, hs, rfl⟩
      right
      by_cases hhset : fault = some .hset
      · exact Or.inl ⟨by simp [hs, hhset], obj'.row, hcl, by simp [hs, hhset]⟩
      · exact Or.inr ⟨by simp [hs, hhset], obj'.row, hcl, by simp [hs, hhset]⟩

/-- Closing one auction leaves the hashes of the others. -/
theorem closeOne_hash_of_ne (users : List Uuid) {nowUtc : ℤ} (fault : Option ClosePhase)
    {a b : Uuid} (row : Auction) {r : Redis} (hext : extendedEnd nowUtc (r.hash a) = none)
    (hne : b ≠ a) : (closeOne users nowUtc fault a row r).1.hash b = r.hash b := by
  rcases closeOne_cases users fault row hext with
    ⟨-, h⟩ | ⟨-, h⟩ | ⟨-, _, -, h⟩ | ⟨-, _, -, h⟩ | ⟨-, row', -, h⟩ <;> rw [h]
  show (r.hset a (.setState row'.state)).hash b = r.hash b
  exact Redis.hset_hash_of_ne hne _

/-- What closing one auction does depends on its own hash only. -/
theorem closeOne_congr {users : List Uuid} {nowUtc : ℤ} {fault : Option ClosePhase} {a : Uuid}
    {row : Auction} {r r' : Redis} (h : r'.hash a = r.hash a) :
    (closeOne users nowUtc fault a row r').2 = (closeOne users nowUtc fault a row r).2 ∧
      (closeOne users nowUtc fault a row r').1.hash a =
        (closeOne users nowUtc fault a row r).1.hash a := by
  unfold closeOne
  rw [h]
  split
  · exact ⟨rfl, h⟩
  · split
    · exact ⟨rfl, h⟩
    · split
      · exact ⟨rfl, h⟩
      · split
        · exact ⟨rfl, h⟩
        · split
          · exact ⟨rfl, h⟩
          · split
            · exact ⟨rfl, h⟩
            · split
              · exact ⟨rfl, h⟩
              · refine ⟨rfl, ?_⟩
                simp only [Redis.hset_hash_self, h]

section Batch

variable {users : List Uuid} {nowUtc : ℤ} {plan : Uuid → Option ClosePhase}

/-- How the loop leaves an auction of a batch. -/
def outcome (users : List Uuid) (nowUtc : ℤ) (plan : Uuid → Option ClosePhase) (r : Redis)
    (b : Uuid × Auction) : CloseOutcome := (closeOne users nowUtc (plan b.1) b.1 b.2 r).2

/-- The other auctions of a batch are left as they would be alone. -/
theorem outcome_congr {r r' : Redis} {b : Uuid × Auction} (h : r'.hash b.1 = r.hash b.1) :
    outcome users nowUtc plan r' b = outcome users nowUtc plan r b := (closeOne_congr h).1

/-- The loop goes on after an auction whose flush did not fail. -/
theorem closeAll_cons {b : Uuid × Auction} {r : Redis} (h : outcome users nowUtc plan r b ≠ .broken)
    (rest dirty : List (Uuid × Auction)) :
    closeAll users nowUtc plan (b :: rest) r dirty =
      closeAll users nowUtc plan rest (closeOne users nowUtc (plan b.1) b.1 b.2 r).1
        (dirty ++ (outcome users nowUtc plan r b).rows b.1) := by
  unfold outcome at h ⊢
  cases hout : (closeOne users nowUtc (plan b.1) b.1 b.2 r).2 with
  | broken => exact absurd hout h
  | untouched => simp only [closeAll, hout]
  | changed row => simp only [closeAll, hout]

/-- The head of a batch leaves the hashes of the rest. -/
theorem closeOne_hash_rest {b : Uuid × Auction} {rest : List (Uuid × Auction)}
    (hnodup : ((b :: rest).map Prod.fst).Nodup) {r : Redis}
    (hext : extendedEnd nowUtc (r.hash b.1) = none) {c : Uuid × Auction} (hc : c ∈ rest) :
    (closeOne users nowUtc (plan b.1) b.1 b.2 r).1.hash c.1 = r.hash c.1 := by
  rw [List.map_cons, List.nodup_cons] at hnodup
  exact closeOne_hash_of_ne _ _ _ hext fun h => hnodup.1 (h ▸ List.mem_map_of_mem hc)

/-- A batch leaves the hashes of other auctions. -/
theorem closeAll_hash_of_not_mem {batch : List (Uuid × Auction)} {r : Redis}
    (hnodup : (batch.map Prod.fst).Nodup)
    (hext : ∀ b ∈ batch, extendedEnd nowUtc (r.hash b.1) = none) {a : Uuid}
    (ha : a ∉ batch.map Prod.fst) (dirty : List (Uuid × Auction)) :
    (closeAll users nowUtc plan batch r dirty).1.hash a = r.hash a := by
  induction batch generalizing r dirty with
  | nil => rfl
  | cons b rest ih =>
    rw [List.map_cons, List.mem_cons, not_or] at ha
    have hb := hext b List.mem_cons_self
    have hsame := closeOne_hash_of_ne users (plan b.1) b.2 hb ha.1
    have hrest := fun dirty => ih (r := (closeOne users nowUtc (plan b.1) b.1 b.2 r).1)
      (List.nodup_cons.mp (List.map_cons ▸ hnodup)).2 (fun c hc => by
        rw [closeOne_hash_rest hnodup hb hc]; exact hext c (List.mem_cons_of_mem _ hc)) ha.2 dirty
    simp only [closeAll]
    split
    · exact hsame
    · rw [hrest, hsame]

/-- **A batch without a failed flush**: every auction is left as it would be alone. -/
theorem closeAll_unbroken {batch : List (Uuid × Auction)} {r : Redis}
    (hnodup : (batch.map Prod.fst).Nodup)
    (hext : ∀ b ∈ batch, extendedEnd nowUtc (r.hash b.1) = none)
    (hflush : ∀ b ∈ batch, outcome users nowUtc plan r b ≠ .broken)
    (dirty : List (Uuid × Auction)) :
    (closeAll users nowUtc plan batch r dirty).2 =
        some (dirty ++ batch.flatMap fun b => (outcome users nowUtc plan r b).rows b.1) ∧
      ∀ b ∈ batch, (closeAll users nowUtc plan batch r dirty).1.hash b.1 =
        (closeOne users nowUtc (plan b.1) b.1 b.2 r).1.hash b.1 := by
  induction batch generalizing r dirty with
  | nil => simp [closeAll]
  | cons b rest ih =>
    have hb := hext b List.mem_cons_self
    have hsame : ∀ c ∈ rest, (closeOne users nowUtc (plan b.1) b.1 b.2 r).1.hash c.1 = r.hash c.1 :=
      fun c hc => closeOne_hash_rest hnodup hb hc
    have hext' : ∀ c ∈ rest, extendedEnd nowUtc
        ((closeOne users nowUtc (plan b.1) b.1 b.2 r).1.hash c.1) = none := fun c hc => by
      rw [hsame c hc]; exact hext c (List.mem_cons_of_mem _ hc)
    have hnodup' := List.nodup_cons.mp (List.map_cons ▸ hnodup)
    obtain ⟨hrows, hhash⟩ := ih hnodup'.2 hext' (fun c hc => by
      rw [outcome_congr (hsame c hc)]; exact hflush c (List.mem_cons_of_mem _ hc))
      (dirty ++ (outcome users nowUtc plan r b).rows b.1)
    rw [closeAll_cons (hflush b List.mem_cons_self)]
    constructor
    · rw [hrows, List.flatMap_cons, List.append_assoc]
      congr 3
      exact List.flatMap_congr fun c hc => by rw [outcome_congr (hsame c hc)]
    · intro c hc
      rcases List.mem_cons.mp hc with rfl | hc
      · exact closeAll_hash_of_not_mem hnodup'.2 hext' hnodup'.1 _
      · rw [hhash c hc, (closeOne_congr (hsame c hc)).2]

/-- **A batch with a failed flush**: nothing is to be committed, and the auctions that
raise keep their hashes. -/
theorem closeAll_broken {batch : List (Uuid × Auction)} {r : Redis}
    (hnodup : (batch.map Prod.fst).Nodup)
    (hext : ∀ b ∈ batch, extendedEnd nowUtc (r.hash b.1) = none)
    (hflush : ∃ b ∈ batch, outcome users nowUtc plan r b = .broken)
    (dirty : List (Uuid × Auction)) :
    (closeAll users nowUtc plan batch r dirty).2 = none ∧
      ∀ b ∈ batch, closeFailure users (plan b.1) (r.hash b.1) b.2 ≠ none →
        (closeAll users nowUtc plan batch r dirty).1.hash b.1 = r.hash b.1 := by
  induction batch generalizing r dirty with
  | nil => obtain ⟨b, hb, -⟩ := hflush; cases hb
  | cons b rest ih =>
    have hb := hext b List.mem_cons_self
    have hsame : ∀ c ∈ rest, (closeOne users nowUtc (plan b.1) b.1 b.2 r).1.hash c.1 = r.hash c.1 :=
      fun c hc => closeOne_hash_rest hnodup hb hc
    have hext' : ∀ c ∈ rest, extendedEnd nowUtc
        ((closeOne users nowUtc (plan b.1) b.1 b.2 r).1.hash c.1) = none := fun c hc => by
      rw [hsame c hc]; exact hext c (List.mem_cons_of_mem _ hc)
    have hnodup' := List.nodup_cons.mp (List.map_cons ▸ hnodup)
    have hhead : closeFailure users (plan b.1) (r.hash b.1) b.2 ≠ none →
        (closeOne users nowUtc (plan b.1) b.1 b.2 r).1.hash b.1 = r.hash b.1 := by
      intro hfail
      rcases closeOne_cases users (plan b.1) b.2 hb with
        ⟨-, h⟩ | ⟨-, h⟩ | ⟨-, _, -, h⟩ | ⟨-, _, -, h⟩ | ⟨hnone, -⟩
      · rw [h]
      · rw [h]
      · rw [h]
      · rw [h]
      · exact absurd hnone hfail
    by_cases hbroken : outcome users nowUtc plan r b = .broken
    · have hstep : closeAll users nowUtc plan (b :: rest) r dirty =
          ((closeOne users nowUtc (plan b.1) b.1 b.2 r).1, none) := by
        unfold outcome at hbroken
        simp only [closeAll, hbroken]
      rw [hstep]
      refine ⟨rfl, ?_⟩
      intro c hc hfail
      rcases List.mem_cons.mp hc with rfl | hc
      · exact hhead hfail
      · exact hsame c hc
    · obtain ⟨c, hc, hcb⟩ := hflush
      have hc' : c ∈ rest := by
        rcases List.mem_cons.mp hc with rfl | hc
        · exact absurd hcb hbroken
        · exact hc
      have hrest : outcome users nowUtc plan (closeOne users nowUtc (plan b.1) b.1 b.2 r).1 c =
          .broken := by
        rw [outcome_congr (hsame c hc')]
        exact hcb
      obtain ⟨hnone, hhash⟩ := ih hnodup'.2 hext' ⟨c, hc', hrest⟩
        (dirty ++ (outcome users nowUtc plan r b).rows b.1)
      rw [closeAll_cons hbroken]
      refine ⟨hnone, ?_⟩
      intro d hd hfail
      rcases List.mem_cons.mp hd with rfl | hd
      · rw [closeAll_hash_of_not_mem hnodup'.2 hext' hnodup'.1, hhead hfail]
      · rw [hhash d hd (by rw [hsame d hd]; exact hfail), hsame d hd]

/-- The rows of a batch have its keys, in its order. -/
theorem rows_sublist (f : Uuid × Auction → CloseOutcome) (batch : List (Uuid × Auction)) :
    ((batch.flatMap fun b => (f b).rows b.1).map Prod.fst).Sublist (batch.map Prod.fst) := by
  induction batch with
  | nil => exact .slnil
  | cons b rest ih =>
    rw [List.flatMap_cons, List.map_append, List.map_cons]
    cases f b with
    | changed row => exact ih.cons_cons _
    | _ => exact ih.cons _

/-- What the commit of a batch writes for one of its auctions. -/
theorem setRows_batch (f : Uuid × Auction → CloseOutcome) {batch : List (Uuid × Auction)}
    (hnodup : (batch.map Prod.fst).Nodup) (table : Uuid → Option Auction) {b : Uuid × Auction}
    (hb : b ∈ batch) :
    (∀ row, f b = .changed row →
      Pg.setRows (batch.flatMap fun b => (f b).rows b.1) table b.1 = some row) ∧
    ((∀ row, f b ≠ .changed row) →
      Pg.setRows (batch.flatMap fun b => (f b).rows b.1) table b.1 = table b.1) := by
  constructor
  · intro row hrow
    refine Pg.setRows_of_mem (hnodup.sublist (rows_sublist f batch)) ?_ table
    exact List.mem_flatMap.mpr ⟨b, hb, by rw [hrow]; exact List.mem_singleton.mpr rfl⟩
  · intro hne
    refine Pg.setRows_of_not_mem ?_ table
    intro hmem
    obtain ⟨⟨a, row⟩, hmem, ha⟩ := List.mem_map.mp hmem
    obtain ⟨c, hc, hmem⟩ := List.mem_flatMap.mp hmem
    cases hf : f c with
    | untouched => rw [hf] at hmem; cases hmem
    | broken => rw [hf] at hmem; cases hmem
    | changed row' =>
      rw [hf, CloseOutcome.rows, List.mem_singleton, Prod.mk.injEq] at hmem
      obtain rfl : c = b := List.inj_on_of_nodup_map hnodup hc hb (hmem.1.symm.trans ha)
      exact hne row' hf

/-- What the poll is to do when closing some auctions raises: settle the others, and leave
these as they were. -/
structure Isolated (plan : Uuid → Option ClosePhase) (batch : List (Uuid × Auction)) (r : Redis)
    (pg : Pg) (r' : Redis) (pg' : Pg) : Prop where
  /-- An auction whose own step does not raise is settled, and its hash says so. -/
  settled : ∀ b ∈ batch, closeFailure pg.users (plan b.1) (r.hash b.1) b.2 = none →
    ∃ row, Closes pg.users (r.hash b.1) b.2 row ∧ pg'.auction b.1 = some row ∧
      (r'.hash b.1).bind (·.state) = some row.state
  /-- An auction whose own step raises is as before. -/
  kept : ∀ b ∈ batch, closeFailure pg.users (plan b.1) (r.hash b.1) b.2 ≠ none →
    pg'.auction b.1 = some b.2 ∧ (r'.hash b.1).bind (·.state) = (r.hash b.1).bind (·.state)
  /-- None is committed as `CLOSED`. -/
  noClosed : ∀ b ∈ batch, ∀ row, pg'.auction b.1 = some row → row.state ≠ .closed

/-- When the poll does that: those that raise do so at a read, or a flush fails and all
raise. -/
def RaisesHarmlessly (plan : Uuid → Option ClosePhase) (batch : List (Uuid × Auction)) (r : Redis)
    (pg : Pg) : Prop :=
  (∀ b ∈ batch, closeFailure pg.users (plan b.1) (r.hash b.1) b.2 = none ∨
      closeFailure pg.users (plan b.1) (r.hash b.1) b.2 = some .read) ∨
    (∃ b ∈ batch, closeFailure pg.users (plan b.1) (r.hash b.1) b.2 = some .flush) ∧
      ∀ b ∈ batch, closeFailure pg.users (plan b.1) (r.hash b.1) b.2 ≠ none

theorem outcome_broken_iff {r : Redis} {b : Uuid × Auction}
    (hext : extendedEnd nowUtc (r.hash b.1) = none) :
    outcome users nowUtc plan r b = .broken ↔
      closeFailure users (plan b.1) (r.hash b.1) b.2 = some .flush := by
  rcases closeOne_cases users (plan b.1) b.2 hext with
    ⟨hf, h⟩ | ⟨hf, h⟩ | ⟨hf, _, -, h⟩ | ⟨hf, _, -, h⟩ | ⟨hf, _, -, h⟩ <;>
  simp [outcome, h, hf]

/-- An auction that raises at a read is passed over. -/
theorem closeOne_of_read {r : Redis} {b : Uuid × Auction}
    (hext : extendedEnd nowUtc (r.hash b.1) = none)
    (hread : closeFailure users (plan b.1) (r.hash b.1) b.2 = some .read) :
    closeOne users nowUtc (plan b.1) b.1 b.2 r = (r, .untouched) := by
  rcases closeOne_cases users (plan b.1) b.2 hext with
    ⟨-, h⟩ | ⟨hf, -⟩ | ⟨hf, -⟩ | ⟨hf, -⟩ | ⟨hf, -⟩
  · exact h
  all_goals rw [hread] at hf; cases hf

/-- An auction that does not raise is settled, and its hash is shut. -/
theorem closeOne_of_none {r : Redis} {b : Uuid × Auction}
    (hext : extendedEnd nowUtc (r.hash b.1) = none)
    (hnone : closeFailure users (plan b.1) (r.hash b.1) b.2 = none) :
    ∃ row, Closes users (r.hash b.1) b.2 row ∧ closeOne users nowUtc (plan b.1) b.1 b.2 r =
      (r.hset b.1 (.setState row.state), .changed row) := by
  rcases closeOne_cases users (plan b.1) b.2 hext with
    ⟨hf, -⟩ | ⟨hf, -⟩ | ⟨hf, -⟩ | ⟨hf, -⟩ | ⟨-, h⟩
  · rw [hnone] at hf; cases hf
  · rw [hnone] at hf; cases hf
  · rw [hnone] at hf; cases hf
  · rw [hnone] at hf; cases hf
  · exact h

end Batch

section Poll

variable {pg : Pg} {nowUtc : ℤ} {batch : List (Uuid × Auction)} {r : Redis}
  {plan : Uuid → Option ClosePhase}

theorem Closes.not_active {users : List Uuid} {data : Option AuctionHash} {row row' : Auction}
    (h : Closes users data row row') : row'.state ≠ .active := by
  rcases h.state with ⟨h, -⟩ | ⟨h, -⟩ <;> simp [h]

theorem Closes.not_closed {users : List Uuid} {data : Option AuctionHash} {row row' : Auction}
    (h : Closes users data row row') : row'.state ≠ .closed := by
  rcases h.state with ⟨h, -⟩ | ⟨h, -⟩ <;> simp [h]

/-- An auction of the batch is in the table as it was selected, and active. -/
theorem row_of_selects (hbatch : Selects pg (dueClose nowUtc) batch) {b : Uuid × Auction}
    (hb : b ∈ batch) : pg.auction b.1 = some b.2 ∧ b.2.state = .active :=
  ⟨(hbatch.rows b hb).1, (of_decide_eq_true (hbatch.rows b hb).2).1⟩

/-- When a flush fails, nothing is committed. -/
theorem pollDueCloses_of_broken
    (hnone : (closeAll pg.users nowUtc plan batch r []).2 = none) :
    pollDueCloses nowUtc plan batch r pg = ((closeAll pg.users nowUtc plan batch r []).1, pg) := by
  unfold pollDueCloses
  split
  · rename_i heq; rw [heq] at hnone; cases hnone
  · rename_i heq; rw [heq]

/-- When no flush fails, all rows of the session are committed. -/
theorem pollDueCloses_of_unbroken {rows : List (Uuid × Auction)}
    (hrows : (closeAll pg.users nowUtc plan batch r []).2 = some rows) :
    pollDueCloses nowUtc plan batch r pg =
      ((closeAll pg.users nowUtc plan batch r []).1, pg.writeAuctions rows) := by
  unfold pollDueCloses
  split
  · rename_i heq; rw [heq] at hrows; cases hrows; rw [heq]
  · rename_i heq; rw [heq] at hrows; cases hrows

/-- **A poll with a failed flush** isolates its auctions exactly when all raise. -/
theorem isolated_iff_of_broken (hbatch : Selects pg (dueClose nowUtc) batch)
    (hext : ∀ b ∈ batch, extendedEnd nowUtc (r.hash b.1) = none)
    (hbroken : ∃ b ∈ batch, outcome pg.users nowUtc plan r b = .broken) :
    Isolated plan batch r pg (pollDueCloses nowUtc plan batch r pg).1
        (pollDueCloses nowUtc plan batch r pg).2 ↔
      ∀ b ∈ batch, closeFailure pg.users (plan b.1) (r.hash b.1) b.2 ≠ none := by
  obtain ⟨hnone, hhash⟩ := closeAll_broken hbatch.nodup hext hbroken []
  rw [pollDueCloses_of_broken hnone]
  constructor
  · intro h b hb hfail
    obtain ⟨hrow, hactive⟩ := row_of_selects hbatch hb
    obtain ⟨row, hcl, hrow', -⟩ := h.settled b hb hfail
    rw [hrow, Option.some.injEq] at hrow'
    exact hcl.not_active (hrow' ▸ hactive)
  · intro hall
    refine ⟨fun b hb hfail => absurd hfail (hall b hb), ?_, ?_⟩
    · intro b hb hfail
      exact ⟨(row_of_selects hbatch hb).1, by rw [hhash b hb hfail]⟩
    · intro b hb row hrow'
      obtain ⟨hrow, hactive⟩ := row_of_selects hbatch hb
      rw [hrow, Option.some.injEq] at hrow'
      rw [← hrow', hactive]
      simp

/-- What a poll without a failed flush leaves of an auction: its row, if the loop changed it,
and its hash as the loop left it. -/
theorem pollDueCloses_of_mem (hbatch : Selects pg (dueClose nowUtc) batch)
    (hext : ∀ b ∈ batch, extendedEnd nowUtc (r.hash b.1) = none)
    (hunbroken : ∀ b ∈ batch, outcome pg.users nowUtc plan r b ≠ .broken) {b : Uuid × Auction}
    (hb : b ∈ batch) {r' : Redis} {out : CloseOutcome}
    (hone : closeOne pg.users nowUtc (plan b.1) b.1 b.2 r = (r', out)) :
    (pollDueCloses nowUtc plan batch r pg).1.hash b.1 = r'.hash b.1 ∧
      (∀ row, out = .changed row →
        (pollDueCloses nowUtc plan batch r pg).2.auction b.1 = some row) ∧
      (out = .untouched → (pollDueCloses nowUtc plan batch r pg).2.auction b.1 = some b.2) := by
  obtain ⟨hrows, hhash⟩ := closeAll_unbroken hbatch.nodup hext hunbroken []
  obtain ⟨hchanged, huntouched⟩ := setRows_batch (outcome pg.users nowUtc plan r) hbatch.nodup
    pg.auction hb
  have hout : outcome pg.users nowUtc plan r b = out := congrArg Prod.snd hone
  rw [hout] at hchanged huntouched
  rw [pollDueCloses_of_unbroken hrows]
  refine ⟨(hhash b hb).trans (by rw [hone]), hchanged, ?_⟩
  rintro rfl
  exact (huntouched (by simp)).trans (row_of_selects hbatch hb).1

/-- **A poll without a failed flush** isolates its auctions exactly when all that raise do so at
a read. -/
theorem isolated_iff_of_unbroken (hbatch : Selects pg (dueClose nowUtc) batch)
    (hext : ∀ b ∈ batch, extendedEnd nowUtc (r.hash b.1) = none)
    (hunbroken : ∀ b ∈ batch, outcome pg.users nowUtc plan r b ≠ .broken) :
    Isolated plan batch r pg (pollDueCloses nowUtc plan batch r pg).1
        (pollDueCloses nowUtc plan batch r pg).2 ↔
      ∀ b ∈ batch, closeFailure pg.users (plan b.1) (r.hash b.1) b.2 = none ∨
        closeFailure pg.users (plan b.1) (r.hash b.1) b.2 = some .read := by
  constructor
  · intro h b hb
    rcases closeOne_cases pg.users (plan b.1) b.2 (hext b hb) with
      ⟨hf, -⟩ | ⟨hf, hone⟩ | ⟨hf, row, hcl, hone⟩ | ⟨hf, row, hcl, hone⟩ | ⟨hf, -⟩
    · exact Or.inr hf
    · exact absurd (congrArg Prod.snd hone) (hunbroken b hb)
    · -- it would be committed as `CLOSED`
      have hrow := (pollDueCloses_of_mem hbatch hext hunbroken hb hone).2.1 row rfl
      exact absurd hcl (h.noClosed b hb row hrow)
    · -- it would be committed although it raises
      have hrow := (pollDueCloses_of_mem hbatch hext hunbroken hb hone).2.1 row rfl
      rw [(h.kept b hb (by rw [hf]; simp)).1, Option.some.injEq] at hrow
      exact absurd (hrow ▸ (row_of_selects hbatch hb).2) hcl.not_active
    · exact Or.inl hf
  · intro hreads
    refine ⟨?_, ?_, ?_⟩
    · intro b hb hnone
      obtain ⟨row, hcl, hone⟩ := closeOne_of_none (hext b hb) hnone
      obtain ⟨hhash, hrow, -⟩ := pollDueCloses_of_mem hbatch hext hunbroken hb hone
      refine ⟨row, hcl, hrow row rfl, ?_⟩
      rw [hhash, Redis.hset_hash_self]
      rfl
    · intro b hb hfail
      obtain ⟨hhash, -, hrow⟩ := pollDueCloses_of_mem hbatch hext hunbroken hb
        (closeOne_of_read (hext b hb) ((hreads b hb).resolve_left hfail))
      exact ⟨hrow rfl, by rw [hhash]⟩
    · intro b hb row hrow
      rcases hreads b hb with hnone | hread
      · obtain ⟨row', hcl, hone⟩ := closeOne_of_none (hext b hb) hnone
        obtain ⟨-, hrow', -⟩ := pollDueCloses_of_mem hbatch hext hunbroken hb hone
        rw [hrow' row' rfl, Option.some.injEq] at hrow
        exact hrow ▸ hcl.not_closed
      · obtain ⟨-, -, hrow'⟩ := pollDueCloses_of_mem hbatch hext hunbroken hb
          (closeOne_of_read (hext b hb) hread)
        rw [hrow' rfl, Option.some.injEq] at hrow
        rw [← hrow, (row_of_selects hbatch hb).2]
        simp

end Poll

/-- **What a close poll leaves behind**, on a batch none of whose hashes moves the end. -/
theorem closePoll_iff {pg : Pg} {nowUtc : ℤ} {batch : List (Uuid × Auction)} {r : Redis}
    (hbatch : Selects pg (dueClose nowUtc) batch)
    (hext : ∀ b ∈ batch, extendedEnd nowUtc (r.hash b.1) = none)
    (plan : Uuid → Option ClosePhase) :
    Isolated plan batch r pg (pollDueCloses nowUtc plan batch r pg).1
        (pollDueCloses nowUtc plan batch r pg).2 ↔ RaisesHarmlessly plan batch r pg := by
  unfold RaisesHarmlessly
  by_cases hbroken : ∃ b ∈ batch, outcome pg.users nowUtc plan r b = .broken
  · rw [isolated_iff_of_broken hbatch hext hbroken]
    obtain ⟨b, hb, hout⟩ := hbroken
    have hflush := (outcome_broken_iff (hext b hb)).mp hout
    constructor
    · exact fun hall => Or.inr ⟨⟨b, hb, hflush⟩, hall⟩
    · rintro (hreads | ⟨-, hall⟩)
      · rcases hreads b hb with h | h <;> rw [h] at hflush <;> cases hflush
      · exact hall
  · have hunbroken : ∀ b ∈ batch, outcome pg.users nowUtc plan r b ≠ .broken :=
      fun b hb h => hbroken ⟨b, hb, h⟩
    rw [isolated_iff_of_unbroken hbatch hext hunbroken]
    constructor
    · exact Or.inl
    · rintro (hreads | ⟨⟨b, hb, hflush⟩, -⟩)
      · exact hreads
      · exact absurd ((outcome_broken_iff (hext b hb)).mpr hflush) (hunbroken b hb)

end OnlineAuction.Lifecycle
