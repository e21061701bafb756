import OnlineAuction.Lifecycle.PollFaults

/-!
# Closing an auction again

A process that crashes while it closes an auction loses what it has not committed, but not what it
has written to Redis: the hash may be marked with the state of the settlement, or exist only for
that mark. The next poll closes the auction again, from the same row.

## What is proved

* `closeAuction_again` — closing a closed auction once more changes nothing.
* `underway_step` — as long as an attempt runs, the hash is as it was or as the close leaves it,
  and the session holds what an uninterrupted close would give it.
* `retry_same` — after any number of interrupted attempts, a complete one leaves the row and the
  hash of one uninterrupted close.

## Honest scope

An attempt may be interleaved with anything that leaves the hash of the auction. An end in the hash
is that of the row, as in every state the service reaches.
-/

namespace OnlineAuction.Lifecycle

open OnlineAuction.Foundation OnlineAuction.Store Relation

/-! ### Closing once more -/

/-- `close_auction` on a row, uninterrupted. -/
def closeAuction (users : List Uuid) (auctionId : Uuid) (auction : Auction) (r : Redis) :
    Redis × CloseOutcome :=
  match flushAuction users (assignWinner (r.hash auctionId) auction) with
  | none => (r, .broken)
  | some obj =>
    match resolveSettlementInner obj with
    | none => (r, .changed obj.row)
    | some obj => (r.hset auctionId (.setState obj.row.state), .changed obj.row)

/-- The poll closes an auction whose end was not moved. -/
theorem closeOne_eq_closeAuction {users : List Uuid} {nowUtc : ℤ} {a : Uuid} {row : Auction}
    {r : Redis} (hext : extendedEnd nowUtc (r.hash a) = none) :
    closeOne users nowUtc none a row r = closeAuction users a row r := by
  unfold closeOne closeAuction
  rw [if_neg (by simp), hext]
  cases hflush : flushAuction users (assignWinner (r.hash a) row) with
  | none => rfl
  | some obj => cases hsettle : resolveSettlementInner obj <;> rfl

/-- Flushing what was flushed changes nothing. -/
theorem flushAuction_flushed {users : List Uuid} {obj obj' : AuctionObj}
    (h : flushAuction users obj = some obj') : flushAuction users obj' = some obj' := by
  unfold flushAuction at h ⊢
  split_ifs at h with hw
  cases hbid : obj.highestBid with
  | none =>
    simp only [hbid, Option.some.injEq] at h
    subst h
    simp only [if_pos hw]
  | some v =>
    simp only [hbid] at h
    obtain ⟨d, hd, rfl⟩ := Option.map_eq_some_iff.mp h
    simp only [if_pos hw, hd, Option.map_some]

/-- A loaded object is flushed as it is. -/
theorem flushAuction_load {users : List Uuid} {auction : Auction}
    (hw : auction.winnerId.all (· ∈ users) = true) :
    flushAuction users (.load auction) = some (.load auction) := by
  obtain ⟨sellerId, title, description, category, startingPrice, reservePrice, minIncrement,
    startTs, endTs, state, highestBid, winnerId, createdAt⟩ := auction
  cases highestBid with
  | none => exact if_pos hw
  | some d =>
    simp only [flushAuction, AuctionObj.load, Option.map_some, PyValue.value,
      Numeric.ofNumber_value]
    exact if_pos hw

/-- The hash has a leader. -/
def HasLeader (data : Option AuctionHash) : Prop :=
  ∃ h b, data = some h ∧ h.highestBidder = some (some b)

/-- **A closed object is assigned again**: from the row it leaves, in whatever state, with its
winner or with the leader of the hash. -/
theorem assignWinner_flushed {users : List Uuid} {data : Option AuctionHash} {row : Auction}
    {obj : AuctionObj} (h : flushAuction users (assignWinner data row) = some obj)
    (state : AuctionState) {winner : Option Uuid}
    (hw : winner = obj.row.winnerId ∨ HasLeader data) :
    assignWinner data { obj.row with state := state, winnerId := winner } = obj := by
  obtain ⟨hrow, hbid⟩ := flushAuction_row h
  obtain ⟨row', bid⟩ := obj
  simp only at hrow hbid hw
  by_cases hlead : HasLeader data
  · obtain ⟨h₀, b, rfl, hb⟩ := hlead
    rw [assignWinner_leader hb] at hrow hbid ⊢
    rw [hrow, hbid]
  · have hnobody : ∀ h b, data = some h → h.highestBidder ≠ some (some b) :=
      fun h b hd hb => hlead ⟨h, b, hd, hb⟩
    rw [assignWinner_nobody hnobody] at h hrow hbid ⊢
    obtain rfl := hw.resolve_right hlead
    have hload : row'.highestBid.map PyValue.decimal = bid := by
      have hok : ({ row with state := .closed } : Auction).winnerId.all (· ∈ users) = true := by
        unfold flushAuction at h
        split_ifs at h with hok
        exact hok
      rw [flushAuction_load hok, Option.some.injEq] at h
      have hr := congrArg AuctionObj.row h
      have hb := congrArg AuctionObj.highestBid h
      simp only at hr hb
      rw [← hr, ← hb]
      rfl
    rw [AuctionObj.load, hload]
    simp only [AuctionObj.mk.injEq, and_true]
    rw [hrow]
    rfl

/-- An object without a winner is settled `UNSOLD`. -/
theorem settle_nobody {auction : Auction} (hstate : auction.state = .closed)
    (hw : auction.winnerId = none) : resolveSettlementInner (.load auction) =
      some (.load { auction with state := .unsold }) := by
  unfold resolveSettlementInner
  rw [if_neg (show ¬ (AuctionObj.load auction).row.state ≠ .closed from not_not.mpr hstate)]
  simp only [AuctionObj.load, hw]

/-- A close that finds no leader, of a row without a winner, leaves the bid of the row. -/
theorem closeAuction_nobody {users : List Uuid} {a : Uuid} {row : Auction} {r : Redis}
    (hnobody : ¬ HasLeader (r.hash a)) (hw : row.winnerId = none) :
    closeAuction users a row r =
      (r.hset a (.setState .unsold), .changed { row with state := .unsold }) := by
  have hassign := assignWinner_nobody (fun h b hd hb => hnobody ⟨h, b, hd, hb⟩) row
  unfold closeAuction
  rw [hassign, flushAuction_load (by rw [hw]; rfl)]
  simp only [@settle_nobody { row with state := .closed } rfl hw]
  rfl

/-- How closing an auction ends. -/
inductive CloseEnd (users : List Uuid) (a : Uuid) (row : Auction) (r : Redis) : Prop where
  /-- The flush is refused. -/
  | refused (hflush : flushAuction users (assignWinner (r.hash a) row) = none)
    (hend : closeAuction users a row r = (r, .broken))
  /-- Settling raises. -/
  | raised {obj : AuctionObj} (hflush : flushAuction users (assignWinner (r.hash a) row) = some obj)
    (hsettle : resolveSettlementInner obj = none)
    (hend : closeAuction users a row r = (r, .changed obj.row))
  /-- The auction is settled, and the hash says so. -/
  | settled {obj obj' : AuctionObj}
    (hflush : flushAuction users (assignWinner (r.hash a) row) = some obj)
    (hsettle : resolveSettlementInner obj = some obj')
    (hend : closeAuction users a row r = (r.hset a (.setState obj'.row.state), .changed obj'.row))

theorem closeAuction_cases (users : List Uuid) (a : Uuid) (row : Auction) (r : Redis) :
    CloseEnd users a row r := by
  cases hflush : flushAuction users (assignWinner (r.hash a) row) with
  | none => exact .refused hflush (by simp only [closeAuction, hflush])
  | some obj =>
    cases hsettle : resolveSettlementInner obj with
    | none => exact .raised hflush hsettle (by simp only [closeAuction, hflush, hsettle])
    | some obj' => exact .settled hflush hsettle (by simp only [closeAuction, hflush, hsettle])

/-- A close that finds a leader leaves the bid of the leader, as its column takes it. -/
theorem closeAuction_leaderBid {users : List Uuid} {a : Uuid} {row row' : Auction} {r : Redis}
    {h₀ : AuctionHash} {b : Uuid} (hh₀ : r.hash a = some h₀)
    (hb : h₀.highestBidder = some (some b)) (h : (closeAuction users a row r).2 = .changed row') :
    ∃ d, Numeric.ofNumber (h₀.highestBid.getD (.dec 0)).toFloat.val = some d ∧
      row'.highestBid = some d := by
  have hflushed : ∀ {obj}, flushAuction users (assignWinner (r.hash a) row) = some obj →
      ∃ d, Numeric.ofNumber (h₀.highestBid.getD (.dec 0)).toFloat.val = some d ∧
        obj.row.highestBid = some d := by
    intro obj hflush
    rw [hh₀, assignWinner_leader hb, flushAuction] at hflush
    split_ifs at hflush
    obtain ⟨d, hd, rfl⟩ := Option.map_eq_some_iff.mp hflush
    exact ⟨d, hd, rfl⟩
  cases closeAuction_cases users a row r with
  | refused _ hend => rw [hend] at h; cases h
  | raised hflush _ hend =>
    rw [hend] at h
    cases h
    exact hflushed hflush
  | settled hflush hsettle hend =>
    rw [hend] at h
    cases h
    rcases settle_cases (flushAuction_state hflush) hsettle with ⟨-, heq⟩ | heq <;> rw [heq]
    · exact hflushed hflush
    · exact hflushed hflush

theorem closeAuction_bid {users : List Uuid} {a : Uuid} {row row' : Auction} {r : Redis}
    (hlead : HasLeader (r.hash a)) (h : (closeAuction users a row r).2 = .changed row') :
    row'.highestBid ≠ none := by
  obtain ⟨h₀, b, hh₀, hb⟩ := hlead
  obtain ⟨d, -, hd⟩ := closeAuction_leaderBid hh₀ hb h
  rw [hd]
  exact Option.some_ne_none d

/-- Marking a marked hash again changes nothing. -/
theorem hset_marked {r : Redis} {a : Uuid} {h : AuctionHash} {state : AuctionState}
    (hh : r.hash a = some (h.setState state)) : r.hset a (.setState state) = r := by
  have hsame : (h.setState state).setState state = h.setState state := rfl
  unfold Redis.hset
  rw [hh, Option.getD_some, hsame, ← hh, Function.update_eq_self]

/-- **Closing once more changes nothing**: neither the row nor Redis. -/
theorem closeAuction_again {users : List Uuid} {a : Uuid} {row row' : Auction} {r r₁ r₂ : Redis}
    (h : closeAuction users a row r = (r₁, .changed row')) (hr : r₂.hash a = r₁.hash a) :
    closeAuction users a row' r₂ = (r₂, .changed row') := by
  cases closeAuction_cases users a row r with
  | refused _ hend => rw [hend] at h; cases h
  | @raised obj hflush hsettle hend =>
    rw [hend] at h
    cases h
    have hassign : assignWinner (r₂.hash a) obj.row = obj := by
      rw [hr]
      exact assignWinner_flushed hflush obj.row.state (Or.inl rfl)
    unfold closeAuction
    rw [hassign, flushAuction_flushed hflush]
    simp only [hsettle]
  | @settled obj obj' hflush hsettle hend =>
    rw [hend] at h
    cases h
    have hmarked : r₂.hash a = some (((r.hash a).getD {}).setState obj'.row.state) := by
      rw [hr, Redis.hset_hash_self]
    have hkept : r₂.hset a (.setState obj'.row.state) = r₂ := hset_marked hmarked
    have hstate := flushAuction_state hflush
    unfold closeAuction
    rw [hmarked, assignWinner_setState]
    rcases settle_cases hstate hsettle with ⟨-, hrow⟩ | hrow
    · -- the winner was kept, so the object is assigned as before
      have hassign : assignWinner (r.hash a) obj'.row = obj := by
        rw [hrow]
        exact assignWinner_flushed hflush .sold (Or.inl rfl)
      rw [hassign, flushAuction_flushed hflush]
      simp only [hsettle, hkept]
    · by_cases hlead : HasLeader (r.hash a)
      · have hassign : assignWinner (r.hash a) obj'.row = obj := by
          rw [hrow]
          exact assignWinner_flushed hflush .unsold (Or.inr hlead)
        rw [hassign, flushAuction_flushed hflush]
        simp only [hsettle, hkept]
      · -- nobody leads, and the winner was dropped
        have hnobody : ∀ h b, r.hash a = some h → h.highestBidder ≠ some (some b) :=
          fun h b hd hb => hlead ⟨h, b, hd, hb⟩
        have hwinner : obj'.row.winnerId = none := by rw [hrow]
        have hunsold : obj'.row.state = .unsold := by rw [hrow]
        rw [assignWinner_nobody hnobody, flushAuction_load (by rw [hwinner]; rfl)]
        simp only [@settle_nobody { obj'.row with state := .closed } rfl hwinner]
        have hsame : { { obj'.row with state := .closed } with state := .unsold } = obj'.row := by
          rw [← hunsold]
        simp only [AuctionObj.load, hsame]
        rw [hkept]

/-! ### Attempts -/

/-- A move while a close poll runs: of the poll, whose commands do not raise, or of anything else
that leaves the hash of the auction. New users may have registered. -/
inductive QuietMove (users : List Uuid) (a : Uuid) :
    Redis × Option ClosePoll → Redis × Option ClosePoll → Prop where
  /-- The poll moves. -/
  | poll {users' : List Uuid} {r : Redis} {p : ClosePoll} {y : Redis × Option ClosePoll}
    (husers : users ⊆ users') (hstep : closeStep users' false r p = some y) :
    QuietMove users a (r, some p) y
  /-- Something else moves. -/
  | other {r r' : Redis} {p : Option ClosePoll} (hhash : r'.hash a = r.hash a) :
    QuietMove users a (r, p) (r', p)

/-- A close poll that has selected the auction with this row has come from `r` to `x`. -/
def Attempt (users : List Uuid) (a : Uuid) (row : Auction) (r : Redis)
    (x : Redis × Option ClosePoll) : Prop :=
  ∃ nowUtc batch, (batch.map Prod.fst).Nodup ∧ (a, row) ∈ batch ∧ row.endTs ≤ nowUtc ∧
    ReflTransGen (QuietMove users a) (r, some ⟨nowUtc, batch, .check, []⟩) x

/-- Any number of attempts, each given up somewhere: the process crashes, or the commit fails. -/
def Interrupted (users : List Uuid) (a : Uuid) (row : Auction) : Redis → Redis → Prop :=
  ReflTransGen fun r r' => ∃ p, Attempt users a row r (r', p)

/-- What holds while an auction is closed from the hash it has in `r`. -/
structure Underway (users : List Uuid) (a : Uuid) (row : Auction) (r : Redis)
    (x : Redis × Option ClosePoll) : Prop where
  /-- The hash is as it was, or as the close leaves it. -/
  hash : x.1.hash a = r.hash a ∨ x.1.hash a = (closeAuction users a row r).1.hash a
  /-- The auction is due. -/
  due : ∀ p ∈ x.2, row.endTs ≤ p.nowUtc
  /-- No auction twice. -/
  nodup : ∀ p ∈ x.2, ((p.todo ++ p.dirty).map Prod.fst).Nodup
  /-- The auction is still to be closed, or closed. -/
  mem : ∀ p ∈ x.2, (a, row) ∈ p.todo ∨ a ∈ p.dirty.map Prod.fst
  /-- The object at hand is assigned from the hash as it was. -/
  flush : ∀ p ∈ x.2, ∀ obj, p.pc = .flush obj → p.todo.head? = some (a, row) →
    obj = assignWinner (r.hash a) row
  /-- The object at hand is the one to be committed. -/
  hset : ∀ p ∈ x.2, ∀ obj, p.pc = .hset obj → p.todo.head? = some (a, row) →
    closeAuction users a row r = (r.hset a (.setState obj.row.state), .changed obj.row)
  /-- The auction is closed. -/
  dirty : ∀ p ∈ x.2, ∀ row', (a, row') ∈ p.dirty →
    (closeAuction users a row r).2 = .changed row' ∧
      x.1.hash a = (closeAuction users a row r).1.hash a

section Attempts

variable {users : List Uuid} {a : Uuid} {row : Auction} {r : Redis}

/-- The close reads the winner from a marked hash as from the hash before. -/
theorem Underway.assign {x : Redis × Option ClosePoll} (h : Underway users a row r x) :
    assignWinner (x.1.hash a) row = assignWinner (r.hash a) row := by
  rcases h.hash with hsame | hmarked
  · rw [hsame]
  · rw [hmarked]
    cases closeAuction_cases users a row r with
    | refused _ hend => rw [hend]
    | raised _ _ hend => rw [hend]
    | settled _ _ hend => rw [hend, Redis.hset_hash_self, assignWinner_setState]

/-- A close does not move the end. -/
theorem Underway.notExtended {x : Redis × Option ClosePoll} (h : Underway users a row r x)
    (hend : ∀ h e, r.hash a = some h → h.endTs = some e → e = unixSeconds row.endTs)
    {p : ClosePoll} (hp : x.2 = some p) : extendedEnd p.nowUtc (x.1.hash a) = none := by
  refine extendedEnd_of_le (h.due p hp) ?_
  intro h' e hh he
  rcases h.hash with hsame | hmarked
  · exact hend h' e (hsame ▸ hh) he
  · rw [hmarked] at hh
    cases closeAuction_cases users a row r with
    | refused _ hend' => rw [hend'] at hh; exact hend h' e hh he
    | raised _ _ hend' => rw [hend'] at hh; exact hend h' e hh he
    | settled _ _ hend' =>
      rw [hend', Redis.hset_hash_self, Option.some.injEq] at hh
      subst hh
      cases hold : r.hash a with
      | none => rw [hold] at he; cases he
      | some h₀ => rw [hold] at he; exact hend h₀ e hold he

/-- More users change no flush of an object whose winner is a user. -/
theorem flushAuction_users {users' : List Uuid} (husers : users ⊆ users') {obj : AuctionObj}
    (hw : obj.row.winnerId.all (· ∈ users) = true) :
    flushAuction users' obj = flushAuction users obj := by
  have hw' : obj.row.winnerId.all (· ∈ users') = true := by
    rw [Option.all_eq_true] at hw ⊢
    intro w hmem
    exact decide_eq_true (husers (of_decide_eq_true (hw w hmem)))
  unfold flushAuction
  rw [if_pos hw, if_pos hw']

/-- More users change no close of an auction whose winner is a user. -/
theorem closeAuction_users {users' : List Uuid} (husers : users ⊆ users')
    (hw : (assignWinner (r.hash a) row).row.winnerId.all (· ∈ users) = true) :
    closeAuction users' a row r = closeAuction users a row r := by
  unfold closeAuction
  rw [flushAuction_users husers hw]

/-- The keys of the batch stay. -/
theorem mem_next {p : ClosePoll} {b : Uuid × Auction} {rest : List (Uuid × Auction)}
    (htodo : p.todo = b :: rest) (h : (a, row) ∈ p.todo ∨ a ∈ p.dirty.map Prod.fst)
    (row' : Auction) : (a, row) ∈ (p.next [(b.1, row')]).todo ∨
      a ∈ (p.next [(b.1, row')]).dirty.map Prod.fst := by
  simp only [ClosePoll.next, htodo, List.tail_cons, List.map_append, List.mem_append, List.map_cons,
    List.map_nil, List.mem_singleton]
  rw [htodo] at h
  rcases h with h | h
  · rcases List.mem_cons.mp h with rfl | h
    · exact Or.inr (Or.inr rfl)
    · exact Or.inl h
  · exact Or.inr (Or.inl h)

/-- The auction at hand is the one with its row. -/
theorem Underway.head {x : Redis × Option ClosePoll} (h : Underway users a row r x) {p : ClosePoll}
    (hp : x.2 = some p) {row₀ : Auction} {rest : List (Uuid × Auction)}
    (htodo : p.todo = (a, row₀) :: rest) : p.todo.head? = some (a, row) := by
  have hne : ∀ b' ∈ rest ++ p.dirty, b'.1 ≠ a := fun _ => ClosePoll.ne_head htodo (h.nodup p hp)
  have hdirty : a ∉ p.dirty.map Prod.fst := by
    intro hmem
    obtain ⟨b', hb', heq⟩ := List.mem_map.mp hmem
    exact hne b' (List.mem_append_right _ hb') heq
  have hmem := (h.mem p hp).resolve_right hdirty
  rw [htodo, List.head?_cons]
  rw [htodo] at hmem
  rcases List.mem_cons.mp hmem with heq | hmem
  · rw [heq]
  · exact absurd rfl (hne _ (List.mem_append_left _ hmem))

/-- The poll awaits another command for the auction at hand. -/
theorem Underway.stay {r₀ : Redis} {p : ClosePoll} (h : Underway users a row r (r₀, some p))
    {pc : ClosePc}
    (hflush : ∀ obj, pc = .flush obj → p.todo.head? = some (a, row) →
      obj = assignWinner (r.hash a) row)
    (hhset : ∀ obj, pc = .hset obj → p.todo.head? = some (a, row) →
      closeAuction users a row r = (r.hset a (.setState obj.row.state), .changed obj.row)) :
    Underway users a row r (r₀, some { p with pc := pc }) := by
  refine ⟨h.hash, ?_, ?_, ?_, ?_, ?_, ?_⟩ <;> rintro q ⟨⟩
  · exact h.due p rfl
  · exact h.nodup p rfl
  · exact h.mem p rfl
  · exact hflush
  · exact hhset
  · exact h.dirty p rfl

/-- The poll goes on to the next auction; the one at hand is closed. -/
theorem Underway.next {r₀ r₁ : Redis} {p : ClosePoll} (h : Underway users a row r (r₀, some p))
    {b : Uuid} {row₀ row' : Auction} {rest : List (Uuid × Auction)}
    (htodo : p.todo = (b, row₀) :: rest) (hother : b ≠ a → r₁.hash a = r₀.hash a)
    (hown : b = a → (closeAuction users a row r).2 = .changed row' ∧
      r₁.hash a = (closeAuction users a row r).1.hash a) :
    Underway users a row r (r₁, some (p.next [(b, row')])) := by
  refine ⟨?_, ?_, ?_, ?_, ?_, ?_, ?_⟩
  · by_cases hb : b = a
    · exact Or.inr (hown hb).2
    · exact (hother hb).symm ▸ h.hash
  all_goals rintro q ⟨⟩
  · exact h.due p rfl
  · exact ClosePoll.nodup_next htodo (h.nodup p rfl) (List.Sublist.refl _)
  · exact mem_next htodo (h.mem p rfl) row'
  · intro obj hobj
    cases hobj
  · intro obj hobj
    cases hobj
  · intro row'' hmem
    rcases List.mem_append.mp hmem with hmem | hmem
    · -- it was closed before, so the auction at hand is another
      have hne : a ≠ b := ClosePoll.ne_head htodo (h.nodup p rfl) (List.mem_append_right _ hmem)
      rw [hother hne.symm]
      exact h.dirty p rfl row'' hmem
    · obtain ⟨rfl, rfl⟩ := Prod.mk.inj (List.mem_singleton.mp hmem)
      exact hown rfl

/-- **One move** of an attempt. -/
theorem underway_step
    (hend : ∀ h e, r.hash a = some h → h.endTs = some e → e = unixSeconds row.endTs)
    (hwinner : (assignWinner (r.hash a) row).row.winnerId.all (· ∈ users) = true)
    {x y : Redis × Option ClosePoll} (h : Underway users a row r x)
    (hmove : QuietMove users a x y) :
    Underway users a row r y := by
  cases hmove with
  | other hhash =>
    exact ⟨hhash ▸ h.hash, h.due, h.nodup, h.mem, h.flush, h.hset, hhash ▸ h.dirty⟩
  | @poll users' r₀ p y husers hstep =>
    obtain ⟨r₁, p'⟩ := y
    obtain ⟨b, row₀, rest, htodo, hcase⟩ := closeStep_cases hstep
    -- the flush of the auction is that of an uninterrupted close
    have hflushes : ∀ {obj obj'}, p.pc = .flush obj → flushAuction users' obj = some obj' → b = a →
        flushAuction users (assignWinner (r.hash a) row) = some obj' := by
      rintro obj obj' hpc hflush rfl
      rw [h.flush p rfl obj hpc (h.head rfl htodo), flushAuction_users husers hwinner] at hflush
      exact hflush
    have hphead : p.todo.head? = some (a, row) → b = a := by
      rw [htodo, List.head?_cons, Option.some.injEq, Prod.mk.injEq]
      exact And.left
    cases hcase with
    | skipped hfault => cases hfault
    | unclosed hfault => cases hfault
    | extended hpc hext =>
      refine h.next htodo (fun _ => rfl) ?_
      rintro rfl
      rw [h.notExtended hend rfl] at hext
      cases hext
    | checked => exact h.stay (fun _ hpc => by cases hpc) (fun _ hpc => by cases hpc)
    | assigned hpc =>
      refine h.stay ?_ (fun _ hpc => by cases hpc)
      rintro obj ⟨⟩ hhead
      rw [htodo, List.head?_cons, Option.some.injEq] at hhead
      obtain ⟨rfl, rfl⟩ := Prod.mk.inj hhead
      exact h.assign
    | refused => exact ⟨h.hash, by simp, by simp, by simp, by simp, by simp, by simp⟩
    | @unsettled obj obj' hpc hflush hraise =>
      refine h.next htodo (fun _ => rfl) ?_
      intro hb
      have hout : closeAuction users a row r = (r, .changed obj'.row) := by
        simp only [closeAuction, hflushes hpc hflush hb, hraise]
      rw [hout]
      exact ⟨rfl, h.hash.elim id fun heq => by rw [heq, hout]⟩
    | @settled obj obj' obj'' hpc hflush hsettle =>
      refine h.stay (fun _ hpc => by cases hpc) ?_
      rintro _ ⟨⟩ hhead
      simp only [closeAuction, hflushes hpc hflush (hphead hhead), hsettle]
    | @closed obj hpc =>
      refine h.next htodo (fun hb => Redis.hset_hash_of_ne (Ne.symm hb) _) ?_
      rintro rfl
      have hout := h.hset p rfl obj hpc (h.head rfl htodo)
      have hmarked : ∀ {r₀ : Redis}, r₀.hash b = r.hash b ∨
          r₀.hash b = (closeAuction users b row r).1.hash b →
          (r₀.hset b (.setState obj.row.state)).hash b =
            (closeAuction users b row r).1.hash b := by
        intro r₀ hhash
        rw [hout, Redis.hset_hash_self, Redis.hset_hash_self]
        rcases hhash with heq | heq
        · rw [heq]
        · rw [heq, hout, Redis.hset_hash_self]
          rfl
      exact ⟨by rw [hout], hmarked h.hash⟩

/-- An attempt begins. -/
theorem underway_begin {r₀ : Redis} {nowUtc : ℤ} {batch : List (Uuid × Auction)}
    (hnodup : (batch.map Prod.fst).Nodup) (hmem : (a, row) ∈ batch) (hdue : row.endTs ≤ nowUtc)
    (hhash : r₀.hash a = r.hash a ∨ r₀.hash a = (closeAuction users a row r).1.hash a) :
    Underway users a row r (r₀, some ⟨nowUtc, batch, .check, []⟩) := by
  refine ⟨hhash, ?_, ?_, ?_, ?_, ?_, ?_⟩ <;> rintro q ⟨⟩
  · exact hdue
  · simpa using hnodup
  · exact Or.inl hmem
  · intro obj hobj
    cases hobj
  · intro obj hobj
    cases hobj
  · intro row' hmem
    cases hmem

/-- An attempt that begins with the hash as it was, or as a close leaves it, is underway. -/
theorem underway_attempt
    (hend : ∀ h e, r.hash a = some h → h.endTs = some e → e = unixSeconds row.endTs)
    (hwinner : (assignWinner (r.hash a) row).row.winnerId.all (· ∈ users) = true) {r₀ : Redis}
    (hhash : r₀.hash a = r.hash a ∨ r₀.hash a = (closeAuction users a row r).1.hash a)
    {x : Redis × Option ClosePoll} (h : Attempt users a row r₀ x) : Underway users a row r x := by
  obtain ⟨nowUtc, batch, hnodup, hmem, hdue, hrun⟩ := h
  induction hrun with
  | refl => exact underway_begin hnodup hmem hdue hhash
  | tail _ hmove ih => exact underway_step hend hwinner ih hmove

/-- What attempts that were given up leave of the hash. -/
theorem hash_of_interrupted
    (hend : ∀ h e, r.hash a = some h → h.endTs = some e → e = unixSeconds row.endTs)
    (hwinner : (assignWinner (r.hash a) row).row.winnerId.all (· ∈ users) = true) {r' : Redis}
    (h : Interrupted users a row r r') :
    r'.hash a = r.hash a ∨ r'.hash a = (closeAuction users a row r).1.hash a := by
  induction h with
  | refl => exact Or.inl rfl
  | tail _ hattempt ih =>
    obtain ⟨p, hattempt⟩ := hattempt
    exact (underway_attempt hend hwinner ih hattempt).hash

/-- An attempt that comes to its commit writes the row of an uninterrupted close. -/
theorem Underway.commits {r₁ : Redis} {nowUtc : ℤ} {pc : ClosePc} {dirty : List (Uuid × Auction)}
    (h : Underway users a row r (r₁, some ⟨nowUtc, [], pc, dirty⟩)) :
    ∃ row', (closeAuction users a row r).2 = .changed row' ∧
      (∀ pg : Pg, (pg.writeAuctions dirty).auction a = some row') ∧
      r₁.hash a = (closeAuction users a row r).1.hash a := by
  obtain ⟨⟨a', row'⟩, hmem, rfl⟩ := List.mem_map.mp ((h.mem _ rfl).resolve_left (by simp))
  obtain ⟨hout, hsame⟩ := h.dirty _ rfl row' hmem
  refine ⟨row', hout, ?_, hsame⟩
  intro pg
  exact Pg.setRows_of_mem (by simpa using h.nodup _ rfl) hmem _

/-- **Closing again is closing once**: after any number of interrupted attempts, an attempt that
comes to its commit writes the row of one uninterrupted close and leaves its hash, and closing the
auction once more changes nothing. A close whose flush is refused comes to no commit, and every
attempt leaves the hash. -/
theorem retry_same
    (hend : ∀ h e, r.hash a = some h → h.endTs = some e → e = unixSeconds row.endTs)
    (hwinner : (assignWinner (r.hash a) row).row.winnerId.all (· ∈ users) = true) {r' : Redis}
    (hinterrupted : Interrupted users a row r r') :
    (∀ {r₁ nowUtc pc dirty}, Attempt users a row r' (r₁, some ⟨nowUtc, [], pc, dirty⟩) →
      ∃ row', (closeAuction users a row r).2 = .changed row' ∧
        (∀ pg : Pg, (pg.writeAuctions dirty).auction a = some row') ∧
        r₁.hash a = (closeAuction users a row r).1.hash a ∧
        ∀ (users' : List Uuid) (r₂ : Redis), users ⊆ users' → r₂.hash a = r₁.hash a →
          closeAuction users' a row' r₂ = (r₂, .changed row')) ∧
    ((closeAuction users a row r).2 = .broken →
      ∀ x, Attempt users a row r' x → x.1.hash a = r.hash a) := by
  have hhash := hash_of_interrupted hend hwinner hinterrupted
  constructor
  · intro r₁ nowUtc pc dirty hattempt
    obtain ⟨row', hout, hrow, hsame⟩ := (underway_attempt hend hwinner hhash hattempt).commits
    refine ⟨row', hout, hrow, hsame, ?_⟩
    intro users' r₂ husers hr₂
    have hout' := closeAuction_users husers hwinner
    refine closeAuction_again (Prod.ext rfl (hout'.symm ▸ hout)) ?_
    rw [hout']
    exact hr₂.trans hsame
  · intro hbroken x hattempt
    have hx := underway_attempt hend hwinner hhash hattempt
    cases closeAuction_cases users a row r with
    | refused _ hout => exact hx.hash.elim id fun heq => by rw [heq, hout]
    | raised _ _ hout => rw [hout] at hbroken; cases hbroken
    | settled _ _ hout => rw [hout] at hbroken; cases hbroken

end Attempts

/-! ### Runs -/

/-- An attempt that nothing interrupts comes to its end. -/
theorem attempt_of_closeAll {users : List Uuid} {a : Uuid} {row : Auction} {nowUtc : ℤ}
    {batch : List (Uuid × Auction)} (hnodup : (batch.map Prod.fst).Nodup) (hmem : (a, row) ∈ batch)
    (hdue : row.endTs ≤ nowUtc) (r : Redis) :
    Attempt users a row r ((closeAll users nowUtc (fun _ => none) batch r []).1,
      (closeAll users nowUtc (fun _ => none) batch r []).2.map
        fun dirty => ⟨nowUtc, [], .check, dirty⟩) := by
  refine ⟨nowUtc, batch, hnodup, hmem, hdue, ?_⟩
  refine ReflTransGen.mono ?_ _ _ (closeAll_run users (fun _ => none) nowUtc batch [] r)
  rintro ⟨r, p⟩ y ⟨p', rfl, b, -, hstep⟩
  exact .poll (List.Subset.refl _) hstep

/-- Redis with the camera's hash, where `7` leads with `25.00`. -/
def ledCamera : Redis :=
  Redis.empty.hset 5 fun h => { initRedisHash cameraRow h with
    highestBid := some (.dec 2500), highestBidder := some (some 7), sequenceNum := some 1 }

/-- Redis after an attempt to close that camera whose commit failed. -/
def markedCamera : Redis := (closeAll [1, 7] 1060000000 (fun _ => none) [(5, cameraRow)] ledCamera []).1

/-- The camera is closed again after an attempt that had marked its hash. -/
theorem retry_same_camera : markedCamera.hget 5 (·.state) = some .sold ∧
    ∃ r₁ dirty row', Attempt [1, 7] 5 cameraRow markedCamera
        (r₁, some ⟨1060000000, [], .check, dirty⟩) ∧
      (closeAuction [1, 7] 5 cameraRow ledCamera).2 = .changed row' ∧
      (∀ pg : Pg, (pg.writeAuctions dirty).auction 5 = some row') ∧
      r₁.hash 5 = (closeAuction [1, 7] 5 cameraRow ledCamera).1.hash 5 := by
  have hattempt := fun r => @attempt_of_closeAll [1, 7] 5 cameraRow 1060000000
    [(5, cameraRow)] (by decide) (by simp) (by decide) r
  have hend : ∀ h e, ledCamera.hash 5 = some h → h.endTs = some e →
      e = unixSeconds cameraRow.endTs := by
    rintro _ e ⟨⟩ ⟨⟩
    rfl
  have hwinner :
      (assignWinner (ledCamera.hash 5) cameraRow).row.winnerId.all (· ∈ [1, 7]) = true := by
    decide +kernel
  obtain ⟨dirty, hdirty⟩ : ∃ dirty,
      (closeAll [1, 7] 1060000000 (fun _ => none) [(5, cameraRow)] markedCamera []).2 =
        some dirty := Option.isSome_iff_exists.mp (by decide +kernel)
  have hdone := hattempt markedCamera
  rw [hdirty] at hdone
  obtain ⟨row', hout, hrow, hhash, -⟩ :=
    (retry_same hend hwinner (.single ⟨_, hattempt ledCamera⟩)).1 hdone
  exact ⟨by decide +kernel, _, dirty, row', hdone, hout, hrow, hhash⟩

end OnlineAuction.Lifecycle
