import OnlineAuction.Lifecycle.CreateRoute
import OnlineAuction.System.Auctions

/-!
# A request to create an auction, as a run

`createAuctionRoute` does in one go what the service does command by command. Without other steps
in between, the commands of one call lead to the stores that the route leaves.

## What is proved

* `createAuctionRoute_run` — what the route leaves of the two stores is left by a run of one call.
* `creates_run` — in any state of the service a request that passes the checks and fits is
  stored as it has to be.
-/

namespace OnlineAuction.System

open OnlineAuction.Foundation OnlineAuction.Store OnlineAuction.Lifecycle

/-- A step of the call that creates an auction. -/
def Act.ofCreate (a : Uuid) : Act → Bool
  | .create a' _ _ => a' = a
  | .createStep a' _ => a' = a
  | _ => false

section Call

variable {s : Sys} {a sellerId : Uuid} {data : AuctionCreate} {row : Auction}

/-- A run of that call alone. -/
abbrev CallRun (a : Uuid) (s t : Sys) : Prop := Reach step (fun _ act _ => act.ofCreate a = true) s t

theorem callRun_single {t : Sys} (act : Act) (hact : act.ofCreate a = true)
    (hstep : step s act = some t) : CallRun a s t :=
  Relation.ReflTransGen.single ⟨act, hstep, hact⟩

/-- The row is flushed. -/
theorem callRun_flush (hnew : s.creates a = none) (hstart : data.startingPricePositive)
    (hinc : data.minIncrementPositive)
    (hrow : createAuction s.pg.users sellerId data s.now = .ok row) :
    CallRun a s { s with
      creates := Function.update s.creates a
        (some ⟨row, if row.state = .active then .hset else .commit⟩) } := by
  apply callRun_single (.create a sellerId data) (by simp [Act.ofCreate])
  simp only [step, hnew, hstart, hinc, hrow, and_self, if_true]

/-- The hash is opened if the auction is active, and the call awaits its commit. -/
theorem callRun_open (hnew : s.creates a = none) (hstart : data.startingPricePositive)
    (hinc : data.minIncrementPositive)
    (hrow : createAuction s.pg.users sellerId data s.now = .ok row) :
    CallRun a s { s with
      redis := if row.state = .active then s.redis.hset a (initRedisHash row) else s.redis
      creates := Function.update s.creates a (some ⟨row, .commit⟩) } := by
  have hflush := callRun_flush hnew hstart hinc hrow
  by_cases hactive : row.state = .active
  · rw [if_pos hactive] at hflush ⊢
    refine hflush.trans (callRun_single (.createStep a false) (by simp [Act.ofCreate]) ?_)
    simp [step]
  · rw [if_neg hactive] at hflush ⊢
    exact hflush

/-- The call ends, with a commit or without one. -/
theorem callRun_end {u : Sys} (hopen : CallRun a s u) (hu : u.creates a = some ⟨row, .commit⟩)
    (fault : Bool) :
    ∃ t, CallRun a s t ∧ t.redis = u.redis ∧
      t.pg = if fault then u.pg else u.pg.writeAuctions [(a, row)] := by
  have hact : (Act.createStep a fault).ofCreate a = true := by simp [Act.ofCreate]
  cases fault with
  | true =>
    have hstep : step u (.createStep a true) =
        some { u with creates := Function.update u.creates a (some ⟨row, .ended⟩) } := by
      simp only [step, hu, if_true]
    exact ⟨_, hopen.trans (callRun_single _ hact hstep), rfl, rfl⟩
  | false =>
    have hstep : step u (.createStep a false) = some { u with
        pg := u.pg.writeAuctions [(a, row)]
        creates := Function.update u.creates a (some ⟨row, .ended⟩) } := by
      simp only [step, hu, Bool.false_eq_true, if_false]
    exact ⟨_, hopen.trans (callRun_single _ hact hstep), rfl, rfl⟩

/-- **The route is a run of one call.** -/
theorem createAuctionRoute_run (rendersNan : Bool) (hnew : s.creates a = none)
    (hstart : data.startingPricePositive) (hinc : data.minIncrementPositive) :
    ∃ t, CallRun a s t ∧
      (createAuctionRoute rendersNan s.pg s.redis sellerId a data s.now).2 = (t.pg, t.redis) := by
  cases hrow : createAuction s.pg.users sellerId data s.now with
  | error e => exact ⟨s, Reach.refl s, by rw [createAuctionRoute_error hrow]⟩
  | ok row =>
    have hopen := callRun_open hnew hstart hinc hrow
    have hcreate : Function.update s.creates a (some ⟨row, .commit⟩) a = some ⟨row, .commit⟩ :=
      Function.update_self _ _ _
    simp only [createAuctionRoute, hrow]
    by_cases hrenders : (AuctionResponse.modelValidate a row).renders rendersNan = true
    · obtain ⟨t, hrun, hredis, hpg⟩ := callRun_end hopen hcreate false
      exact ⟨t, hrun, by rw [if_pos hrenders, hredis, hpg]; rfl⟩
    · -- the answer cannot be rendered, so the session is rolled back
      obtain ⟨t, hrun, hredis, hpg⟩ := callRun_end hopen hcreate true
      exact ⟨t, hrun, by rw [if_neg hrenders, hredis, hpg]; rfl⟩

/-- **A request that fits is stored**, in any state of the service. -/
theorem creates_run {now : ℤ} {users : List Uuid} (hs : Reachable now users s)
    (hnew : s.creates a = none) (hstart : data.startingPricePositive)
    (hinc : data.minIncrementPositive) (hchecked : Checked s.pg.users sellerId data s.now)
    {rendersNan : Bool} (hfits : RowFits rendersNan data) :
    ∃ t answer auction, CallRun a s t ∧
      Creates s.pg s.redis a data s.now (answer, t.pg, t.redis) auction := by
  obtain ⟨hpg, hredis⟩ := (auctionsInv_of_reach hs).fresh a hnew
  obtain ⟨hrefuses, hout⟩ := (hchecked.iff_rowFits hstart hinc hpg hredis).mpr hfits
  obtain ⟨auction, hcreates⟩ := hout.resolve_left (mt hrefuses.mp hchecked.not_mustRefuse)
  obtain ⟨t, hrun, hstores⟩ := createAuctionRoute_run rendersNan hnew hstart hinc
  refine ⟨t, (createAuctionRoute rendersNan s.pg s.redis sellerId a data s.now).1, auction, hrun, ?_⟩
  rw [← hstores]
  exact hcreates

end Call

end OnlineAuction.System
