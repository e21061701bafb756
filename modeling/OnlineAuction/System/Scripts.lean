import OnlineAuction.Bidding.ScriptEnds
import OnlineAuction.System.Amounts
import OnlineAuction.System.Auctions
import OnlineAuction.System.Calls

/-!
# The script never fails

Whatever was created, started, closed or lost before, the script finds every field that it counts
with in an active hash: what opens a hash writes them all, a bid keeps them, and a close writes a
state that is not `ACTIVE`, also where it makes the hash.

## What is proved

* `allNumbered_of_reach` — in every reachable state an active hash has its numbers.
* `script_completes` — in every reachable state the script of every call ends with a reply and leaves
  nothing half done; a call answers `LUA_SCRIPT_ERROR` only when its script is not reached.
-/

namespace OnlineAuction.System

open OnlineAuction.Foundation OnlineAuction.Store OnlineAuction.Lifecycle OnlineAuction.Bidding

/-! ### The hashes -/

/-- Every hash has its numbers when it is active. -/
def AllNumbered (s : Sys) : Prop := ∀ a h, s.redis.hash a = some h → Numbered h

theorem allNumbered_step {s t : Sys} {act : Act} (hs : AuctionsInv s) (hnum : AllNumbered s)
    (h : SysStep s act t) : AllNumbered t := by
  intro a h' hh
  cases h.hash a with
  | kept hash => exact hnum a h' (hash ▸ hh)
  | opened _ _ hash | started _ _ hash =>
    rw [hash, Option.some.injEq] at hh
    subst hh
    exact numbered_initRedisHash _ _
  | booked _ _ _ _ _ hfound hadm hash =>
    rw [hash, Option.some.injEq] at hh
    subst hh
    exact (hnum a _ hfound).bookBid _
  | closed _ src hpc htodo hash =>
    -- a close on a missing hash leaves a state alone, and that is not `ACTIVE`
    rw [hash, Option.some.injEq] at hh
    subst hh
    apply numbered_of_state
    intro hstate
    have hne := ((hs.closes _ src).obj _ (Or.inr hpc) _ (by rw [htodo]; rfl)).state.2
    exact hne (Option.some.inj hstate)
  | lost _ hash => rw [hash] at hh; cases hh

theorem allNumbered_of_reach {now : ℤ} {users : List Uuid} {s : Sys} (hs : Reachable now users s) :
    AllNumbered s :=
  hs.invariant_with (fun hs hstep _ => auctionsInv_step hs hstep)
    (fun hs hnum hstep _ => allNumbered_step hs hnum (step_cases hstep))
    (auctionsInv_initial now users) (fun _ _ hh => by cases hh)

/-! ### The calls -/

/-- The step is no script of a call that cannot be reached. -/
def scriptUp (s : Sys) : Act → Bool
  | .bidStep b true => !(s.bids b).any fun c => c.pc.atScript
  | _ => true

/-- What the script of a call on its way does. -/
structure ScriptOk (s : Sys) (b : Uuid) (c : Call) (endTs : ℤ) : Prop where
  /-- The dedup key would live. -/
  ttl : 0 < (c.argv b endTs).ttl
  /-- The script ends, and what it leaves is whole. -/
  ends : Ends c.auctionId (c.argv b endTs) s.redis
    (placeBidLua double c.auctionId (c.argv b endTs) s.redis).1
    (placeBidLua double c.auctionId (c.argv b endTs) s.redis).2
  /-- The call knows whether its bid is accepted, or why not. -/
  resolved : Resolved endTs
    (Call.afterScript endTs (placeBidLua double c.auctionId (c.argv b endTs) s.redis).2)

theorem scriptOk_of_reach {now : ℤ} {users : List Uuid} {s : Sys} (hs : Reachable now users s)
    {b : Uuid} {c : Call} {endTs : ℤ} (hc : s.bids b = some c) (hpc : c.pc = .evalsha endTs) :
    ScriptOk s b c endTs := by
  have httl : 0 < (c.argv b endTs).ttl := ttl_pos _ _
  have hends := placeBidLua_of_numbered double (allNumbered_of_reach hs c.auctionId) httl
  refine ⟨httl, hends, hends.resolved ?_⟩
  -- a call that has not run its script has no dedup key, so its bid is not replayed
  have hfresh := (callsInv_of_reach hs).fresh hc hpc
  intro price seq hreplay
  rcases placeBidLua_cases double c.auctionId s.redis httl with ⟨h, -, hrep⟩ | hD
  · rw [hrep] at hreplay
    cases hreplay
  · exact hD.fresh hfresh price seq hreplay

/-- **The script of every call runs to its end**, in every reachable state: an active hash has its
numbers, the time to live is positive, and what the script leaves is whole. From there on, as long as
the script is reached, no call answers `LUA_SCRIPT_ERROR`. -/
theorem script_completes {now : ℤ} {users : List Uuid} {s : Sys} (hs : Reachable now users s) :
    AllNumbered s ∧
    (∀ b c endTs, s.bids b = some c → c.pc = .evalsha endTs → ScriptOk s b c endTs) ∧
    ∀ t, Reach step (fun s act _ => scriptUp s act = true) s t → ∀ b c, t.bids b = some c →
      c.pc = .done .luaScriptError → ∃ c₀, s.bids b = some c₀ ∧ c₀.pc = .done .luaScriptError := by
  refine ⟨allNumbered_of_reach hs, fun b c endTs => scriptOk_of_reach hs, ?_⟩
  intro t hlater
  refine hlater.invariant_with (J := Reachable now users)
    (I := fun t => ∀ b c, t.bids b = some c → c.pc = .done .luaScriptError →
      ∃ c₀, s.bids b = some c₀ ∧ c₀.pc = .done .luaScriptError)
    (fun hu hstep _ => hu.tail ⟨_, hstep, trivial⟩) ?_ hs (fun b c hc hpc => ⟨c, hc, hpc⟩)
  intro u act v hu hold hstep hup b c hc hpc
  cases (step_cases hstep).bid b with
  | kept call => exact hold b c (call ▸ hc) hpc
  | called _ _ _ call | crashed _ _ _ call =>
    rw [call, Option.some.injEq] at hc
    rw [← hc] at hpc
    cases hpc
  | @moved fault c₁ pc hact src hcall hmove call =>
    exfalso
    rw [call, Option.some.injEq] at hc
    obtain rfl : pc = .done .luaScriptError := by rw [← hc] at hpc; exact hpc
    obtain ⟨endTs, hat⟩ := hmove.of_luaScriptError rfl
    cases fault with
    | true => simp [hact, scriptUp, src, hat, Pc.atScript] at hup
    | false =>
      -- the script has run, and its bid is resolved
      simp only [callStep, hat, Bool.false_eq_true, if_false, Option.some.injEq,
        Prod.mk.injEq] at hcall
      rcases (scriptOk_of_reach hu src hat).resolved with ⟨verdict, hdone⟩ | ⟨reason, hdone⟩
      · rw [hdone] at hcall
        cases hcall.2
      · rw [hdone] at hcall
        cases hcall.2

/-! ### Runs -/

/-- The script of a bid on the camera waits while the hash is lost and a close makes one that has
a state alone; it ends all the same. -/
theorem script_completes_camera : ∃ s c endTs, Reachable 1000000000 [1, 7] s ∧
    s.redis.hash 5 = some { state := some .unsold } ∧ s.bids 100 = some c ∧
    c.pc = .evalsha endTs ∧ ScriptOk s 100 c endTs := by
  obtain ⟨s, hs, hp⟩ := exists_reach step (fun _ _ _ => True)
    ((cameraBid (.ofNumber (.fin 25))).dropLast ++ [.loseHash 5, .tick 60000000,
      .closeSelect [(5, cameraRow)]] ++ List.replicate 4 (.closeStep false))
    (s := .initial 1000000000 [1, 7])
    (p := fun s => s.redis.hash 5 = some { state := some .unsold } ∧
      (s.bids 100).any fun c => c.pc = .evalsha 1060000000) (by decide +kernel)
  obtain ⟨hhash, hp⟩ := of_decide_eq_true hp
  obtain ⟨c, hc, hp⟩ := (Option.any_eq_true _ _).mp hp
  have hpc := of_decide_eq_true hp
  exact ⟨s, c, _, hs, hhash, hc, hpc, (script_completes hs).2.1 100 c _ hc hpc⟩

end OnlineAuction.System
