import OnlineAuction.System.Sales

/-!
# When the script is not there

`place_bid` runs its script by a hash that the process has learnt when it started (`lifespan`,
`register_scripts`), from a Redis that keeps scripts in memory only. If Redis did not answer at the
start, `get_lua_sha` raises; if Redis has forgotten the script, `EVALSHA` fails, and the bid is answered
with `LUA_SCRIPT_ERROR`. Nothing in the program loads the script a second time.

## What is proved

* `outage_lasts` — from the moment on at which the script is not there until a start of the process
  that registers it, no bid is evaluated and none is accepted, however long the service goes on;
  auctions open and close meanwhile, and those sold are sold to bids accepted before.

## Honest scope

A restart of Redis that also loses its keys is a `flush` with losses of hashes.
-/

namespace OnlineAuction.System

open OnlineAuction.Foundation OnlineAuction.Store OnlineAuction.Lifecycle OnlineAuction.Bidding

/-! ### The process and its script -/

/-- How `lifespan` fares with Redis when the process starts. -/
inductive Startup where
  /-- The script is registered. -/
  | registered
  /-- Redis has loaded it, and the answer was lost. -/
  | unanswered
  /-- Redis is not available. -/
  | unavailable
  deriving DecidableEq

/-- The service, and what its script depends on. -/
structure Node where
  /-- The service. -/
  sys : Sys
  /-- `_lua_sha` has the script. -/
  sha : Bool
  /-- Redis has it. -/
  loaded : Bool

/-- `register_scripts`, in `lifespan`: the process has learnt the hash, or a warning was logged. -/
def Node.started (sys : Sys) (loaded : Bool) : Startup → Node
  | .registered => ⟨sys, true, true⟩
  | .unanswered => ⟨sys, false, true⟩
  | .unavailable => ⟨sys, false, loaded⟩

/-- Bids can be evaluated. -/
def Node.serves (n : Node) : Bool := n.sha && n.loaded

/-- The steps. -/
inductive NodeAct where
  /-- The service moves. -/
  | service (act : Act)
  /-- The process crashes and starts again. -/
  | restart (how : Startup)
  /-- Redis forgets its scripts. -/
  | flush

/-- The process starts and registers the script. -/
def NodeAct.registers : NodeAct → Bool
  | .restart .registered => true
  | _ => false

/-- `get_lua_sha` raises in the call `c`, before its transaction has a row. -/
def raiseKeyError (s : Sys) (b : Uuid) (c : Call) : Sys :=
  { s with toWorld := (abort b s.toWorld).1
           bids := Function.update s.bids b (some { c with pc := (abort b s.toWorld).2 }) }

/-- The service moves: a call at its script needs the hash of it, and Redis the script. -/
def serviceStep (n : Node) : Act → Option Sys
  | .bidStep b fault =>
    match n.sys.bids b with
    | none => none
    | some c =>
      match c.pc with
      | .evalsha _ =>
        if n.sha then step n.sys (.bidStep b (fault || !n.loaded)) else some (raiseKeyError n.sys b c)
      | _ => step n.sys (.bidStep b fault)
  -- a crash is a restart
  | .crash => none
  | act => step n.sys act

/-- One step. -/
def nodeStep (n : Node) : NodeAct → Option Node
  | .service act => (serviceStep n act).map fun t => { n with sys := t }
  | .restart how => (step n.sys .crash).map fun t => .started t n.loaded how
  | .flush => some { n with loaded := false }

/-- The process starts for the first time. -/
def Node.initial (now : ℤ) (users : List Uuid) (how : Startup) : Node :=
  .started (.initial now users) false how

/-- What a move of the service does: it is a step, which runs the script only if bids can be evaluated,
or `get_lua_sha` raises. -/
inductive ServiceStep (n : Node) : Sys → Prop where
  /-- A step. -/
  | moved {act : Act} {t : Sys} (hstep : step n.sys act = some t)
    (hscript : n.serves = true ∨ scriptRun n.sys act = none) : ServiceStep n t
  /-- A call raises. -/
  | raised {b : Uuid} {c : Call} {endTs : ℤ} (hc : n.sys.bids b = some c) (hpc : c.pc = .evalsha endTs) :
    ServiceStep n (raiseKeyError n.sys b c)

theorem serviceStep_other {n : Node} {act : Act} (hbid : ∀ b fault, act ≠ .bidStep b fault)
    (hcrash : act ≠ .crash) : serviceStep n act = step n.sys act := by
  cases act with
  | bidStep b fault => exact absurd rfl (hbid b fault)
  | crash => exact absurd rfl hcrash
  | _ => rfl

theorem serviceStep_cases {n : Node} {act : Act} {t : Sys} (h : serviceStep n act = some t) :
    ServiceStep n t := by
  cases act with
  | bidStep b fault =>
    simp only [serviceStep] at h
    split at h
    · cases h
    · rename_i c hc
      split at h
      · rename_i endTs hpc
        split_ifs at h with hsha
        · refine .moved h ?_
          cases hloaded : n.loaded
          · exact Or.inr (by simp [scriptRun])
          · exact Or.inl (by simp [Node.serves, hsha, hloaded])
        · cases h
          exact .raised hc hpc
      · rename_i hpc
        refine .moved h (Or.inr ?_)
        cases fault with
        | true => rfl
        | false => simp only [scriptRun, hc]
  | crash => cases h
  | _ => exact .moved ((serviceStep_other (by simp) (by simp)).symm.trans h) (Or.inr rfl)

/-! ### Without the script -/

/-- The call is not evaluated: it waits for its script, was answered without it, or has raised. -/
def Pc.unevaluated : Pc → Bool
  | .done .auctionNotFound | .done .luaScriptError | .aborted => true
  | pc => pc.beforeScript

section Step

variable {s t : Sys} {act : Act}

/-- Without the script nothing is accepted. -/
theorem accepted_of_noScript (h : SysStep s act t) (hscript : scriptRun s act = none) (a : Uuid) :
    t.accepted a = s.accepted a := by
  cases h.hash a with
  | booked hact src hpc =>
    rw [hact, scriptRun_of_evalsha src hpc] at hscript
    cases hscript
  | kept _ log | opened _ _ _ log | started _ _ _ log | closed _ _ _ _ _ log | lost _ _ log => exact log

/-- Without the script no call is evaluated. -/
theorem unevaluated_step (h : SysStep s act t) (hscript : scriptRun s act = none) {b : Uuid}
    (hs : ∀ c, s.bids b = some c → Pc.unevaluated c.pc = true) {c : Call} (hc : t.bids b = some c) :
    Pc.unevaluated c.pc = true := by
  cases h.bid b with
  | kept call => exact hs c (call ▸ hc)
  | called _ _ _ call =>
    obtain rfl := Option.some.inj (call.symm.trans hc)
    rfl
  | crashed _ _ _ call =>
    obtain rfl := Option.some.inj (call.symm.trans hc)
    rfl
  | @moved fault c₀ pc hact src hstep hmove call =>
    obtain rfl := Option.some.inj (call.symm.trans hc)
    have hold := hs c₀ src
    generalize t.toWorld = w at hstep hmove
    cases hmove with
    | found | notFound | appended | noScript | raised => rfl
    | script hpc =>
      cases fault with
      | false =>
        rw [hact, scriptRun_of_evalsha src hpc] at hscript
        cases hscript
      | true =>
        simp only [callStep, hpc, if_true, Option.some.injEq, Prod.mk.injEq] at hstep
        rw [← hstep.2]
        rfl
    | looked hpc | flushed hpc | selected hpc | proxied hpc | published hpc | committed hpc =>
      rw [hpc] at hold
      cases hold

end Step

/-- What holds while bids cannot be evaluated, since the state `n`. -/
structure Silent (n m : Node) : Prop where
  /-- They still cannot. -/
  serves : m.serves = false
  /-- Sales are made to bidders. -/
  sales : SalesInv m.sys
  /-- Nothing was accepted. -/
  accepted : ∀ a, m.sys.accepted a = n.sys.accepted a
  /-- Calls are not evaluated. -/
  calls : ∀ b, (∀ c, n.sys.bids b = some c → Pc.unevaluated c.pc = true) →
    ∀ c, m.sys.bids b = some c → Pc.unevaluated c.pc = true

/-- `get_lua_sha` raises before the call has a row, and nothing else changes. -/
theorem salesInv_raise {s : Sys} (hs : SalesInv s) {b : Uuid} {c : Call} : SalesInv (raiseKeyError s b c) := by
  have hinv := hs.auctions
  refine ⟨⟨hinv.fresh, hinv.pending, hinv.accepted, ?_, hinv.rows, hinv.hashes, ?_, ?_⟩, hs.led, hs.rows,
    fun p hp => ?_⟩
  · intro b' c' hc' hloaded
    have hupdate : Function.update s.bids b (some { c with pc := .aborted }) b' = some c' := hc'
    by_cases hb : b' = b
    · rw [hb, Function.update_self, Option.some.injEq] at hupdate
      rw [← hupdate] at hloaded
      cases hloaded
    · rw [Function.update_of_ne hb] at hupdate
      exact hinv.loaded b' c' hupdate hloaded
  · exact fun p hp => ⟨(hinv.starts p hp).nodup, (hinv.starts p hp).todo, (hinv.starts p hp).dirty⟩
  · exact fun p hp => ⟨(hinv.closes p hp).nodup, (hinv.closes p hp).todo, (hinv.closes p hp).obj,
      (hinv.closes p hp).dirty⟩
  · exact ⟨(hs.closes p hp).flush, (hs.closes p hp).hset, (hs.closes p hp).dirty⟩

theorem silent_step {n m m' : Node} {act : NodeAct} (hm : Silent n m) (h : nodeStep m act = some m')
    (hact : act.registers = false) : Silent n m' := by
  have hserves := hm.serves
  cases act with
  | service act =>
    obtain ⟨t, ht, rfl⟩ := Option.map_eq_some_iff.mp h
    cases serviceStep_cases ht with
    | moved hstep hscript =>
      have hnone := hscript.resolve_left (by simp [hserves])
      refine ⟨hserves, salesInv_step hm.sales hstep, fun a => ?_, fun b hb c hc => ?_⟩
      · exact (accepted_of_noScript (step_cases hstep) hnone a).trans (hm.accepted a)
      · exact unevaluated_step (step_cases hstep) hnone (hm.calls b hb) hc
    | @raised b c endTs hc hpc =>
      refine ⟨hserves, salesInv_raise hm.sales, hm.accepted, fun b' hb' c' hc' => ?_⟩
      have hupdate : Function.update m.sys.bids b (some { c with pc := .aborted }) b' = some c' := hc'
      by_cases heq : b' = b
      · rw [heq, Function.update_self, Option.some.injEq] at hupdate
        rw [← hupdate]
        rfl
      · rw [Function.update_of_ne heq] at hupdate
        exact hm.calls b' hb' c' hupdate
  | restart how =>
    simp only [nodeStep, Option.map_eq_some_iff] at h
    obtain ⟨t, ht, rfl⟩ := h
    have hsys : (Node.started t m.loaded how).sys = t := by cases how <;> rfl
    have hnone : scriptRun m.sys .crash = none := rfl
    refine ⟨?_, ?_, fun a => ?_, fun b hb c hc => ?_⟩
    · cases how with
      | registered => cases hact
      | unanswered | unavailable => rfl
    · rw [hsys]
      exact salesInv_step hm.sales ht
    · rw [hsys]
      exact (accepted_of_noScript (step_cases ht) hnone a).trans (hm.accepted a)
    · rw [hsys] at hc
      exact unevaluated_step (step_cases ht) hnone (hm.calls b hb) hc
  | flush =>
    cases h
    exact ⟨by simp [Node.serves], hm.sales, hm.accepted, hm.calls⟩

/-- Sales are made to bidders in every run of the process, with its script or without. -/
theorem salesInv_of_nodes {now : ℤ} {users : List Uuid} {how : Startup} {ok : Node → NodeAct → Node → Prop}
    {n : Node} (hn : Reach nodeStep ok (.initial now users how) n) : SalesInv n.sys := by
  refine hn.invariant (I := fun n => SalesInv n.sys) ?_ ?_
  · intro n act n' hinv hstep _
    cases act with
    | service act =>
      obtain ⟨t, ht, rfl⟩ := Option.map_eq_some_iff.mp hstep
      cases serviceStep_cases ht with
      | moved hstep => exact salesInv_step hinv hstep
      | raised => exact salesInv_raise hinv
    | restart how =>
      simp only [nodeStep, Option.map_eq_some_iff] at hstep
      obtain ⟨t, ht, rfl⟩ := hstep
      cases how <;> exact salesInv_step hinv ht
    | flush =>
      cases hstep
      exact hinv
  · cases how <;> exact salesInv_initial now users

/-- **An outage** lasts until the process is started again and registers its script. From a state in
which it is not there, in every run without such a start: bids cannot be evaluated, nothing is accepted,
the calls that had not been evaluated are not, and an auction is sold only to the bidder of a bid that
was accepted before. -/
theorem outage_lasts {now : ℤ} {users : List Uuid} {how : Startup} {n m : Node}
    (hn : Reach nodeStep (fun _ _ _ => True) (.initial now users how) n) (hserves : n.serves = false)
    (hm : Reach nodeStep (fun _ act _ => act.registers = false) n m) :
    m.serves = false ∧
    (∀ a, m.sys.accepted a = n.sys.accepted a) ∧
    (∀ b, (∀ c, n.sys.bids b = some c → Pc.unevaluated c.pc = true) →
      ∀ c, m.sys.bids b = some c → Pc.unevaluated c.pc = true) ∧
    ∀ a row, m.sys.pg.auction a = some row → row.state = .sold →
      ∃ e ∈ n.sys.accepted a, WonBy m.sys.pg.users e row ∧ Reaches e row := by
  have hsilent : Silent n m := hm.invariant (fun hm hstep hact => silent_step hm hstep hact)
    ⟨hserves, salesInv_of_nodes hn, fun _ => rfl, fun _ hb => hb⟩
  refine ⟨hsilent.serves, hsilent.accepted, hsilent.calls, fun a row hrow hsold => ?_⟩
  have hsale := hsilent.sales.rows a row hrow
  obtain ⟨w, hw⟩ := Option.ne_none_iff_exists'.mp (hsale.sold hsold)
  obtain ⟨e, he, hwon, hreaches⟩ := hsale.won w hw
  exact ⟨e, hsilent.accepted a ▸ he, hwon, hreaches hsold⟩

/-! ### A run -/

/-- Redis is not available when the process starts, and is when the camera is opened. A bid on it is made,
and then it is closed. -/
def cameraOutage : List NodeAct :=
  (cameraBid (.ofNumber (.fin 25)) ++ [Act.tick 60000000, .closeSelect [(5, cameraRow)]] ++
    List.replicate 4 (Act.closeStep false) ++ [Act.closeCommit false]).map NodeAct.service

theorem outage_lasts_camera : ∃ m : Node, ∃ c row, m.sys.bids 100 = some c ∧ c.pc = .aborted ∧
    m.sys.pg.auction 5 = some row ∧ row.state = .unsold ∧ m.serves = false ∧
    (∀ a, m.sys.accepted a = []) ∧ ∀ a row, m.sys.pg.auction a = some row → row.state ≠ .sold := by
  obtain ⟨m, hm, hp⟩ := exists_reach nodeStep (fun _ act _ => act.registers = false) cameraOutage
    (s := .initial 1000000000 [1, 7] .unavailable)
    (p := fun m => (m.sys.bids 100).any (fun c => c.pc = .aborted) ∧
      (m.sys.pg.auction 5).any fun row => row.state = .unsold) (by decide +kernel)
  obtain ⟨hcall, hrow⟩ := of_decide_eq_true hp
  obtain ⟨c, hc, hpc⟩ := (Option.any_eq_true _ _).mp hcall
  obtain ⟨row, hrow, hstate⟩ := (Option.any_eq_true _ _).mp hrow
  obtain ⟨hserves, haccepted, -, hsold⟩ := outage_lasts (Reach.refl _) rfl hm
  refine ⟨m, c, row, hc, of_decide_eq_true hpc, hrow, of_decide_eq_true hstate, hserves, haccepted, ?_⟩
  intro a row hrow hsold'
  obtain ⟨e, he, -⟩ := hsold a row hrow hsold'
  cases he

end OnlineAuction.System
