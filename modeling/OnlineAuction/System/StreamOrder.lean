import OnlineAuction.Bidding.ScriptEnds
import OnlineAuction.Bidding.StreamReplay
import OnlineAuction.System.Amounts
import OnlineAuction.System.Calls

/-!
# The stream and the order of the scripts

`place_bid` appends a bid to the stream of its auction and runs the script on it, in two commands.
Two calls may append in one order and run in the other, and then the stream, replayed from the hash
that the auction began with, may accept other bids than the scripts did.

## What is proved

* `SysStep.stream` — what a step can do to the stream of one auction.
* `streamLog_step` — the scripts that have run, replayed in the order of the stream, lead to the hash
  and to the accepted bids (`StreamLog`), as long as the acceptances are in order.
* `stream_replays` — in every such run, whenever no appended bid waits for its script, the replay of
  the stream accepts the same bids with the same numbers and ends in the same hash.

## Honest scope

The stream is not trimmed. The time to live of the dedup keys is not in the stream; the replay may
take any.
-/

namespace OnlineAuction.System

open OnlineAuction.Foundation OnlineAuction.Store OnlineAuction.Lifecycle OnlineAuction.Bidding

/-! ### The stream of one auction -/

/-- What a step can do to the stream of the auction `a`. -/
inductive StreamMove (s : Sys) (act : Act) (t : Sys) (a : Uuid) : Prop where
  /-- Nothing. -/
  | kept (stream : t.redis.stream a = s.redis.stream a)
  /-- A bid is appended. -/
  | appended {b : Uuid} {c : Call} {endTs : ℤ} (hact : act = .bidStep b false)
    (src : s.bids b = some c) (hpc : c.pc = .xadd endTs) (hauction : c.auctionId = a)
    (stream : t.redis.stream a = s.redis.stream a ++ [c.entry b])
    (call : t.bids b = some { c with pc := .evalsha endTs })

/-- The commands of a call but `xadd` append nothing. -/
theorem callStep_stream {b : Uuid} {c : Call} {w w' : World} {pc : Pc} (h : CallStep b c w w' pc)
    (hpc : ∀ endTs, c.pc ≠ .xadd endTs) : w'.redis.stream = w.redis.stream := by
  cases h with
  | @script endTs =>
    have httl : 0 < (c.argv b endTs).ttl := ttl_pos _ _
    rcases runScript_cases w c.auctionId endTs httl with ⟨h, hA, -⟩ | ⟨hD, -⟩
    · rw [hA.left]
      rfl
    · exact hD.rest.1
  | appended hpc' => exact absurd hpc' (hpc _)
  | published _ hr => rcases hr with rfl | ⟨p, rfl⟩ <;> rfl
  | _ => rfl

/-- **The stream of one auction**: what a step can do to it. -/
theorem SysStep.stream {s t : Sys} {act : Act} (h : SysStep s act t) (a : Uuid) :
    StreamMove s act t a := by
  cases h with
  | @moved b fault c w pc hc hstep hmove =>
    by_cases hpc : ∃ endTs, c.pc = .xadd endTs
    · obtain ⟨endTs, hpc⟩ := hpc
      simp only [callStep, hpc, Option.some.injEq, Prod.mk.injEq] at hstep
      obtain ⟨rfl, rfl⟩ := hstep
      cases fault with
      | true => exact .kept rfl
      | false =>
        by_cases ha : a = c.auctionId
        · subst ha
          exact .appended rfl hc hpc rfl (Function.update_self _ _ _) (Function.update_self _ _ _)
        · exact .kept (Function.update_of_ne ha _ _)
    · push Not at hpc
      exact .kept (congrFun (callStep_stream hmove hpc) a)
  | @started fault => cases fault <;> exact .kept rfl
  | closed _ _ _ hmove => cases hmove <;> exact .kept rfl
  | _ => exact .kept rfl

/-! ### Calls and entries -/

/-- No script of the bid is to come: its call does not await it. -/
def executed (s : Sys) (b : Uuid) : Bool := !(s.bids b).any fun c => c.pc.atScript

/-- An entry of the stream of the auction `a` is that of a call that has appended it. -/
structure EntryOf (s : Sys) (a : Uuid) (e : StreamEntry) (c : Call) : Prop where
  /-- The call. -/
  call : s.bids e.bidId = some c
  /-- Its auction. -/
  auctionId : c.auctionId = a
  /-- Its entry. -/
  entry : c.entry e.bidId = e
  /-- It has appended it. -/
  appended : c.pc.appended = true

/-- A call that has appended its bid awaits its script, or has left it behind. -/
theorem callStep_appended {b : Uuid} {c : Call} {w w' : World} {pc : Pc} (h : CallStep b c w w' pc)
    (hpc : c.pc.appended = true) : pc.appended = true ∧ pc.atScript = false := by
  have hafter : pc.beforeScript = false := by
    by_contra hbefore
    obtain ⟨hbefore, hnot⟩ := beforeScript_of h (Bool.of_not_eq_false hbefore)
    rw [Pc.appended, hbefore, Bool.not_true, Bool.false_or] at hpc
    unfold Pc.atScript at hpc
    split at hpc
    · exact hnot _ ‹_›
    · cases hpc
  refine ⟨by rw [Pc.appended, hafter]; rfl, ?_⟩
  cases pc <;> first | rfl | cases hafter

/-- A call comes to its script from the append. -/
theorem callStep_atScript {b : Uuid} {c : Call} {w w' : World} {pc : Pc} (h : CallStep b c w w' pc)
    (hpc : pc.atScript = true) : ∃ endTs, c.pc = .xadd endTs := by
  have hbefore : pc.beforeScript = true := by
    cases pc <;> first | rfl | cases hpc
  obtain ⟨hc, hnot⟩ := beforeScript_of h hbefore
  cases h with
  | appended hxadd => exact ⟨_, hxadd⟩
  | script hscript => exact absurd hscript (hnot _)
  | flushed hc' | proxied hc' =>
    rw [hc'] at hc
    cases hc
  | _ => cases hpc

/-- An entry stays that of its call. -/
theorem EntryOf.kept {s t : Sys} {act : Act} {a : Uuid} {e : StreamEntry} {c : Call}
    (he : EntryOf s a e c) (h : SysStep s act t) : ∃ c', EntryOf t a e c' := by
  have hcall := he.call
  cases h.bid e.bidId with
  | kept call => exact ⟨c, call.trans hcall, he.auctionId, he.entry, he.appended⟩
  | called _ hnew => rw [hnew] at hcall; cases hcall
  | moved _ src _ hmove call =>
    obtain rfl := Option.some.inj (hcall.symm.trans src)
    exact ⟨_, call, he.auctionId, he.entry, (callStep_appended hmove he.appended).1⟩
  | crashed _ src _ call =>
    obtain rfl := Option.some.inj (hcall.symm.trans src)
    exact ⟨_, call, he.auctionId, he.entry, rfl⟩

/-! ### The log -/

/-- The stream of the auction `a`, whose hash was `h₀` before anything was appended. -/
structure StreamLog (a : Uuid) (h₀ : AuctionHash) (s : Sys) : Prop where
  /-- The calls. -/
  calls : CallsInv s
  /-- The scripts that have run, replayed in the order of the stream, lead to the hash and to what
  was accepted. -/
  faithful : ∃ h, s.redis.hash a = some h ∧ Faithful scriptGate (h₀, []) (s.redis.stream a)
    (executed s) (h, numbersOf (s.accepted a))
  /-- An entry is that of a call. -/
  entries : ∀ e ∈ s.redis.stream a, ∃ c, EntryOf s a e c
  /-- A call that awaits its script has its entry. -/
  waiting : ∀ b c, s.bids b = some c → c.auctionId = a → c.pc.atScript = true →
    c.entry b ∈ s.redis.stream a

/-- Only the script writes the hash of the auction `a`; no `xadd` and no script of its calls raises;
and the process does not crash while a bid that was appended awaits its script. -/
def undisturbed (a : Uuid) (s : Sys) : Act → Bool
  | .loseHash b => b ≠ a
  | .createStep b false => b = a → (s.creates a).all fun c => c.pc ≠ .hset
  | .startStep false => s.starts.all fun p => p.todo.head?.all fun b => b.1 ≠ a
  | .closeStep _ => s.closes.all fun p => p.todo.head?.all fun b => b.1 = a → p.pc.phase ≠ .hset
  | .bidStep b true => (s.bids b).all fun c =>
      c.auctionId = a ∧ c.pc.beforeScript = true → c.pc = .dbGet
  | .crash => (s.redis.stream a).all fun e => executed s e.bidId
  | _ => true

/-- A bid is accepted on the auction `a` in order: no bid that was appended before it and awaits its
script would be accepted now, unless a later one was; no bid that was appended after it was accepted,
and none of them that was rejected would be accepted then. -/
def acceptsInOrder (a : Uuid) (s : Sys) (act : Act) : Bool :=
  (scriptRun s act).all fun (c, argv) => c.auctionId = a → (s.redis.hash a).all fun h =>
    Admits double h argv →
      scriptGate.inOrder (executed s) (h, numbersOf (s.accepted a)) argv.bidId (s.redis.stream a)

/-- A step runs the script of the call `c` with the key `b` on the auction `a`. -/
structure Scripts (s : Sys) (act : Act) (a b : Uuid) (c : Call) (endTs : ℤ) : Prop where
  /-- The step. -/
  act : act = .bidStep b false
  /-- The call. -/
  call : s.bids b = some c
  /-- The auction. -/
  auctionId : c.auctionId = a
  /-- It awaits its script. -/
  pc : c.pc = .evalsha endTs

/-- A step that runs no script on an undisturbed auction changes neither its hash nor what was
accepted. -/
theorem hash_of_undisturbed {s t : Sys} {act : Act} {a : Uuid} (h : SysStep s act t)
    (hok : undisturbed a s act = true) (hnot : ∀ b c endTs, ¬ Scripts s act a b c endTs) :
    t.redis.hash a = s.redis.hash a ∧ t.accepted a = s.accepted a := by
  cases h.hash a with
  | kept hash log => exact ⟨hash, log⟩
  | opened hact src =>
    rw [hact] at hok
    simp [undisturbed, src] at hok
  | started hact src =>
    rw [hact] at hok
    simp [undisturbed, src] at hok
  | booked hact src hpc hauction => exact absurd ⟨hact, src, hauction, hpc⟩ (hnot _ _ _)
  | closed hact src hpc htodo =>
    rw [hact] at hok
    simp [undisturbed, src, htodo, hpc, ClosePc.phase] at hok
  | lost hact =>
    rw [hact] at hok
    simp [undisturbed] at hok

/-- Such a step leaves it open which entries await their scripts. -/
theorem executed_of_undisturbed {s t : Sys} {act : Act} {a : Uuid} (h : SysStep s act t)
    (hok : undisturbed a s act = true) (hnot : ∀ b c endTs, ¬ Scripts s act a b c endTs)
    {e : StreamEntry} (hmem : e ∈ s.redis.stream a) {c : Call} (he : EntryOf s a e c) :
    executed t e.bidId = executed s e.bidId := by
  have hcall := he.call
  cases h.bid e.bidId with
  | kept call => rw [executed, call, executed]
  | called _ hnew => rw [hnew] at hcall; cases hcall
  | @moved fault c₀ pc hact src hstep hmove call =>
    obtain rfl := Option.some.inj (hcall.symm.trans src)
    -- a call that awaits its script does not move here
    have hnotAt : c.pc.atScript = false := by
      by_contra hat
      unfold Pc.atScript at hat
      split at hat
      · rename_i endTs hpc
        cases fault with
        | false => exact hnot _ _ _ ⟨hact, src, he.auctionId, hpc⟩
        | true =>
          rw [hact] at hok
          simp [undisturbed, src, he.auctionId, hpc, Pc.beforeScript] at hok
      · exact hat rfl
    simp only [executed, call, src, Option.any_some, hnotAt,
      (callStep_appended hmove he.appended).2]
  | crashed hact src _ call =>
    obtain rfl := Option.some.inj (hcall.symm.trans src)
    rw [hact] at hok
    rw [List.all_eq_true.mp hok e hmem, executed, call]
    rfl

/-- **The script of a call runs**, in order. -/
theorem faithful_script {s t : Sys} {act : Act} {a b : Uuid} {c : Call} {endTs : ℤ}
    {h₀ : AuctionHash} (hs : StreamLog a h₀ s) (h : SysStep s act t)
    (hscript : Scripts s act a b c endTs) (hok : acceptsInOrder a s act = true) :
    ∃ h, t.redis.hash a = some h ∧ Faithful scriptGate (h₀, []) (t.redis.stream a) (executed t)
      (h, numbersOf (t.accepted a)) := by
  obtain ⟨rfl, hc, rfl, hpc⟩ := hscript
  obtain ⟨hash, hhash, hfaithful⟩ := hs.faithful
  have hstream : t.redis.stream c.auctionId = s.redis.stream c.auctionId := by
    cases h.stream c.auctionId with
    | kept stream => exact stream
    | appended hact src hpc' =>
      cases hact
      rw [hc, Option.some.injEq] at src
      subst src
      rw [hpc] at hpc'
      cases hpc'
  have hfresh := hs.calls.fresh hc hpc
  have hmem := hs.waiting b c hc rfl (by rw [hpc]; rfl)
  -- what the script does is what the gate does
  obtain ⟨hash', hhash', hoffer⟩ := script_offer (e := c.entry b) (s.accepted c.auctionId)
    (ttl_pos endTs c.nowTs) hfresh hhash
  have hwaits : executed s (scriptGate.key (c.entry b)) = false := by
    show executed s b = false
    rw [executed, hc, Option.any_some, hpc]
    rfl
  have hexecuted := hfaithful.execute hmem hwaits (by
    intro hadm
    rw [acceptsInOrder, scriptRun_of_evalsha hc hpc, Option.all_some, decide_eq_true_eq, hhash] at hok
    have := of_decide_eq_true (hok rfl)
    exact this ((admits_argvOf 0 (ttl endTs c.nowTs)).mp (of_decide_eq_true hadm)))
  cases h with
  | @moved _ _ c' w pc hc' hstep hmove =>
    obtain rfl := Option.some.inj (hc.symm.trans hc')
    simp only [callStep, hpc, Bool.false_eq_true, if_false, Option.some.injEq, Prod.mk.injEq] at hstep
    obtain ⟨rfl, rfl⟩ := hstep
    refine ⟨hash', hhash', ?_⟩
    rw [hstream]
    have hlive : (hash', numbersOf ((s.toWorld.runScript c.auctionId (c.argv b endTs)).accepted
        c.auctionId)) = scriptGate.offer (hash, numbersOf (s.accepted c.auctionId)) (c.entry b) := by
      rw [hoffer]
      exact congrArg (fun acc => (hash', numbersOf acc)) (Function.update_self _ _ _)
    refine hlive ▸ ?_
    refine hexecuted.congr fun i _ => ?_
    by_cases hb : scriptGate.key i = b
    · have hafter := (callStep_appended hmove (by rw [hpc]; rfl)).2
      rw [hb, show scriptGate.key (c.entry b) = b from rfl, Function.update_self]
      simp only [executed, Function.update_self, Option.any_some, hafter, Bool.not_false]
    · rw [show scriptGate.key (c.entry b) = b from rfl, Function.update_of_ne hb]
      simp only [executed, Function.update_of_ne hb]

/-- A bid that is about to be appended is not in the stream yet. -/
theorem StreamLog.not_appended {s : Sys} {a b : Uuid} {h₀ : AuctionHash} (hs : StreamLog a h₀ s)
    {c : Call} {endTs : ℤ} (hc : s.bids b = some c) (hpc : c.pc = .xadd endTs) :
    b ∉ (s.redis.stream a).map (·.bidId) := by
  intro hmem
  obtain ⟨e, he, hid⟩ := List.mem_map.mp hmem
  obtain ⟨c', hof⟩ := hs.entries e he
  have hcall := hof.call
  rw [show e.bidId = b from hid, hc, Option.some.injEq] at hcall
  subst hcall
  have happended := hof.appended
  rw [hpc] at happended
  cases happended

/-- It was not accepted either: what was accepted has a verdict. -/
theorem StreamLog.not_accepted {s : Sys} {a b : Uuid} {h₀ : AuctionHash} (hs : StreamLog a h₀ s)
    {c : Call} {endTs : ℤ} (hc : s.bids b = some c) (hpc : c.pc = .xadd endTs) :
    b ∉ (numbersOf (s.accepted a)).map Prod.fst := by
  intro hmem
  simp only [numbersOf, List.map_map, List.mem_map, Function.comp_apply] at hmem
  obtain ⟨e, he, hid⟩ := hmem
  obtain ⟨c', hc', hof⟩ := hs.calls.history a e he
  rw [show e.argv.bidId = b from hid, hc, Option.some.injEq] at hc'
  subst hc'
  rcases hof.verdict with ⟨price, hv⟩ | haborted
  · rw [hpc] at hv
    cases hv
  · rw [hpc] at haborted
    cases haborted

/-- **No script runs** on an undisturbed auction: at most a bid is appended. -/
theorem faithful_undisturbed {s t : Sys} {act : Act} {a : Uuid} {h₀ : AuctionHash}
    (hs : StreamLog a h₀ s) (h : SysStep s act t) (hok : undisturbed a s act = true)
    (hnot : ∀ b c endTs, ¬ Scripts s act a b c endTs) :
    ∃ h, t.redis.hash a = some h ∧ Faithful scriptGate (h₀, []) (t.redis.stream a) (executed t)
      (h, numbersOf (t.accepted a)) := by
  obtain ⟨hash, hhash, hfaithful⟩ := hs.faithful
  obtain ⟨hsame, hlog⟩ := hash_of_undisturbed h hok hnot
  -- the entries that were there
  have hold : Faithful scriptGate (h₀, []) (s.redis.stream a) (executed t)
      (hash, numbersOf (s.accepted a)) := by
    refine hfaithful.congr fun e he => ?_
    obtain ⟨c, hof⟩ := hs.entries e he
    exact executed_of_undisturbed h hok hnot he hof
  refine ⟨hash, hsame.trans hhash, ?_⟩
  rw [hlog]
  cases h.stream a with
  | kept stream =>
    rw [stream]
    exact hold
  | @appended b c endTs _ src hpc hauction stream call =>
    rw [stream]
    refine hold.append (hs.not_appended src hpc) (decide_eq_false (hs.not_accepted src hpc)) ?_
    show executed t b = false
    rw [executed, call]
    rfl

/-- An entry is that of a call after the step too. -/
theorem entries_step {s t : Sys} {act : Act} {a : Uuid} {h₀ : AuctionHash} (hs : StreamLog a h₀ s)
    (h : SysStep s act t) : ∀ e ∈ t.redis.stream a, ∃ c, EntryOf t a e c := by
  intro e he
  have hold : e ∈ s.redis.stream a → ∃ c, EntryOf t a e c := by
    intro he
    obtain ⟨c, hof⟩ := hs.entries e he
    exact hof.kept h
  cases h.stream a with
  | kept stream => exact hold (stream ▸ he)
  | appended _ _ _ hauction stream call =>
    rw [stream] at he
    rcases List.mem_append.mp he with he | he
    · exact hold he
    · rw [List.mem_singleton.mp he]
      exact ⟨_, call, hauction, rfl, rfl⟩

/-- A call that awaits its script after the step has its entry: no `xadd` raises. -/
theorem waiting_entries_step {s t : Sys} {act : Act} {a : Uuid} {h₀ : AuctionHash}
    (hs : StreamLog a h₀ s) (h : SysStep s act t) (hok : undisturbed a s act = true) :
    ∀ b c, t.bids b = some c → c.auctionId = a → c.pc.atScript = true →
      c.entry b ∈ t.redis.stream a := by
  intro b c hc hauction hat
  have hgrows : ∀ e ∈ s.redis.stream a, e ∈ t.redis.stream a := by
    intro e he
    cases h.stream a with
    | kept stream => rwa [stream]
    | appended _ _ _ _ stream =>
      rw [stream]
      exact List.mem_append_left _ he
  cases h.bid b with
  | kept call => exact hgrows _ (hs.waiting b c (call ▸ hc) hauction hat)
  | called _ _ _ call | crashed _ _ _ call =>
    rw [call, Option.some.injEq] at hc
    subst hc
    cases hat
  | @moved fault c₀ pc hact src hmoved hmove call =>
    rw [call, Option.some.injEq] at hc
    subst hc
    obtain ⟨endTs, hpc⟩ := callStep_atScript hmove hat
    cases fault with
    | true =>
      rw [hact] at hok
      simp [undisturbed, src, hpc, show c₀.auctionId = a from hauction, Pc.beforeScript] at hok
    | false =>
      simp only [callStep, hpc, Bool.false_eq_true, if_false, Option.some.injEq,
        Prod.mk.injEq] at hmoved
      rw [← hmoved.1, ← show c₀.auctionId = a from hauction]
      show c₀.entry b ∈ Function.update s.redis.stream _ _ _
      rw [Function.update_self]
      exact List.mem_append_right _ (List.mem_singleton_self _)

/-- **One step** on an undisturbed auction, which accepts in order. -/
theorem streamLog_step {s t : Sys} {act : Act} {a : Uuid} {h₀ : AuctionHash}
    (hs : StreamLog a h₀ s) (hstep : step s act = some t) (hok : undisturbed a s act = true)
    (horder : acceptsInOrder a s act = true) : StreamLog a h₀ t where
  calls := callsInv_step hs.calls hstep
  faithful := by
    by_cases hscript : ∃ b c endTs, Scripts s act a b c endTs
    · obtain ⟨b, c, endTs, hscript⟩ := hscript
      exact faithful_script hs (step_cases hstep) hscript horder
    · push Not at hscript
      exact faithful_undisturbed hs (step_cases hstep) hok hscript
  entries := entries_step hs (step_cases hstep)
  waiting := waiting_entries_step hs (step_cases hstep) hok

/-! ### Every run -/

/-- The auction `a` has the hash `h₀`, and no bid on it was appended or accepted yet. -/
structure Opened (s : Sys) (a : Uuid) (h₀ : AuctionHash) : Prop where
  /-- The hash. -/
  hash : s.redis.hash a = some h₀
  /-- The stream is empty. -/
  stream : s.redis.stream a = []
  /-- Nothing was accepted. -/
  accepted : s.accepted a = []
  /-- No call awaits its script. -/
  calls : ∀ b c, s.bids b = some c → c.auctionId = a → c.pc.atScript = false

theorem streamLog_opened {s : Sys} {a : Uuid} {h₀ : AuctionHash} (hcalls : CallsInv s)
    (h : Opened s a h₀) : StreamLog a h₀ s where
  calls := hcalls
  faithful := by
    refine ⟨h₀, h.hash, ?_⟩
    rw [h.stream, h.accepted]
    exact .nil _ _
  entries := by simp [h.stream]
  waiting := by
    intro b c hc hauction hat
    rw [h.calls b c hc hauction] at hat
    cases hat

/-- **The stream replays to the hash** in every run on an undisturbed auction whose acceptances are in
order: whenever no bid that was appended awaits its script, the script, run over the stream from the
first hash, accepts the same bids with the same numbers and ends in the same hash. -/
theorem stream_replays {now : ℤ} {users : List Uuid} {s₀ s : Sys} {a : Uuid} {h₀ : AuctionHash}
    (hs₀ : Reachable now users s₀) (hopened : Opened s₀ a h₀)
    (hrun : Reach step
      (fun s act _ => undisturbed a s act = true ∧ acceptsInOrder a s act = true) s₀ s)
    (hdone : ∀ e ∈ s.redis.stream a, executed s e.bidId = true) {ttl : ℤ} (httl : 0 < ttl) :
    (replay a ttl h₀ (s.redis.stream a)).redis.hash a = s.redis.hash a ∧
      numbersOf (replay a ttl h₀ (s.redis.stream a)).accepted = numbersOf (s.accepted a) := by
  have hlog : StreamLog a h₀ s := hrun.invariant
    (fun hs hstep hok => streamLog_step hs hstep hok.1 hok.2)
    (streamLog_opened (callsInv_of_reach hs₀) hopened)
  obtain ⟨hash, hhash, hfaithful⟩ := hlog.faithful
  obtain ⟨hash', hhash', hreplay⟩ := replay_eq_run httl h₀ hfaithful.nodup
  have heq := (hfaithful.run_eq hdone).symm.trans hreplay
  rw [Prod.mk.injEq] at heq
  exact ⟨by rw [hhash', hhash, heq.1], heq.2.symm⟩

/-! ### Runs -/

/-- No step calls `place_bid`. -/
def Act.noBid : Act → Bool
  | .bid _ _ _ _ => false
  | _ => true

theorem bids_of_noBid {now : ℤ} {users : List Uuid} {s : Sys}
    (hrun : Reach step (fun _ act _ => act.noBid = true) (.initial now users) s) (b : Uuid) :
    s.bids b = none := by
  refine hrun.invariant (I := fun s => s.bids b = none) ?_ rfl
  intro s act t hs hstep hok
  cases (step_cases hstep).bid b with
  | kept call => exact call.trans hs
  | called hact =>
    rw [hact] at hok
    cases hok
  | moved _ src | crashed _ src =>
    rw [hs] at src
    cases src

/-- The hash that the camera's auction begins with. -/
def cameraHash : AuctionHash := initRedisHash cameraRow {}

/-- A run on the camera from its opening on. -/
theorem exists_cameraRun (ok : Sys → Act → Sys → Prop) [∀ s act t, Decidable (ok s act t)]
    (acts : List Act) {q : Sys → Bool}
    (h : (runIf step (fun _ act _ => act.noBid = true) ((cameraBid (.ofNumber (.fin 25))).take 3)
      (.initial 1000000000 [1, 7, 8])).any (fun s₀ => decide (s₀.redis.hash 5 = some cameraHash ∧
        s₀.redis.stream 5 = [] ∧ s₀.accepted 5 = []) && (runIf step ok acts s₀).any q) = true) :
    ∃ s₀ s, Reachable 1000000000 [1, 7, 8] s₀ ∧ Opened s₀ 5 cameraHash ∧ Reach step ok s₀ s ∧
      q s = true := by
  obtain ⟨s₀, hs₀, hp⟩ := exists_reach _ _ _ h
  obtain ⟨hopened, hrun⟩ := Bool.and_eq_true_iff.mp hp
  obtain ⟨hhash, hstream, haccepted⟩ := of_decide_eq_true hopened
  obtain ⟨s, hs, hq⟩ := exists_reach _ _ _ hrun
  refine ⟨s₀, s, hs₀.weaken fun _ => trivial, ⟨hhash, hstream, haccepted, ?_⟩, hs, hq⟩
  intro b c hc
  rw [bids_of_noBid hs₀] at hc
  cases hc

/-- Bids of `25.00` and of `50.00` are appended, in this order, and their scripts run. -/
def appendTwo (b b' : Uuid) : List Act :=
  .bid 100 5 7 { amount := .ofNumber (.fin 25) } :: List.replicate 2 (.bidStep 100 false) ++
    .bid 101 5 8 { amount := .ofNumber (.fin 50) } :: List.replicate 2 (.bidStep 101 false) ++
    [.bidStep b false, .bidStep b' false]

/-- The scripts run in the order of the stream. -/
theorem stream_replays_camera : ∃ s : Sys, numbersOf (s.accepted 5) = [(100, 1), (101, 2)] ∧
    (replay 5 3600 cameraHash (s.redis.stream 5)).redis.hash 5 = s.redis.hash 5 ∧
    numbersOf (replay 5 3600 cameraHash (s.redis.stream 5)).accepted = numbersOf (s.accepted 5) := by
  obtain ⟨s₀, s, hs₀, hopened, hrun, hp⟩ := exists_cameraRun
    (fun s act _ => undisturbed 5 s act = true ∧ acceptsInOrder 5 s act = true) (appendTwo 100 101)
    (q := fun s => numbersOf (s.accepted 5) = [(100, 1), (101, 2)] ∧
      ∀ e ∈ s.redis.stream 5, executed s e.bidId = true) (by decide +kernel)
  obtain ⟨hnumbers, hdone⟩ := of_decide_eq_true hp
  exact ⟨s, hnumbers, stream_replays hs₀ hopened hrun hdone (by decide)⟩

/-- **The replay differs**: the bid of `50.00` is appended second and accepted first, and the bid of
`25.00` is too low; the replay accepts both. -/
theorem camera_replay_accepts : ∃ s₀ s : Sys, Reachable 1000000000 [1, 7, 8] s₀ ∧
    Opened s₀ 5 cameraHash ∧ Reach step (fun s act _ => undisturbed 5 s act = true) s₀ s ∧
    (∀ e ∈ s.redis.stream 5, executed s e.bidId = true) ∧
    numbersOf (s.accepted 5) = [(101, 1)] ∧
    numbersOf (replay 5 3600 cameraHash (s.redis.stream 5)).accepted = [(100, 1), (101, 2)] := by
  obtain ⟨s₀, s, hs₀, hopened, hrun, hp⟩ := exists_cameraRun
    (fun s act _ => undisturbed 5 s act = true) (appendTwo 101 100)
    (q := fun s => (∀ e ∈ s.redis.stream 5, executed s e.bidId = true) ∧
      numbersOf (s.accepted 5) = [(101, 1)] ∧
      numbersOf (replay 5 3600 cameraHash (s.redis.stream 5)).accepted = [(100, 1), (101, 2)])
    (by decide +kernel)
  exact ⟨s₀, s, hs₀, hopened, hrun, of_decide_eq_true hp⟩

end OnlineAuction.System
