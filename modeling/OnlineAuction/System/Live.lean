import OnlineAuction.Foundation.Watch
import OnlineAuction.System.History

/-!
# Live updates over a WebSocket

`auction_live` reads the hash, sends it as the first frame, subscribes to the channel of the auction
and relays what it receives. What is published between the read and the subscription goes to
nobody.

Any number of clients observe the service; a message goes to those who are subscribed when it is
published, and sending does not fail.

## What is proved

* `SysStep.fanout` — what a step can do to the channel of one auction.
* `channelInv_step` — a published message is that of an acceptance (`ChannelInv`).
* `live_relays` — in every run in which no newer message is published between the snapshot and the
  subscription of a client, and the hash is neither lost nor opened again after a bid, every
  message that is newer than the first frame of a client is sent to it, or waits to be.

## Honest scope

A client may disconnect at any time. In a crash all do.
-/

namespace OnlineAuction.System

open OnlineAuction.Foundation OnlineAuction.Store OnlineAuction.Lifecycle OnlineAuction.Bidding

/-! ### The channel -/

/-- The message that a step publishes, and its auction. -/
def publishes (s : Sys) : Act → Option (Uuid × Payload)
  | .bidStep b false => (s.bids b).bind fun c => match c.pc with
    | .publish endTs verdict => some (c.auctionId, c.payload endTs verdict)
    | _ => none
  | _ => none

/-- What a step can do to the channel of the auction `a`. -/
inductive FanoutMove (s : Sys) (act : Act) (t : Sys) (a : Uuid) : Prop where
  /-- Nothing. -/
  | kept (fanout : t.redis.fanout a = s.redis.fanout a)
  /-- A bid is published. -/
  | published {b : Uuid} {c : Call} {endTs : ℤ} {verdict : Verdict} (hact : act = .bidStep b false)
    (src : s.bids b = some c) (hpc : c.pc = .publish endTs verdict) (hauction : c.auctionId = a)
    (fanout : t.redis.fanout a = s.redis.fanout a ++ [c.payload endTs verdict])

/-- The commands of a call but the last one publish nothing. -/
theorem callStep_fanout {b : Uuid} {c : Call} {w w' : World} {pc : Pc} (h : CallStep b c w w' pc)
    (hpc : ∀ endTs verdict, c.pc ≠ .publish endTs verdict) : w'.redis.fanout = w.redis.fanout := by
  cases h with
  | @script endTs =>
    have httl : 0 < (c.argv b endTs).ttl := ttl_pos _ _
    rcases runScript_cases w c.auctionId endTs httl with ⟨h, hA, -⟩ | ⟨hD, -⟩
    · rw [hA.left]
      rfl
    · exact hD.rest.2
  | appended _ hr => rcases hr with rfl | rfl <;> rfl
  | published hpc' => exact absurd hpc' (hpc _ _)
  | _ => rfl

/-- **The channel of one auction**: what a step can do to it. -/
theorem SysStep.fanout {s t : Sys} {act : Act} (h : SysStep s act t) (a : Uuid) :
    FanoutMove s act t a := by
  cases h with
  | @moved b fault c w pc hc hstep hmove =>
    by_cases hpc : ∃ endTs verdict, c.pc = .publish endTs verdict
    · obtain ⟨endTs, verdict, hpc⟩ := hpc
      simp only [callStep, hpc, Option.some.injEq, Prod.mk.injEq] at hstep
      obtain ⟨rfl, -⟩ := hstep
      cases fault with
      | true => exact .kept rfl
      | false =>
        by_cases ha : a = c.auctionId
        · subst ha
          exact .published rfl hc hpc rfl (Function.update_self _ _ _)
        · exact .kept (Function.update_of_ne ha _ _)
    · push Not at hpc
      exact .kept (congrFun (callStep_fanout hmove hpc) a)
  | @started fault => cases fault <;> exact .kept rfl
  | closed _ _ _ hmove => cases hmove <;> exact .kept rfl
  | _ => exact .kept rfl

/-- What holds between the history and the channel of the auction `a`. -/
structure ChannelInv (s : Sys) (a : Uuid) : Prop where
  /-- The auctions. -/
  auctions : AuctionsInv s
  /-- The calls. -/
  calls : CallsInv s
  /-- The hash follows from the history. -/
  follows : Follows s a
  /-- A call that is about to publish was accepted. -/
  accepted : ∀ b c endTs verdict, s.bids b = some c → c.pc = .publish endTs verdict →
    verdict.status = .accepted
  /-- A message is that of an acceptance. -/
  published : ∀ p ∈ s.redis.fanout a, ∃ e ∈ s.accepted a, e.seq = p.sequenceNum

/-- Once a bid was accepted on the auction `a`, a step neither loses its hash nor opens it again. -/
def keepsHash (a : Uuid) (s : Sys) : Act → Bool
  | .loseHash b => b = a → (s.accepted a).isEmpty
  | .startStep false => s.starts.all fun p => p.todo.head?.all fun b =>
      b.1 = a → (s.accepted a).isEmpty
  | _ => true

theorem channelInv_step {s t : Sys} {act : Act} {a : Uuid} (hs : ChannelInv s a)
    (hstep : step s act = some t) (hok : keepsHash a s act = true) : ChannelInv t a := by
  have h := step_cases hstep
  refine ⟨auctionsInv_step hs.auctions hstep, callsInv_step hs.calls hstep, ?_, ?_, ?_⟩
  · refine follows_next hs.auctions hs.follows h ?_ ?_
    · rintro rfl
      simpa [keepsHash] using hok
    · rintro ⟨rfl, row, rest, dirty, hp⟩
      simpa [keepsHash, hp] using hok
  · exact publishesAccepted_step hs.accepted h
  · intro p hp
    have hold : p ∈ s.redis.fanout a → ∃ e ∈ t.accepted a, e.seq = p.sequenceNum := by
      intro hp
      obtain ⟨e, he, hseq⟩ := hs.published p hp
      exact ⟨e, (h.log a).subset he, hseq⟩
    cases h.fanout a with
    | kept fanout => exact hold (fanout ▸ hp)
    | published _ src hpc hauction fanout =>
      subst hauction
      rw [fanout] at hp
      rcases List.mem_append.mp hp with hp | hp
      · exact hold hp
      · rw [List.mem_singleton.mp hp]
        obtain ⟨e, he, -, hseq⟩ := hs.calls.accepted _ _ _ src (by rw [hpc]; rfl)
          (hs.accepted _ _ _ _ src hpc)
        exact ⟨e, (h.log _).subset he, hseq⟩

theorem channelInv_initial (now : ℤ) (users : List Uuid) (a : Uuid) :
    ChannelInv (.initial now users) a where
  auctions := auctionsInv_initial now users
  calls := callsInv_initial now users
  follows := follows_initial now users a
  accepted := fun _ _ _ _ hc => by cases hc
  published := fun _ hp => by cases hp

/-! ### The clients -/

/-- A frame that is sent to a client. -/
structure Frame where
  /-- The sequence number. -/
  sequenceNum : ℕ
  /-- The price. -/
  currentPrice : Option DecStr
  /-- The highest bidder, sent masked; `none` is the empty text. -/
  highBidder : Option Uuid
  /-- When bidding ends, in seconds. -/
  endTs : ℤ
  deriving DecidableEq

/-- The first frame, from the hash. -/
def initialFrame : Option AuctionHash → Frame
  | some data => ⟨data.sequenceNum.getD 0, some (data.highestBid.getD (.dec 0)),
      data.highestBidder.join, data.endTs.getD 0⟩
  | none => ⟨0, some (.dec 0), none, 0⟩

/-- The frame of a message. -/
def Frame.ofPayload (p : Payload) : Frame :=
  ⟨p.sequenceNum, p.currentPrice, some p.highBidder, p.endTs⟩

/-- What a connection of `auction_live` awaits. -/
inductive LivePc where
  /-- `redis.hgetall`. -/
  | snapshot
  /-- `websocket.send_json` of the first frame. -/
  | send (initial : Frame)
  /-- `pubsub.subscribe`. -/
  | subscribe
  /-- The next message; these have come and are not relayed yet. -/
  | listen (queue : List Payload)
  /-- Nothing more: it is closed. -/
  | closed
  deriving DecidableEq

/-- A connection of `auction_live`. -/
structure LiveClient where
  /-- The auction. -/
  auctionId : Uuid
  /-- The frames sent, in order. -/
  sent : List Frame
  /-- What it awaits. -/
  pc : LivePc
  deriving DecidableEq

/-- What a connection does itself. -/
inductive LiveAct where
  /-- Its next command. -/
  | next
  /-- The client disconnects. -/
  | disconnect

/-- One command of `auction_live`. -/
def liveStep (s : Sys) (c : LiveClient) : LiveAct → Option LiveClient
  | .next =>
    match c.pc with
    | .snapshot => some { c with pc := .send (initialFrame (s.redis.hash c.auctionId)) }
    | .send initial => some { c with sent := c.sent ++ [initial], pc := .subscribe }
    | .subscribe => some { c with pc := .listen [] }
    | .listen (p :: queue) => some { c with sent := c.sent ++ [.ofPayload p], pc := .listen queue }
    | .listen [] | .closed => none
  | .disconnect => if c.pc = .closed then none else some { c with pc := .closed }

/-- What a step of the service does to a connection: a subscribed one gets what is published. -/
def LiveClient.hear (s : Sys) (act : Act) (t : Sys) (c : LiveClient) : LiveClient :=
  match act, c.pc with
  | .crash, _ => { c with pc := .closed }
  | _, .listen queue => { c with
      pc := .listen (queue ++
        (t.redis.fanout c.auctionId).drop (s.redis.fanout c.auctionId).length) }
  | _, _ => c

/-- The service with its live connections, each for an auction. -/
def live : Watch Sys LiveClient Act Uuid LiveAct where
  step := step
  enter := fun a => ⟨a, [], .snapshot⟩
  hear := LiveClient.hear
  own := liveStep

/-! ### The gap -/

/-- The first frame of a connection that is between its snapshot and its subscription. -/
def LiveClient.gap (c : LiveClient) : Option Frame :=
  match c.pc with
  | .send initial => some initial
  | .subscribe => c.sent.head?
  | _ => none

/-- A step does not lose the hash of the auction `a`, nor opens it again, once a bid was accepted,
and publishes nothing newer than the first frame of a connection that is not subscribed yet. -/
def unmissed (a : Uuid) (w : Watched Sys LiveClient) : WatchAct Act Uuid LiveAct → Bool
  | .core act => keepsHash a w.core act && (publishes w.core act).all fun (b, p) =>
      w.observers.all fun c => b = a ∧ c.auctionId = a →
        c.gap.all fun initial => p.sequenceNum ≤ initial.sequenceNum
  | _ => true

/-- A connection has been sent its first frame, and of what was published exactly what is newer, in
order, up to the messages that wait. -/
def Relayed (s : Sys) (c : LiveClient) (queue : List Payload) : Prop :=
  ∃ initial before relayed, c.sent = initial :: relayed.map Frame.ofPayload ∧
    s.redis.fanout c.auctionId = before ++ relayed ++ queue ∧
    ∀ p ∈ before, p.sequenceNum ≤ initial.sequenceNum

/-- What holds between the service and a connection. -/
def LiveOk (s : Sys) (c : LiveClient) : Prop :=
  match c.pc with
  | .snapshot => c.sent = []
  | .send initial => c.sent = [] ∧
      ∀ p ∈ s.redis.fanout c.auctionId, p.sequenceNum ≤ initial.sequenceNum
  | .subscribe => ∃ initial, c.sent = [initial] ∧
      ∀ p ∈ s.redis.fanout c.auctionId, p.sequenceNum ≤ initial.sequenceNum
  | .listen queue => Relayed s c queue
  | .closed => True

/-- **The snapshot** is as new as every message published before it. -/
theorem le_initialFrame {s : Sys} {a : Uuid} (hs : ChannelInv s a) {p : Payload}
    (hp : p ∈ s.redis.fanout a) : p.sequenceNum ≤ (initialFrame (s.redis.hash a)).sequenceNum := by
  obtain ⟨e, he, hseq⟩ := hs.published p hp
  obtain ⟨h, hh, htr⟩ := hs.follows.tracked (List.ne_nil_of_mem he)
  have hmem : e.seq ∈ List.range' 1 (s.accepted a).length :=
    htr.numbered ▸ List.mem_map_of_mem he
  rw [hh, ← hseq]
  simp only [initialFrame, htr.sequenceNum, Option.getD_some]
  have := List.mem_range'_1.mp hmem
  omega

/-- What a step publishes comes after what was published before. -/
theorem FanoutMove.append {s t : Sys} {act : Act} {a : Uuid} (h : FanoutMove s act t a) :
    ∃ new, t.redis.fanout a = s.redis.fanout a ++ new ∧
      ∀ p ∈ new, publishes s act = some (a, p) := by
  cases h with
  | kept fanout => exact ⟨[], by rw [fanout, List.append_nil], by simp⟩
  | published hact src hpc hauction fanout =>
    refine ⟨_, fanout, ?_⟩
    intro p hp
    rw [List.mem_singleton.mp hp, hact, ← hauction]
    simp only [publishes, src, Option.bind_some, hpc]

theorem LiveClient.hear_crash (s t : Sys) (c : LiveClient) :
    c.hear s .crash t = { c with pc := .closed } := rfl

/-- A step that is no crash. -/
theorem LiveClient.hear_of_ne {s t : Sys} {act : Act} (hact : act ≠ .crash) (c : LiveClient) :
    c.hear s act t = match c.pc with
      | .listen queue => { c with
          pc := .listen (queue ++
            (t.redis.fanout c.auctionId).drop (s.redis.fanout c.auctionId).length) }
      | _ => c := by
  obtain ⟨a, sent, pc⟩ := c
  cases act with
  | crash => exact absurd rfl hact
  | _ => cases pc <;> rfl

theorem LiveClient.hear_auctionId (s : Sys) (act : Act) (t : Sys) (c : LiveClient) :
    (c.hear s act t).auctionId = c.auctionId := by
  by_cases hact : act = .crash
  · rw [hact, hear_crash]
  · rw [hear_of_ne hact]
    split <;> rfl

theorem liveStep_auctionId {s : Sys} {c c' : LiveClient} {b : LiveAct}
    (h : liveStep s c b = some c') : c'.auctionId = c.auctionId := by
  unfold liveStep at h
  split at h
  · split at h <;> cases h <;> rfl
  · split_ifs at h
    cases h
    rfl

/-- **What a connection hears** of a step keeps it up to date. -/
theorem liveOk_hear {s t : Sys} {act : Act} {c : LiveClient} (h : SysStep s act t)
    (hok : ∀ p, publishes s act = some (c.auctionId, p) →
      ∀ initial ∈ c.gap, p.sequenceNum ≤ initial.sequenceNum) (hc : LiveOk s c) :
    LiveOk t (c.hear s act t) := by
  by_cases hact : act = .crash
  · rw [hact, LiveClient.hear_crash]
    trivial
  obtain ⟨new, hnew, hpublished⟩ := (h.fanout c.auctionId).append
  rw [LiveClient.hear_of_ne hact]
  -- what is new is not newer than the frame of a connection in its gap
  have hold : ∀ {initial : Frame}, initial ∈ c.gap →
      (∀ p ∈ s.redis.fanout c.auctionId, p.sequenceNum ≤ initial.sequenceNum) →
      ∀ p ∈ t.redis.fanout c.auctionId, p.sequenceNum ≤ initial.sequenceNum := by
    intro initial hgap hle p hp
    rw [hnew] at hp
    rcases List.mem_append.mp hp with hp | hp
    · exact hle p hp
    · exact hok p (hpublished p hp) initial hgap
  obtain ⟨a, sent, pc⟩ := c
  cases pc with
  | snapshot => exact hc
  | send initial => exact ⟨hc.1, hold rfl hc.2⟩
  | subscribe =>
    obtain ⟨initial, hsent, hle⟩ := hc
    exact ⟨initial, hsent, hold (congrArg List.head? hsent) hle⟩
  | listen queue =>
    obtain ⟨initial, before, relayed, hsent, hfanout, hle⟩ := hc
    refine ⟨initial, before, relayed, hsent, ?_, hle⟩
    simp only at hnew hfanout ⊢
    rw [hnew, List.drop_left, hfanout, List.append_assoc]
  | closed => trivial

/-- **What a connection does** keeps it up to date. -/
theorem liveOk_own {s : Sys} {c c' : LiveClient} {b : LiveAct} (hs : ChannelInv s c.auctionId)
    (hc : LiveOk s c) (hstep : liveStep s c b = some c') : LiveOk s c' := by
  obtain ⟨a, sent, pc⟩ := c
  cases b with
  | disconnect =>
    simp only [liveStep] at hstep
    split_ifs at hstep
    cases hstep
    trivial
  | next =>
    cases pc with
    | snapshot =>
      cases hstep
      exact ⟨hc, fun p hp => le_initialFrame hs hp⟩
    | send initial =>
      cases hstep
      obtain ⟨hsent, hle⟩ := hc
      obtain rfl : sent = [] := hsent
      exact ⟨initial, rfl, hle⟩
    | subscribe =>
      cases hstep
      obtain ⟨initial, hsent, hle⟩ := hc
      refine ⟨initial, s.redis.fanout a, [], hsent, ?_, hle⟩
      simp
    | listen queue =>
      cases queue with
      | nil => cases hstep
      | cons p queue =>
        cases hstep
        obtain ⟨initial, before, relayed, hsent, hfanout, hle⟩ := hc
        obtain rfl : sent = _ := hsent
        refine ⟨initial, before, relayed ++ [p], ?_, ?_, hle⟩
        · simp
        · simpa using hfanout
    | closed => cases hstep

/-! ### Every run -/

/-- The messages that wait are sent, one by one. -/
theorem relay_queue {w : Watched Sys LiveClient} {k : ℕ} {c : LiveClient} {queue : List Payload}
    (hk : w.observers[k]? = some c) (hpc : c.pc = .listen queue) :
    ∃ w', Reach live.next (fun _ act _ => act = .own k .next) w w' ∧ w'.observers[k]? =
      some { c with sent := c.sent ++ queue.map Frame.ofPayload, pc := .listen [] } := by
  induction queue generalizing w c with
  | nil =>
    refine ⟨w, .refl w, ?_⟩
    rw [hk, List.map_nil, List.append_nil, ← hpc]
  | cons p queue ih =>
    let c₁ : LiveClient := { c with sent := c.sent ++ [.ofPayload p], pc := .listen queue }
    have hstep : liveStep w.core c .next = some c₁ := by simp only [liveStep, hpc, c₁]
    have hlt : k < w.observers.length := (List.getElem?_eq_some_iff.mp hk).1
    obtain ⟨w', hrun, hk'⟩ := ih (w := ⟨w.core, w.observers.set k c₁⟩) (c := c₁)
      (List.getElem?_set_self hlt) rfl
    refine ⟨w', .trans (.single ⟨.own k .next, ?_, rfl⟩) hrun, ?_⟩
    · simp only [Watch.next, hk, Option.bind_some, live, hstep, Option.map_some]
    · rw [hk']
      simp [c₁]

/-- When nothing waits any more, everything newer than the first frame is sent. -/
theorem Relayed.mem_sent {s : Sys} {c : LiveClient} (h : Relayed s c []) {initial : Frame}
    (hinitial : c.sent.head? = some initial) {p : Payload} (hp : p ∈ s.redis.fanout c.auctionId)
    (hnewer : initial.sequenceNum < p.sequenceNum) : Frame.ofPayload p ∈ c.sent := by
  obtain ⟨initial', before, relayed, hsent, hfanout, hle⟩ := h
  rw [hsent, List.head?_cons, Option.some.injEq] at hinitial
  subst hinitial
  rw [hfanout, List.append_nil] at hp
  rcases List.mem_append.mp hp with hp | hp
  · exact absurd (hle p hp) (not_le.mpr hnewer)
  · rw [hsent]
    exact List.mem_cons_of_mem _ (List.mem_map_of_mem hp)

/-- **Nothing is missed** in a run in which nothing newer is published between the snapshot and the
subscription of a connection: what is newer than its first frame is sent in order, or waits; and
when the connection goes on, nothing waits any more. -/
theorem live_relays {now : ℤ} {users : List Uuid} {w : Watched Sys LiveClient} {a : Uuid}
    (hrun : Reach live.next (fun w act _ => unmissed a w act = true) ⟨.initial now users, []⟩ w)
    {k : ℕ} {c : LiveClient} {queue : List Payload} (hk : w.observers[k]? = some c)
    (hauction : c.auctionId = a) (hpc : c.pc = .listen queue) :
    Relayed w.core c queue ∧ ∃ w' c', Reach live.next (fun _ act _ => act = .own k .next) w w' ∧
      w'.observers[k]? = some c' ∧ Relayed w.core c' [] := by
  have hall := Watch.invariant (W := live) (I := fun s => ChannelInv s a)
    (P := fun s c => c.auctionId = a → LiveOk s c) ?_ ?_ ?_ hrun (channelInv_initial now users a)
    (by simp)
  · have hc := hall.2 c (List.mem_of_getElem? hk) hauction
    unfold LiveOk at hc
    rw [hpc] at hc
    obtain ⟨w', hrun', hk'⟩ := relay_queue hk hpc
    refine ⟨hc, w', _, hrun', hk', ?_⟩
    obtain ⟨initial, before, relayed, hsent, hfanout, hle⟩ := hc
    refine ⟨initial, before, relayed ++ queue, ?_, ?_, hle⟩
    · rw [hsent, List.cons_append, List.map_append]
    · rw [hfanout, List.append_nil, List.append_assoc]
  · -- a step of the service
    rintro w act t hs hstep hok
    simp only [unmissed, Bool.and_eq_true] at hok
    obtain ⟨hkeeps, hgap⟩ := hok
    refine ⟨channelInv_step hs hstep hkeeps, ?_⟩
    intro c hc hlive hauction
    rw [show (live.hear w.core act t c).auctionId = c.auctionId from
      c.hear_auctionId w.core act t] at hauction
    refine liveOk_hear (step_cases hstep) ?_ (hlive hauction)
    intro p hp initial hinitial
    rw [hp, Option.all_some, List.all_eq_true] at hgap
    have hall := of_decide_eq_true (hgap c hc) ⟨hauction, hauction⟩
    rw [hinitial, Option.all_some, decide_eq_true_eq] at hall
    exact hall
  · -- a new connection
    intro s b _ _
    rfl
  · -- a connection
    rintro w k b c c' w' hs hc - hstep - hauction
    rw [liveStep_auctionId hstep] at hauction
    subst hauction
    exact liveOk_own hs (hc rfl) hstep

/-! ### Runs -/

/-- The camera is created. -/
def newCamera : List (WatchAct Act Uuid LiveAct) :=
  ((cameraBid (.ofNumber (.fin 25))).take 3).map .core

/-- It gets a bid of `25.00`, which is published. -/
def publishedBid : List (WatchAct Act Uuid LiveAct) :=
  ((cameraBid (.ofNumber (.fin 25))).drop 3 ++ List.replicate 2 (Act.bidStep 100 false)).map .core

/-- The bid comes to a client that has subscribed. -/
theorem live_relays_camera : ∃ (w : Watched Sys LiveClient) (c : LiveClient) (queue : List Payload),
    w.observers[0]? = some c ∧ c.pc = .listen queue ∧ queue.map (·.sequenceNum) = [1] ∧
    Relayed w.core c queue ∧ ∃ w' c', Reach live.next (fun _ act _ => act = .own 0 .next) w w' ∧
      w'.observers[0]? = some c' ∧ Relayed w.core c' [] := by
  obtain ⟨w, hw, hp⟩ := exists_reach live.next (fun w act _ => unmissed 5 w act = true)
    (newCamera ++ [.join 5, .own 0 .next, .own 0 .next, .own 0 .next] ++ publishedBid)
    (s := ⟨.initial 1000000000 [1, 7], []⟩)
    (p := fun w => w.observers[0]?.any fun (c : LiveClient) => decide (c.auctionId = 5) &&
      match c.pc with
      | .listen queue => decide (queue.map (·.sequenceNum) = [1])
      | _ => false) (by decide +kernel)
  obtain ⟨c, hk, hp⟩ := (Option.any_eq_true _ _).mp hp
  obtain ⟨hauction, hp⟩ := Bool.and_eq_true_iff.mp hp
  split at hp
  · exact ⟨w, c, _, hk, ‹_›, of_decide_eq_true hp,
      live_relays hw hk (of_decide_eq_true hauction) ‹_›⟩
  · cases hp

/-- **The gap**: a client reads the sequence number `0`, the bid is accepted and published, and the
client subscribes; the bid is never sent to it. -/
theorem camera_bid_missed : ∃ (w : Watched Sys LiveClient) (c : LiveClient),
    Reach live.next (fun _ _ _ => True) ⟨.initial 1000000000 [1, 7], []⟩ w ∧
    w.observers[0]? = some c ∧ c.auctionId = 5 ∧ c.pc = .listen [] ∧
    c.sent.map (·.sequenceNum) = [0] ∧ (w.core.redis.fanout 5).map (·.sequenceNum) = [1] ∧
    (w.core.accepted 5).map (·.seq) = [1] ∧ ¬ Relayed w.core c [] := by
  obtain ⟨w, hw, hp⟩ := exists_reach live.next (fun _ _ _ => True)
    (newCamera ++ [.join 5, .own 0 .next] ++ publishedBid ++ [.own 0 .next, .own 0 .next])
    (s := ⟨.initial 1000000000 [1, 7], []⟩)
    (p := fun w => w.observers[0]?.any fun c => c.auctionId = 5 ∧ c.pc = .listen [] ∧
      c.sent.map (·.sequenceNum) = [0] ∧ (w.core.redis.fanout 5).map (·.sequenceNum) = [1] ∧
      (w.core.accepted 5).map (·.seq) = [1]) (by decide +kernel)
  obtain ⟨c, hk, hp⟩ := (Option.any_eq_true _ _).mp hp
  obtain ⟨hauction, hpc, hsent, hfanout, haccepted⟩ := of_decide_eq_true hp
  refine ⟨w, c, hw, hk, hauction, hpc, hsent, hfanout, haccepted, ?_⟩
  intro hrelayed
  obtain ⟨initial, hinitial, hzero⟩ := List.map_eq_singleton_iff.mp hsent
  obtain ⟨p, hp, hone⟩ := List.map_eq_singleton_iff.mp hfanout
  have hfirst : c.sent.head? = some initial := by rw [hinitial]; rfl
  have hpublished : p ∈ w.core.redis.fanout c.auctionId := by
    rw [hauction, hp]
    exact List.mem_singleton_self p
  have hmem := hrelayed.mem_sent hfirst hpublished (by omega)
  rw [hinitial, List.mem_singleton] at hmem
  have hseq : p.sequenceNum = initial.sequenceNum := congrArg Frame.sequenceNum hmem
  omega

end OnlineAuction.System
