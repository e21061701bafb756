import OnlineAuction.Foundation.JsonObject
import OnlineAuction.System.Live
import OnlineAuction.System.Wire

/-!
# The frames as texts

What a watching client gets is text: `place_bid` writes a message as JSON and publishes it,
`auction_live` reads it and writes it again, in the style of the WebSocket, and its first frame it makes
of the texts of the hash. An exception on the way would close the connection, or be passed over and the
frame lost. Beside a Redis that holds texts (`Wire`) there is none.

## What is proved

* `initialText_encode` — the first frame that is made of the texts of a hash is that of the hash.
* `live_text_refines` — in every run the texts that a client was sent are those of the frames of a
  client of `Live` in a run of the same service, and each is read as its frame.

## Honest scope

The mask of a bidder is any function of his text, and the style of the WebSocket any that writes JSON
(`Socket`). Only `place_bid` publishes. Clients ask for auctions by UUIDs.
-/

namespace OnlineAuction.System

open OnlineAuction.Foundation OnlineAuction.Foundation.Json OnlineAuction.Store
open OnlineAuction.Lifecycle OnlineAuction.Bidding

/-- What the text of a frame depends on. -/
structure Socket where
  /-- `mask_bidder_id`. -/
  mask : Text → Text
  /-- How `send_json` writes. -/
  style : Style
  /-- How deep `json` recurses. -/
  limit : ℕ
  /-- Not at once too deep. -/
  limit_pos : 0 < limit

/-! ### The frames -/

/-- The members of a frame. -/
def frameMembers (sequenceNum : ℤ) (currentPrice highBidderMasked endTs : Text) : Members :=
  [("sequence_num".toList, .int sequenceNum), ("current_price".toList, .str currentPrice),
    ("high_bidder_masked".toList, .str highBidderMasked), ("end_ts".toList, .str endTs)]

namespace Socket

variable (W : Socket)

/-- The message that `place_bid` publishes. -/
def published (p : Payload) : Text :=
  dumpObject .default (frameMembers p.sequenceNum (priceText p.currentPrice)
    (W.mask (uuidText p.highBidder)) (intText p.endTs))

/-- What a client makes of a frame. -/
def members (f : Frame) : Members :=
  frameMembers f.sequenceNum (priceText f.currentPrice)
    (f.highBidder.elim [] fun b => W.mask (uuidText b)) (intText f.endTs)

/-- The text of a frame. -/
def frame (f : Frame) : Text := dumpObject W.style (W.members f)

/-- The first frame, from the fields of the hash; `none` when the sequence number is no number. -/
def initialText (data : Option Fields) : Option Members :=
  match data with
  | some fields =>
    let bidder := (fields HashField.highestBidder.text).getD []
    (pyInt pySpace 10 ((fields HashField.sequenceNum.text).getD "0".toList)).map fun n =>
      frameMembers n ((fields HashField.highestBid.text).getD "0.00".toList)
        (if bidder = [] then [] else W.mask bidder) ((fields HashField.endTs.text).getD "0".toList)
  | none => some (frameMembers 0 "0.00".toList [] "0".toList)

/-- A message is relayed; `none` when an exception is passed over. -/
def relay (text : Text) : Option Text := redump W.style W.limit text

end Socket

/-- What a connection of `auction_live` awaits. -/
inductive TextPc where
  /-- `redis.hgetall`. -/
  | snapshot
  /-- `websocket.send_json` of the first frame. -/
  | send (initial : Members)
  /-- `pubsub.subscribe`. -/
  | subscribe
  /-- The next message; these have come and are not relayed yet. -/
  | listen (queue : List Text)
  /-- Nothing more: it is closed. -/
  | closed
  deriving DecidableEq

/-- A connection of `auction_live`, with the texts that it sent. -/
structure TextClient where
  /-- The auction. -/
  auctionId : Uuid
  /-- The texts, in order. -/
  sent : List Text
  /-- What it awaits. -/
  pc : TextPc
  deriving DecidableEq

namespace Socket

variable (W : Socket)

/-- One command of `auction_live`. -/
def textStep (x : Sys × Keyspace) (c : TextClient) : LiveAct → Option TextClient
  | .next =>
    match c.pc with
    | .snapshot =>
      match Command.hgetall (auctionKey c.auctionId) x.2 with
      -- an exception ends the connection
      | .error _ => some { c with pc := .closed }
      | .ok (_, data) => some { c with pc := (W.initialText data).elim .closed .send }
    | .send initial => some { c with sent := c.sent ++ [dumpObject W.style initial], pc := .subscribe }
    | .subscribe => some { c with pc := .listen [] }
    | .listen (text :: queue) =>
      some { c with sent := c.sent ++ (W.relay text).toList, pc := .listen queue }
    | .listen [] | .closed => none
  | .disconnect => if c.pc = .closed then none else some { c with pc := .closed }

/-- What a step of the service does to a connection. -/
def hear (x : Sys × Keyspace) (act : Act) (y : Sys × Keyspace) (c : TextClient) : TextClient :=
  match act, c.pc with
  | .crash, _ => { c with pc := .closed }
  | _, .listen queue => { c with
      pc := .listen (queue ++ ((y.1.redis.fanout c.auctionId).drop
        (x.1.redis.fanout c.auctionId).length).map W.published) }
  | _, _ => c

/-- The service beside a Redis that holds texts, with its live connections. -/
def liveText : Watch (Sys × Keyspace) TextClient Act Uuid LiveAct where
  step := wireStep
  enter := fun a => ⟨a, [], .snapshot⟩
  hear := W.hear
  own := W.textStep

/-- Where a connection is, with texts. -/
def pcText : LivePc → TextPc
  | .snapshot => .snapshot
  | .send initial => .send (W.members initial)
  | .subscribe => .subscribe
  | .listen queue => .listen (queue.map W.published)
  | .closed => .closed

/-- A connection, with texts. -/
def clientText (c : LiveClient) : TextClient := ⟨c.auctionId, c.sent.map W.frame, W.pcText c.pc⟩

/-! ### One frame -/

/-- **The first frame** that is made of the texts of a hash is that of the hash. -/
theorem initialText_encode (data : Option AuctionHash) :
    W.initialText (encodeHash data) = some (W.members (initialFrame data)) := by
  cases data with
  | none => rfl
  | some h =>
    have hseq : ((encodeFields h.get) HashField.sequenceNum.text).getD "0".toList =
        intText (h.sequenceNum.getD 0) := by
      cases hn : h.sequenceNum <;> simp [AuctionHash.get, hn, intText]
    have hprice : ((encodeFields h.get) HashField.highestBid.text).getD "0.00".toList =
        (h.highestBid.getD (.dec 0)).text := by
      cases hb : h.highestBid <;> simp [AuctionHash.get, hb, DecStr.text]
    have hend : ((encodeFields h.get) HashField.endTs.text).getD "0".toList =
        intText (h.endTs.getD 0) := by
      cases he : h.endTs <;> simp [AuctionHash.get, he, intText]
    have hbidder : ((encodeFields h.get) HashField.highestBidder.text).getD [] =
        h.highestBidder.join.elim [] uuidText := by
      rcases hb : h.highestBidder with _ | _ | b <;> simp [AuctionHash.get, hb, bidderText]
    simp only [encodeHash, Option.map_some, initialText, hseq, hprice, hend, hbidder, pyInt_nat]
    refine congrArg (fun masked => some (frameMembers _ _ masked _)) ?_
    cases hb : h.highestBidder.join with
    | none => simp [initialFrame, hb]
    | some b => simp [initialFrame, hb, uuidText_ne_nil]

/-- The sequence number is not too long. -/
theorem fits_frameMembers {n : ℕ} (h : n ≤ 2 ^ 52) (currentPrice highBidderMasked endTs : Text) :
    Fits (frameMembers n currentPrice highBidderMasked endTs) := by
  have hlt : n < 10 ^ intMaxStrDigits :=
    calc n ≤ 2 ^ 52 := h
      _ < 10 ^ 16 := by norm_num
      _ ≤ 10 ^ intMaxStrDigits := Nat.pow_le_pow_right (by norm_num) (by decide)
  intro m hm k hk
  simp only [frameMembers, List.mem_cons, List.not_mem_nil, or_false] at hm
  rcases hm with rfl | rfl | rfl | rfl
  · obtain rfl := Scalar.int.inj hk
    exact length_intText hlt
  all_goals cases hk

/-- **A message is relayed** as its frame. -/
theorem relay_published {p : Payload} (h : p.sequenceNum ≤ 2 ^ 52) :
    W.relay (W.published p) = some (W.frame (.ofPayload p)) :=
  redump_dumpObject .default W.style W.limit_pos (fits_frameMembers h _ _ _)

/-- **A frame is read** by the client. -/
theorem loads_frame {f : Frame} (h : f.sequenceNum ≤ 2 ^ 52) :
    loads W.limit (W.frame f) = some (objectOf (W.members f)) :=
  loads_dumpObject W.style W.limit_pos (fits_frameMembers h _ _ _)

end Socket

/-! ### The numbers of messages -/

/-- What holds of the sequence numbers. -/
structure NumbersInv (s : Sys) : Prop where
  /-- The ids and numbers in the hashes. -/
  wire : WireInv s
  /-- The calls. -/
  calls : CallsInv s
  /-- What is published was accepted. -/
  publishes : PublishesAccepted s
  /-- Not too many bids are accepted. -/
  few : ∀ a, (s.accepted a).length ≤ 2 ^ 52
  /-- Their numbers. -/
  seqs : ∀ a, ∀ e ∈ s.accepted a, e.seq ≤ 2 ^ 52
  /-- The numbers of the messages. -/
  fanout : ∀ a, ∀ p ∈ s.redis.fanout a, p.sequenceNum ≤ 2 ^ 52

section Step

variable {s t : Sys} {act : Act}

theorem log_numbers_step (hs : NumbersInv s) (h : SysStep s act t) (hok : WireOk s act) (a : Uuid) :
    (t.accepted a).length ≤ 2 ^ 52 ∧ ∀ e ∈ t.accepted a, e.seq ≤ 2 ^ 52 := by
  cases h.hash a with
  | kept _ log | opened _ _ _ log | started _ _ _ log | closed _ _ _ _ _ log | lost _ _ log =>
    rw [log]
    exact ⟨hs.few a, hs.seqs a⟩
  | @booked b c endTs h hact src hpc hauction _ hfound _ _ log =>
    have hfew : (s.accepted a).length < 2 ^ 52 := by
      have hrun := hok.few (c, c.argv b endTs) (by rw [hact, scriptRun_of_evalsha src hpc]; rfl)
      exact hauction ▸ hrun
    have hseq := (hs.wire.hashes a h hfound).sequenceNum
    rw [log, List.length_append, List.length_singleton]
    refine ⟨hfew, fun e he => ?_⟩
    rcases List.mem_append.mp he with he | he
    · exact hs.seqs a e he
    · rw [List.mem_singleton.mp he]
      show h.sequenceNum.getD 0 + 1 ≤ 2 ^ 52
      omega

theorem fanout_numbers_step (hs : NumbersInv s) (h : SysStep s act t) {a : Uuid} {p : Payload}
    (hp : p ∈ t.redis.fanout a) : p.sequenceNum ≤ 2 ^ 52 := by
  cases h.fanout a with
  | kept fanout => exact hs.fanout a p (fanout ▸ hp)
  | published _ src hpc _ fanout =>
    rw [fanout] at hp
    rcases List.mem_append.mp hp with hp | hp
    · exact hs.fanout a p hp
    · rw [List.mem_singleton.mp hp]
      obtain ⟨e, he, -, hseq⟩ := hs.calls.accepted _ _ _ src (by rw [hpc]; rfl)
        (hs.publishes _ _ _ _ src hpc)
      exact hseq.symm.trans_le (hs.seqs _ e he)

theorem numbersInv_step (hs : NumbersInv s) (hstep : step s act = some t) (hok : WireOk s act) :
    NumbersInv t where
  wire := wireInv_step hs.wire hstep hok
  calls := callsInv_step hs.calls hstep
  publishes := publishesAccepted_step hs.publishes (step_cases hstep)
  few := fun a => (log_numbers_step hs (step_cases hstep) hok a).1
  seqs := fun a => (log_numbers_step hs (step_cases hstep) hok a).2
  fanout := fun _ _ => fanout_numbers_step hs (step_cases hstep)

end Step

theorem numbersInv_initial (now : ℤ) (users : List Uuid) : NumbersInv (.initial now users) where
  wire := wireInv_initial now users
  calls := callsInv_initial now users
  publishes := by simp [PublishesAccepted, Sys.initial]
  few := fun _ => Nat.zero_le _
  seqs := fun _ _ he => by cases he
  fanout := fun _ _ hp => by cases hp

/-- The first frame has a number that is not too long. -/
theorem NumbersInv.initialFrame {s : Sys} (hs : NumbersInv s) (a : Uuid) :
    (initialFrame (s.redis.hash a)).sequenceNum ≤ 2 ^ 52 := by
  cases hh : s.redis.hash a with
  | none => exact Nat.zero_le _
  | some h => exact (hs.wire.hashes a h hh).sequenceNum.trans (hs.few a)

/-! ### One connection -/

/-- What holds of a connection: it is for a UUID, and its numbers are not too long. -/
structure ClientOk (c : LiveClient) : Prop where
  /-- The auction. -/
  auctionId : IsUuid c.auctionId
  /-- The frames sent. -/
  sent : ∀ f ∈ c.sent, f.sequenceNum ≤ 2 ^ 52
  /-- The frame that it sends next. -/
  send : ∀ f, c.pc = .send f → f.sequenceNum ≤ 2 ^ 52
  /-- The messages that wait. -/
  queue : ∀ queue, c.pc = .listen queue → ∀ p ∈ queue, p.sequenceNum ≤ 2 ^ 52

namespace Socket

variable (W : Socket) {s t : Sys} {ks ks' : Keyspace} {c : LiveClient}

/-- What is published comes to a client as its text. -/
theorem hear_clientText (act : Act) :
    W.hear (s, ks) act (t, ks') (W.clientText c) = W.clientText (c.hear s act t) := by
  cases hpc : c.pc with
  | listen queue =>
    cases act <;> simp [hear, LiveClient.hear, clientText, pcText, hpc, List.map_append, List.map_drop]
  | _ => cases act <;> simp [hear, LiveClient.hear, clientText, pcText, hpc]

/-- **One command** of a connection with texts is that of the connection. -/
theorem textStep_clientText (hks : Encodes ks s.redis) (hc : ClientOk c) (act : LiveAct) :
    W.textStep (s, ks) (W.clientText c) act = (liveStep s c act).map W.clientText := by
  cases act with
  | disconnect =>
    cases hpc : c.pc <;> simp [textStep, liveStep, clientText, pcText, hpc]
  | next =>
    cases hpc : c.pc with
    | snapshot =>
      have hread := hks.hgetall hc.auctionId
      have hfields : (s.redis.hash c.auctionId).map (fun h => encodeFields h.get) =
          encodeHash (s.redis.hash c.auctionId) := rfl
      rw [hfields] at hread
      simp [textStep, liveStep, clientText, pcText, hpc, hread, initialText_encode]
    | send initial => simp [textStep, liveStep, clientText, pcText, hpc, frame]
    | subscribe => simp [textStep, liveStep, clientText, pcText, hpc]
    | closed => simp [textStep, liveStep, clientText, pcText, hpc]
    | listen queue =>
      cases queue with
      | nil => simp [textStep, liveStep, clientText, pcText, hpc]
      | cons p queue =>
        have hrelay := W.relay_published (hc.queue _ hpc p List.mem_cons_self)
        simp [textStep, liveStep, clientText, pcText, hpc, hrelay]

end Socket

/-- **A connection** keeps its numbers when it moves. -/
theorem ClientOk.own {s : Sys} (hs : NumbersInv s) {c c' : LiveClient} (hc : ClientOk c) {act : LiveAct}
    (h : liveStep s c act = some c') : ClientOk c' := by
  cases act with
  | disconnect =>
    simp only [liveStep] at h
    split_ifs at h
    cases h
    exact ⟨hc.auctionId, hc.sent, by simp, by simp⟩
  | next =>
    simp only [liveStep] at h
    split at h
    · cases h
      refine ⟨hc.auctionId, hc.sent, ?_, by simp⟩
      rintro f ⟨⟩
      exact hs.initialFrame c.auctionId
    · rename_i initial hpc
      cases h
      refine ⟨hc.auctionId, fun f hf => ?_, by simp, by simp⟩
      rcases List.mem_append.mp hf with hf | hf
      · exact hc.sent f hf
      · exact List.mem_singleton.mp hf ▸ hc.send initial hpc
    · cases h
      exact ⟨hc.auctionId, hc.sent, by simp, by simp⟩
    · rename_i p queue hpc
      cases h
      refine ⟨hc.auctionId, fun f hf => ?_, by simp, ?_⟩
      · rcases List.mem_append.mp hf with hf | hf
        · exact hc.sent f hf
        · exact List.mem_singleton.mp hf ▸ hc.queue _ hpc p List.mem_cons_self
      · rintro queue' ⟨⟩ p' hp'
        exact hc.queue _ hpc p' (List.mem_cons_of_mem p hp')
    · cases h
    · cases h

/-- It keeps them when the service moves. -/
theorem ClientOk.hear {s t : Sys} (ht : NumbersInv t) {c : LiveClient} (hc : ClientOk c) (act : Act) :
    ClientOk (c.hear s act t) := by
  unfold LiveClient.hear
  split
  · exact ⟨hc.auctionId, hc.sent, by simp, by simp⟩
  · rename_i queue _ hpc
    refine ⟨hc.auctionId, hc.sent, by simp, ?_⟩
    rintro queue' ⟨⟩ p hp
    rcases List.mem_append.mp hp with hp | hp
    · exact hc.queue _ hpc p hp
    · exact ht.fanout c.auctionId p (List.mem_of_mem_drop hp)
  · exact hc

/-! ### Every run -/

/-- What is asked of a step of the service and of a new connection. -/
def LiveTextOk (x : Sys × Keyspace) : WatchAct Act Uuid LiveAct → Prop
  | .core act => WireOk x.1 act
  | .join a => IsUuid a
  | .own _ _ => True

instance (x : Sys × Keyspace) (act : WatchAct Act Uuid LiveAct) : Decidable (LiveTextOk x act) := by
  cases act <;> unfold LiveTextOk <;> infer_instance

/-- **The texts of the frames.** For every run of the service beside a Redis that holds texts, with any
connections, there is one of the service and its connections as `Live` has them: with the same state,
every connection with the texts of its frames, in order, and every text read as its frame. -/
theorem live_text_refines (W : Socket) {now : ℤ} {users : List Uuid}
    {w' : Watched (Sys × Keyspace) TextClient}
    (h : Reach W.liveText.next (fun w act _ => LiveTextOk w.core act)
      ⟨(.initial now users, fun _ => none), []⟩ w') :
    ∃ w, Reach live.next (fun _ _ _ => True) ⟨.initial now users, []⟩ w ∧ w'.core.1 = w.core ∧
      w'.observers = w.observers.map W.clientText ∧
      ∀ c ∈ w.observers, ∀ f ∈ c.sent, loads W.limit (W.frame f) = some (objectOf (W.members f)) := by
  have hsim := @Watch.simulates _ _ _ _ _ live _ _ W.liveText
    (fun x s => x.1 = s ∧ NumbersInv s ∧ Encodes x.2 s.redis) (fun _ c => ClientOk c) W.clientText
    LiveTextOk ?_ ?_ ?_ _ _ ⟨.initial now users, []⟩ h
    ⟨rfl, numbersInv_initial now users, encodes_empty⟩ rfl (by simp)
  · obtain ⟨w, hw, ⟨hcore, -, -⟩, hobservers, hclients⟩ := hsim
    exact ⟨w, hw, hcore, hobservers, fun c hc f hf => W.loads_frame ((hclients c hc).sent f hf)⟩
  · -- a step of the service
    rintro ⟨s, ks⟩ _ act y ⟨rfl, hs, hks⟩ hstep hok
    obtain ⟨t, ht, rfl⟩ := Option.map_eq_some_iff.mp hstep
    have hs' := numbersInv_step hs ht hok
    refine ⟨t, ht, ⟨rfl, hs', (wireStep_keeps hs.wire hks ht hok).2⟩, fun c hc => ?_⟩
    exact ⟨W.hear_clientText act, hc.hear hs' act⟩
  · -- a new connection
    rintro _ s a - hok
    exact ⟨rfl, hok, by simp [live], by simp [live], by simp [live]⟩
  · -- a command of a connection
    rintro ⟨s, ks⟩ _ c act c' ⟨rfl, hs, hks⟩ hc hstep
    rw [show W.liveText.own (s, ks) (W.clientText c) act = W.textStep (s, ks) (W.clientText c) act from
      rfl, W.textStep_clientText hks hc] at hstep
    obtain ⟨c₁, hc₁, rfl⟩ := Option.map_eq_some_iff.mp hstep
    exact ⟨c₁, hc₁, rfl, hc.own hs hc₁⟩

/-! ### Runs -/

/-- A browser, for a WebSocket that writes no blanks; bidders are masked by the last eight digits. -/
def browser : Socket where
  mask := fun text => text.drop 28
  style := .compact
  limit := 1
  limit_pos := Nat.one_pos

/-- It watches the camera, gets the first frame, and subscribes; the bid of `25.00` comes to it. -/
def watchCamera : List (WatchAct Act Uuid LiveAct) :=
  newCamera ++ .join 5 :: List.replicate 3 (.own 0 .next) ++ publishedBid ++ [.own 0 .next]

/-- What it is sent: the bidder `7` leads with `25.00`. -/
def cameraTexts : List Text :=
  [dumpObject .compact (frameMembers 0 "0.00".toList [] "1060".toList),
    dumpObject .compact (frameMembers 1 "25.00".toList "00000007".toList "1060".toList)]

theorem live_text_refines_camera : ∃ (w' : Watched (Sys × Keyspace) TextClient)
    (w : Watched Sys LiveClient), w'.observers.map (·.sent) = [cameraTexts] ∧
    Reach live.next (fun _ _ _ => True) ⟨.initial 1000000000 [1, 7], []⟩ w ∧
    w'.core.1 = w.core ∧ w'.observers = w.observers.map browser.clientText ∧
    ∀ c ∈ w.observers, ∀ f ∈ c.sent,
      loads browser.limit (browser.frame f) = some (objectOf (browser.members f)) := by
  obtain ⟨w', hw', hp⟩ := exists_reach browser.liveText.next
    (fun w act _ => LiveTextOk w.core act) watchCamera
    (s := ⟨(.initial 1000000000 [1, 7], fun _ => none), []⟩)
    (p := fun w' => w'.observers.map (·.sent) = [cameraTexts]) (by decide +kernel)
  obtain ⟨w, hrun, hcore, hobservers, hread⟩ := live_text_refines browser hw'
  exact ⟨w', w, of_decide_eq_true hp, hrun, hcore, hobservers, hread⟩

end OnlineAuction.System
