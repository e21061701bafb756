import OnlineAuction.System.Live

/-!
# The order of the frames of a WebSocket

`place_bid` publishes a bid two flushes after the script has numbered it, so two bids may be
published in the other order, and a bid that a first frame counts already may be published after the
subscription.

## What is proved

* `FrameOf` — every frame is that of an acceptance, or of no bid.
* `Ordered` and `ordered_hear`, `ordered_own` — what a connection has been sent and what waits for it
  is numbered in ascending order.
* `live_ascending` — in every run in which every message is newer than those published before it and
  than the first frames of the connections that get it, the hash is neither lost nor opened again
  after a bid, and no NaN is compared, the sequence numbers of a connection's frames ascend and their
  prices do not fall.
-/

namespace OnlineAuction.System

open OnlineAuction.Foundation OnlineAuction.Store OnlineAuction.Lifecycle OnlineAuction.Bidding

/-! ### The history and the channel -/

/-- The channel and the prices of the auction `a`. -/
structure RisingInv (s : Sys) (a : Uuid) : Prop where
  /-- The channel. -/
  channel : ChannelInv s a
  /-- An accepted call answers its own amount. -/
  known : PriceKnown s
  /-- The highest bid is the maximum. -/
  priced : Priced s a
  /-- A hash that was never opened has no highest bid. -/
  unopened : ∀ h, s.redis.hash a = some h → h.minIncrement = none → h.highestBid = none
  /-- The amounts accepted are prices. -/
  amounts : ∀ e ∈ s.accepted a, Price e.argv.amount
  /-- They do not fall. -/
  rising : (s.accepted a).Pairwise fun e e' => e.argv.amount.value ≤ e'.argv.amount.value
  /-- A message has the number and the amount of an acceptance. -/
  announced : ∀ p ∈ s.redis.fanout a, ∃ e ∈ s.accepted a, e.seq = p.sequenceNum ∧
    p.currentPrice = some e.argv.amount

/-- A step that runs the script on the auction `a` compares no NaN. -/
def nanFree (a : Uuid) (s : Sys) (act : Act) : Bool :=
  (scriptRun s act).all fun (c, _) => c.auctionId = a → comparesNan s act = false

/-- The amounts of the history rise with a step. -/
theorem rising_step {s t : Sys} {act : Act} {a : Uuid} (hs : RisingInv s a) (h : SysStep s act t)
    (hok : nanFree a s act = true) :
    (∀ e ∈ t.accepted a, Price e.argv.amount) ∧
      (t.accepted a).Pairwise fun e e' => e.argv.amount.value ≤ e'.argv.amount.value := by
  cases h.hash a with
  | @booked b c endTs h₀ hact src hpc hauction hfresh hfound hadmits hash log =>
    subst hact hauction
    rw [nanFree, scriptRun_of_evalsha src hpc, Option.all_some] at hok
    obtain ⟨d, hd⟩ : ∃ d, h₀.highestBid = some d := by
      obtain ⟨_, _, hadm⟩ := hadmits
      exact ⟨_, (hs.channel.follows.opened _ hfound
        (by rw [hadm.hasIncrement]; exact Option.some_ne_none _)).highestBid⟩
    obtain ⟨hle, hprice, -⟩ := rise_of_booked hs.channel.auctions hs.channel.calls hs.priced
      (of_decide_eq_true hok rfl) src hpc hfound hadmits hd
    rw [log]
    constructor
    · intro e he
      rcases List.mem_append.mp he with he | he
      · exact hs.amounts e he
      · rw [List.mem_singleton.mp he]
        exact hprice
    · refine List.pairwise_append.mpr ⟨hs.rising, List.pairwise_singleton _ _, ?_⟩
      intro e he e' he'
      rw [List.mem_singleton.mp he']
      exact Number.le_trans (hs.priced.maximum _ d hfound hd e he) hle
  | kept _ log | opened _ _ _ log | started _ _ _ log | closed _ _ _ _ _ log | lost _ _ log =>
    rw [log]
    exact ⟨hs.amounts, hs.rising⟩

/-- A message has the amount that was accepted. -/
theorem announced_step {s t : Sys} {act : Act} {a : Uuid} (hs : RisingInv s a)
    (h : SysStep s act t) {p : Payload} (hp : p ∈ t.redis.fanout a) :
    ∃ e ∈ t.accepted a, e.seq = p.sequenceNum ∧ p.currentPrice = some e.argv.amount := by
  have hold : p ∈ s.redis.fanout a →
      ∃ e ∈ t.accepted a, e.seq = p.sequenceNum ∧ p.currentPrice = some e.argv.amount := by
    intro hp
    obtain ⟨e, he, hof⟩ := hs.announced p hp
    exact ⟨e, (h.log a).subset he, hof⟩
  cases h.fanout a with
  | kept fanout => exact hold (fanout ▸ hp)
  | @published b c endTs verdict _ src hpc hauction fanout =>
    subst hauction
    rw [fanout] at hp
    rcases List.mem_append.mp hp with hp | hp
    · exact hold hp
    · rw [List.mem_singleton.mp hp]
      have hacc := hs.channel.accepted _ _ _ _ src hpc
      obtain ⟨e, he, hid, hseq⟩ := hs.channel.calls.accepted _ _ _ src (by rw [hpc]; rfl) hacc
      refine ⟨e, (h.log _).subset he, hseq, ?_⟩
      -- the acceptance is that of the call, whose price is its amount
      obtain ⟨c', hc', hof⟩ := hs.channel.calls.history _ e he
      rw [hid, src, Option.some.injEq] at hc'
      subst hc'
      rw [hof.amount]
      exact hs.known b c verdict src (by rw [hpc]; rfl) hacc

theorem risingInv_step {s t : Sys} {act : Act} {a : Uuid} (hs : RisingInv s a)
    (hstep : step s act = some t) (hkeeps : keepsHash a s act = true)
    (hok : nanFree a s act = true) : RisingInv t a where
  channel := channelInv_step hs.channel hstep hkeeps
  known := priceKnown_step hs.channel.calls hs.known (step_cases hstep)
  priced := by
    refine priced_step hs.channel.auctions hs.channel.calls hs.channel.follows hs.priced
      (step_cases hstep) ?_ ?_
    · rintro ⟨rfl, row, rest, dirty, hp⟩
      simpa [keepsHash, hp] using hkeeps
    · intro c argv hrun hauction
      rw [nanFree, hrun, Option.all_some] at hok
      exact of_decide_eq_true hok hauction
  unopened := by
    intro h hh hinc
    obtain ⟨-, ⟨-, hbid, -⟩ | ⟨h₀, hh₀, hinc₀, hbid, -⟩⟩ :=
      unopened_before (step_cases hstep) hh hinc
    · exact hbid
    · exact hbid.trans (hs.unopened h₀ hh₀ hinc₀)
  amounts := (rising_step hs (step_cases hstep) hok).1
  rising := (rising_step hs (step_cases hstep) hok).2
  announced := fun _ hp => announced_step hs (step_cases hstep) hp

theorem risingInv_initial (now : ℤ) (users : List Uuid) (a : Uuid) :
    RisingInv (.initial now users) a where
  channel := channelInv_initial now users a
  known := by simp [PriceKnown, Sys.initial]
  priced := priced_initial now users a
  unopened := fun _ hh => by cases hh
  amounts := by simp [Sys.initial]
  rising := List.Pairwise.nil
  announced := fun _ hp => by cases hp

/-- **A later number has no lower amount.** -/
theorem RisingInv.amount_le {s : Sys} {a : Uuid} (hs : RisingInv s a) {e e' : Accept}
    (he : e ∈ s.accepted a) (he' : e' ∈ s.accepted a) (hlt : e.seq < e'.seq) :
    e.argv.amount.value ≤ e'.argv.amount.value := by
  have hseq : (s.accepted a).Pairwise fun e e' => e.seq < e'.seq := by
    rw [← List.pairwise_map (f := Accept.seq), hs.channel.follows.numbered]
    exact List.pairwise_lt_range'
  -- an acceptance with a lower number does not come later
  exact List.Pairwise.forall_of_forall_of_flip
    (R := fun e e' => e.seq < e'.seq → e.argv.amount.value ≤ e'.argv.amount.value)
    (fun e _ h => absurd h (lt_irrefl _)) (hs.rising.imp fun {e e'} hle (_ : e.seq < e'.seq) => hle)
    (hseq.imp fun hlt h => absurd h (lt_asymm hlt)) he he' hlt

/-! ### Frames -/

/-- The price that a frame shows. -/
def Frame.price (f : Frame) : Number := (f.currentPrice.map DecStr.value).getD .nan

/-- A frame is that of an acceptance. -/
def FrameOf (s : Sys) (a : Uuid) (f : Frame) : Prop :=
  ∃ e ∈ s.accepted a, e.seq = f.sequenceNum ∧ f.currentPrice = some e.argv.amount

/-- A frame is that of an acceptance, or shows that there is none. -/
def FirstOf (s : Sys) (a : Uuid) (f : Frame) : Prop := f.currentPrice = some (.dec 0) ∨ FrameOf s a f

theorem FrameOf.kept {s t : Sys} {act : Act} {a : Uuid} {f : Frame} (h : SysStep s act t)
    (hf : FrameOf s a f) : FrameOf t a f := by
  obtain ⟨e, he, hof⟩ := hf
  exact ⟨e, (h.log a).subset he, hof⟩

/-- **The first frame** is that of the last acceptance. -/
theorem firstOf_initialFrame {s : Sys} {a : Uuid} (hs : RisingInv s a) :
    FirstOf s a (initialFrame (s.redis.hash a)) := by
  cases hh : s.redis.hash a with
  | none => exact Or.inl rfl
  | some h =>
    by_cases hinc : h.minIncrement = none
    · left
      simp only [initialFrame, hs.unopened h hh hinc, Option.getD_none]
    · have htr := hs.channel.follows.opened h hh hinc
      rcases List.eq_nil_or_concat (s.accepted a) with hnil | ⟨l, e, hl⟩
      · left
        simp only [initialFrame, htr.highestBid, hnil, Option.getD_some, List.getLast?_nil,
          Option.map_none, Option.getD_none]
      · right
        rw [List.concat_eq_append] at hl
        refine ⟨e, by rw [hl]; simp, ?_, ?_⟩
        · -- the last number is the length
          have hnum := congrArg List.getLast? htr.numbered
          rw [hl, List.map_append, List.length_append, List.length_singleton, List.range'_concat,
            List.map_singleton, List.getLast?_append, List.getLast?_append] at hnum
          simp only [List.getLast?_singleton, Option.some_or, Option.some.injEq] at hnum
          simp only [initialFrame, htr.sequenceNum, Option.getD_some, hnum, hl, List.length_append,
            List.length_singleton]
          omega
        · simp only [initialFrame, htr.highestBid, Option.getD_some, hl, List.getLast?_append,
            List.getLast?_singleton, Option.some_or, Option.map_some]

/-- **Prices follow numbers**: a later frame shows no lower price. -/
theorem price_le_of_seq {s : Sys} {a : Uuid} (hs : RisingInv s a) {f g : Frame}
    (hf : FirstOf s a f) (hg : FrameOf s a g) (hlt : f.sequenceNum < g.sequenceNum) :
    f.price ≤ g.price := by
  obtain ⟨e', he', hseq', hprice'⟩ := hg
  rw [Frame.price, Frame.price, hprice']
  rcases hf with hzero | ⟨e, he, hseq, hprice⟩
  · rw [hzero]
    rcases hs.amounts e' he' with heq | ⟨c, hc, heq⟩
    · rw [heq]
      rfl
    · rw [heq]
      refine Number.fin_le_fin.mpr ?_
      have hc' : (0 : ℚ) ≤ c := by exact_mod_cast hc
      push_cast
      linarith
  · rw [hprice]
    exact hs.amount_le he he' (by omega)

/-! ### Connections -/

/-- The frames of a connection: those that were sent, and those that will be sent next. -/
def LiveClient.frames (c : LiveClient) : List Frame :=
  match c.pc with
  | .send initial => c.sent ++ [initial]
  | .listen queue => c.sent ++ queue.map Frame.ofPayload
  | _ => c.sent

/-- A connection is subscribed. -/
def LiveClient.listens (c : LiveClient) : Bool :=
  match c.pc with
  | .listen _ => true
  | _ => false

/-- A step does not lose the hash of the auction `a`, nor opens it again, once a bid was accepted, and
compares no NaN on it; and what it publishes is newer than all that was published before, and than
the first frame of every connection that is subscribed. -/
def inOrder (a : Uuid) (w : Watched Sys LiveClient) : WatchAct Act Uuid LiveAct → Bool
  | .core act => keepsHash a w.core act && nanFree a w.core act &&
      (publishes w.core act).all fun (b, p) => b = a →
        (w.core.redis.fanout a).all (fun p' => p'.sequenceNum < p.sequenceNum) &&
        w.observers.all fun c => (c.auctionId = a ∧ c.listens) →
          c.frames.head?.all fun f => f.sequenceNum < p.sequenceNum
  | _ => true

/-- The frames of a connection are numbered in ascending order, and after the first one they are
messages. -/
structure Ordered (s : Sys) (c : LiveClient) : Prop where
  /-- Nothing is sent before the snapshot. -/
  fresh : c.pc = .snapshot → c.sent = []
  /-- The numbers ascend. -/
  ascending : c.frames.Pairwise fun f g => f.sequenceNum < g.sequenceNum
  /-- The first frame. -/
  first : ∀ f ∈ c.frames.head?, FirstOf s c.auctionId f
  /-- The others. -/
  relayed : ∀ f ∈ c.frames.tail, ∃ p ∈ s.redis.fanout c.auctionId, f = .ofPayload p

theorem LiveClient.sent_prefix (c : LiveClient) : c.sent <+: c.frames := by
  unfold frames
  split
  · exact List.prefix_append _ _
  · exact List.prefix_append _ _
  · exact List.prefix_refl _

/-- A connection that has a part of the frames of another. -/
theorem Ordered.of_prefix {s : Sys} {c c' : LiveClient} (hc : Ordered s c)
    (hauction : c'.auctionId = c.auctionId) (hframes : c'.frames <+: c.frames)
    (hfresh : c'.pc = .snapshot → c'.sent = []) : Ordered s c' where
  fresh := hfresh
  ascending := hc.ascending.sublist hframes.sublist
  first := by
    intro f hf
    rw [hauction]
    obtain ⟨rest, hrest⟩ := hframes
    refine hc.first f ?_
    rw [← hrest, List.head?_append, Option.mem_def.mp hf]
    rfl
  relayed := by
    intro f hf
    rw [hauction]
    obtain ⟨rest, hrest⟩ := hframes
    refine hc.relayed f ?_
    rw [← hrest]
    cases hc' : c'.frames with
    | nil =>
      rw [hc'] at hf
      cases hf
    | cons g tail =>
      rw [hc'] at hf
      exact List.mem_append_left rest hf

/-- The service moves, and the connection has the same frames. -/
theorem Ordered.core {s t : Sys} {act : Act} {c : LiveClient} (h : SysStep s act t)
    (hc : Ordered s c) : Ordered t c where
  fresh := hc.fresh
  ascending := hc.ascending
  first := fun f hf => (hc.first f hf).imp_right (FrameOf.kept h)
  relayed := by
    intro f hf
    obtain ⟨p, hp, rfl⟩ := hc.relayed f hf
    obtain ⟨new, hnew, -⟩ := (h.fanout c.auctionId).append
    exact ⟨p, by rw [hnew]; exact List.mem_append_left _ hp, rfl⟩

/-- A message that is newer than the first frame and than all messages is newer than all frames. -/
theorem Ordered.frames_lt {s : Sys} {c : LiveClient} (hc : Ordered s c) {p : Payload}
    (hfirst : ∀ f ∈ c.frames.head?, f.sequenceNum < p.sequenceNum)
    (hchannel : ∀ p' ∈ s.redis.fanout c.auctionId, p'.sequenceNum < p.sequenceNum) :
    ∀ f ∈ c.frames, f.sequenceNum < p.sequenceNum := by
  intro f hf
  have hrelayed := hc.relayed
  cases hframes : c.frames with
  | nil =>
    rw [hframes] at hf
    cases hf
  | cons g rest =>
    rw [hframes] at hf hfirst hrelayed
    rcases List.mem_cons.mp hf with rfl | hf
    · exact hfirst f rfl
    · obtain ⟨p', hp', rfl⟩ := hrelayed f hf
      exact hchannel p' hp'

/-- A newer message comes after the frames of a connection. -/
theorem Ordered.append {s : Sys} {c c' : LiveClient} (hc : Ordered s c)
    (hauction : c'.auctionId = c.auctionId) (hfresh : c'.pc ≠ .snapshot) {p : Payload}
    (hp : p ∈ s.redis.fanout c.auctionId) (hof : FrameOf s c.auctionId (.ofPayload p))
    (hframes : c'.frames = c.frames ++ [.ofPayload p])
    (hnewer : ∀ f ∈ c.frames, f.sequenceNum < p.sequenceNum) : Ordered s c' where
  fresh := fun h => absurd h hfresh
  ascending := by
    rw [hframes]
    refine List.pairwise_append.mpr ⟨hc.ascending, List.pairwise_singleton _ _, ?_⟩
    intro f hf g hg
    rw [List.mem_singleton.mp hg]
    exact hnewer f hf
  first := by
    rw [hframes, hauction]
    intro f hf
    cases hc₀ : c.frames with
    | nil =>
      rw [hc₀] at hf
      cases hf
      exact Or.inr hof
    | cons g rest =>
      rw [hc₀] at hf
      exact hc.first f (by rw [hc₀]; exact hf)
  relayed := by
    rw [hframes, hauction]
    intro f hf
    cases hc₀ : c.frames with
    | nil =>
      rw [hc₀] at hf
      cases hf
    | cons g rest =>
      rw [hc₀] at hf
      rcases List.mem_append.mp (show f ∈ rest ++ [.ofPayload p] from hf) with hf | hf
      · exact hc.relayed f (by rw [hc₀]; exact hf)
      · exact ⟨p, hp, List.mem_singleton.mp hf⟩

/-- **What a connection hears** keeps its frames in order. -/
theorem ordered_hear {s t : Sys} {act : Act} {c : LiveClient} (ht : RisingInv t c.auctionId)
    (h : SysStep s act t) (hc : Ordered s c)
    (hok : ∀ p, publishes s act = some (c.auctionId, p) →
      (∀ p' ∈ s.redis.fanout c.auctionId, p'.sequenceNum < p.sequenceNum) ∧
        (c.listens = true → ∀ f ∈ c.frames.head?, f.sequenceNum < p.sequenceNum)) :
    Ordered t (c.hear s act t) := by
  have hkept : Ordered t c := hc.core h
  by_cases hact : act = .crash
  · rw [hact, LiveClient.hear_crash]
    exact hkept.of_prefix rfl c.sent_prefix (by simp)
  rw [LiveClient.hear_of_ne hact]
  split
  · rename_i queue hpc
    have hframes : c.frames = c.sent ++ queue.map Frame.ofPayload := by
      simp only [LiveClient.frames, hpc]
    cases h.fanout c.auctionId with
    | kept fanout =>
      rw [fanout, List.drop_length, List.append_nil]
      refine hkept.of_prefix rfl ?_ (by simp)
      rw [hframes]
      exact List.prefix_refl _
    | @published b c₀ endTs verdict hact' src hpc₀ hauction fanout =>
      rw [fanout, List.drop_left]
      have hp : c₀.payload endTs verdict ∈ t.redis.fanout c.auctionId := by
        rw [fanout]
        exact List.mem_append_right _ (List.mem_singleton_self _)
      obtain ⟨hchannel, hfirst⟩ := hok (c₀.payload endTs verdict) (by
        rw [hact', ← hauction]
        simp only [publishes, src, Option.bind_some, hpc₀])
      refine hkept.append rfl (by simp) hp (ht.announced _ hp) ?_ ?_
      · simp only [LiveClient.frames, hpc, List.map_append, List.map_singleton, List.append_assoc]
      · exact hc.frames_lt (hfirst (by simp only [LiveClient.listens, hpc])) hchannel
  · exact hkept

/-- **What a connection does** keeps its frames in order. -/
theorem ordered_own {s : Sys} {c c' : LiveClient} {b : LiveAct} (hs : RisingInv s c.auctionId)
    (hc : Ordered s c) (hstep : liveStep s c b = some c') : Ordered s c' := by
  have hsame : c'.auctionId = c.auctionId := liveStep_auctionId hstep
  cases b with
  | disconnect =>
    simp only [liveStep] at hstep
    split_ifs at hstep
    cases hstep
    exact hc.of_prefix rfl c.sent_prefix (by simp)
  | next =>
    obtain ⟨a, sent, pc⟩ := c
    cases pc with
    | snapshot =>
      cases hstep
      obtain rfl : sent = [] := hc.fresh rfl
      refine ⟨by simp, List.pairwise_singleton _ _, ?_, by simp [LiveClient.frames]⟩
      intro f hf
      cases hf
      exact firstOf_initialFrame hs
    | send initial =>
      cases hstep
      exact hc.of_prefix rfl (List.prefix_refl _) (by simp)
    | subscribe =>
      cases hstep
      refine hc.of_prefix rfl ?_ (by simp)
      simp [LiveClient.frames]
    | listen queue =>
      cases queue with
      | nil => cases hstep
      | cons p queue =>
        cases hstep
        refine hc.of_prefix rfl ?_ (by simp)
        simp [LiveClient.frames]
    | closed => cases hstep

/-! ### Every run -/

/-- The prices of ordered frames do not fall. -/
theorem Ordered.prices {s : Sys} {c : LiveClient} (hs : RisingInv s c.auctionId)
    (hc : Ordered s c) : c.frames.Pairwise fun f g => f.price ≤ g.price := by
  have hall : ∀ f ∈ c.frames.tail, FrameOf s c.auctionId f := by
    intro f hf
    obtain ⟨p, hp, rfl⟩ := hc.relayed f hf
    exact hs.announced p hp
  have hasc := hc.ascending
  have hfirst := hc.first
  cases hframes : c.frames with
  | nil => exact List.Pairwise.nil
  | cons f rest =>
    rw [hframes] at hall hasc hfirst
    obtain ⟨hhead, hrest⟩ := List.pairwise_cons.mp hasc
    refine List.pairwise_cons.mpr ⟨?_, hrest.imp_of_mem ?_⟩
    · intro g hg
      exact price_le_of_seq hs (hfirst f rfl) (hall g hg) (hhead g hg)
    · intro g g' hg hg' hlt
      exact price_le_of_seq hs (Or.inr (hall g hg)) (hall g' hg') hlt

/-- **The frames of a connection ascend** in every run in which every message is newer than those
published before it and than the first frame of every subscribed connection, the hash is neither
lost nor opened again after a bid, and no NaN is compared: the sequence numbers of the frames sent are
strictly ascending, and their prices do not fall. -/
theorem live_ascending {now : ℤ} {users : List Uuid} {w : Watched Sys LiveClient} {a : Uuid}
    (hrun : Reach live.next (fun w act _ => inOrder a w act = true) ⟨.initial now users, []⟩ w)
    {c : LiveClient} (hc : c ∈ w.observers) (hauction : c.auctionId = a) :
    c.sent.Pairwise (fun f g => f.sequenceNum < g.sequenceNum) ∧
      c.sent.Pairwise fun f g => f.price ≤ g.price := by
  have hall := Watch.invariant (W := live) (I := fun s => RisingInv s a)
    (P := fun s c => c.auctionId = a → Ordered s c) ?_ ?_ ?_ hrun (risingInv_initial now users a)
    (by simp)
  · obtain ⟨hs, hclients⟩ := hall
    have hordered := hclients c hc hauction
    subst hauction
    exact ⟨hordered.ascending.sublist c.sent_prefix.sublist,
      (hordered.prices hs).sublist c.sent_prefix.sublist⟩
  · -- a step of the service
    rintro w act t hs hstep hok
    simp only [inOrder, Bool.and_eq_true] at hok
    obtain ⟨⟨hkeeps, hnan⟩, hpublished⟩ := hok
    have ht := risingInv_step hs hstep hkeeps hnan
    refine ⟨ht, ?_⟩
    intro c hc hordered hauction
    rw [show (live.hear w.core act t c).auctionId = c.auctionId from
      c.hear_auctionId w.core act t] at hauction
    subst hauction
    refine ordered_hear ht (step_cases hstep) (hordered rfl) ?_
    intro p hp
    rw [hp, Option.all_some, decide_eq_true_eq] at hpublished
    obtain ⟨hchannel, hfirst⟩ := hpublished rfl
    refine ⟨fun p' hp' => of_decide_eq_true (List.all_eq_true.mp hchannel p' hp'), ?_⟩
    intro hlistens f hf
    have := of_decide_eq_true (List.all_eq_true.mp hfirst c hc) ⟨rfl, hlistens⟩
    rw [Option.mem_def.mp hf, Option.all_some, decide_eq_true_eq] at this
    exact this
  · -- a new connection
    intro s b hs _
    exact ⟨fun _ => rfl, List.Pairwise.nil, by simp [live, LiveClient.frames],
      by simp [live, LiveClient.frames]⟩
  · -- a connection
    rintro w k b c c' w' hs hc - hstep - hauction
    rw [liveStep_auctionId hstep] at hauction
    subst hauction
    exact ordered_own hs (hc rfl) hstep

/-! ### Runs -/

/-- Two bids on the camera are accepted, the first of `25.00` and the second of `50.00`. -/
def twoAccepted : List Act :=
  (cameraBid (.ofNumber (.fin 25))).drop 3 ++
    .bid 101 5 8 { amount := .ofNumber (.fin 50) } :: List.replicate 3 (.bidStep 101 false)

/-- Each is flushed and published, in this order. -/
def publishTwo (b b' : Uuid) : List Act :=
  List.replicate 2 (.bidStep b false) ++ List.replicate 2 (.bidStep b' false)

/-- A client subscribes to the camera, which then gets the two bids; they are published in this order
and sent. -/
def watchTwo (b b' : Uuid) : List (WatchAct Act Uuid LiveAct) :=
  newCamera ++ .join 5 :: List.replicate 3 (.own 0 .next) ++
    (twoAccepted ++ publishTwo b b').map .core ++ List.replicate 2 (.own 0 .next)

/-- Published in the order of their acceptance, the frames ascend. -/
theorem live_ascending_camera : ∃ (w : Watched Sys LiveClient) (c : LiveClient),
    c ∈ w.observers ∧ c.sent.map (·.sequenceNum) = [0, 1, 2] ∧
    c.sent.Pairwise (fun f g => f.sequenceNum < g.sequenceNum) ∧
    c.sent.Pairwise fun f g => f.price ≤ g.price := by
  obtain ⟨w, hw, hp⟩ := exists_reach live.next (fun w act _ => inOrder 5 w act = true)
    (watchTwo 100 101) (s := ⟨.initial 1000000000 [1, 7, 8], []⟩)
    (p := fun w => w.observers[0]?.any fun (c : LiveClient) => c.auctionId = 5 ∧
      c.sent.map (·.sequenceNum) = [0, 1, 2]) (by decide +kernel)
  obtain ⟨c, hk, hp⟩ := (Option.any_eq_true _ _).mp hp
  obtain ⟨hauction, hsent⟩ := of_decide_eq_true hp
  have hc := List.mem_of_getElem? hk
  exact ⟨w, c, hc, hsent, live_ascending hw hc hauction⟩

/-- **An older price last**: the second bid is published before the first one, and the last frame that
the client is sent shows `25.00` after `50.00`. -/
theorem camera_older_last : ∃ (w : Watched Sys LiveClient) (c : LiveClient),
    Reach live.next (fun _ _ _ => True) ⟨.initial 1000000000 [1, 7, 8], []⟩ w ∧
    c ∈ w.observers ∧ c.sent.map (·.sequenceNum) = [0, 2, 1] ∧
    c.sent.map (·.currentPrice) = [some (.dec 0), some (.dec 5000), some (.dec 2500)] ∧
    ¬ c.sent.Pairwise (fun f g => f.sequenceNum < g.sequenceNum) ∧
    ¬ c.sent.Pairwise fun f g => f.price ≤ g.price := by
  obtain ⟨w, hw, hp⟩ := exists_reach live.next (fun _ _ _ => True) (watchTwo 101 100)
    (s := ⟨.initial 1000000000 [1, 7, 8], []⟩)
    (p := fun w => w.observers[0]?.any fun (c : LiveClient) =>
      c.sent.map (·.sequenceNum) = [0, 2, 1] ∧
      c.sent.map (·.currentPrice) = [some (.dec 0), some (.dec 5000), some (.dec 2500)] ∧
      ¬ c.sent.Pairwise (fun f g => f.sequenceNum < g.sequenceNum) ∧
      ¬ c.sent.Pairwise fun f g => f.price ≤ g.price) (by decide +kernel)
  obtain ⟨c, hk, hp⟩ := (Option.any_eq_true _ _).mp hp
  exact ⟨w, c, hw, List.mem_of_getElem? hk, of_decide_eq_true hp⟩

end OnlineAuction.System
