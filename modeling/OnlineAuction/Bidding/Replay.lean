import OnlineAuction.Bidding.ScriptRuns

/-!
# A bid sent again

The dedup key of a bid keeps the outcome of its first execution, and a replay answers from it. Of
an acceptance the key keeps only that there was one: price and sequence number of a replayed
acceptance are those the hash has by then.

## What is proved

* `key_run` — the first execution installs the key, and every run that does not let it expire
  keeps it.
* `progress_run` — the sequence number counts the acceptances after the first execution; without
  one, price and sequence number stay.
* `replay_same_iff` — a replay changes nothing, and answers as the first execution did exactly when
  that was a rejection or no other bid was accepted since.
-/

namespace OnlineAuction.Bidding

open OnlineAuction.Foundation OnlineAuction.Store OnlineAuction.Lifecycle

/-- The status a reply tells. -/
def Reply.status : Reply → BidStatus
  | .accepted _ _ _ => .accepted
  | .replayed _ _ => .accepted
  | .rejected reason => .rejected reason

/-- What a reply tells of a bid: its status, with the reason of a rejection, and for an acceptance
the price and the sequence number. -/
def Reply.told : Reply → BidStatus × Option DecStr × Option ℕ
  | .accepted price seq _ => (.accepted, some price, some seq)
  | .replayed price seq => (.accepted, price, seq)
  | .rejected reason => (.rejected reason, none, none)

/-- An action lets the dedup key of the bid live: another may expire. -/
def KeepsKey (bidId : Uuid) : ScriptAct → Prop
  | .run argv => 0 < argv.ttl
  | .close _ => True
  | .expire b => b ≠ bidId

instance (bidId : Uuid) (a : ScriptAct) : Decidable (KeepsKey bidId a) := by
  cases a <;> unfold KeepsKey <;> infer_instance

section Key

variable {R : Rounding} {auctionId : Uuid}

theorem mark_key {r : Redis} {argv : Argv} {status : BidStatus} {reply answer : Reply}
    (hstatus : reply.status = status) (h : (markAndReturn r argv status reply).2 = .ok answer) :
    (markAndReturn r argv status reply).1.bidResult argv.bidId = some answer.status := by
  unfold markAndReturn at h ⊢
  split_ifs at h ⊢
  cases h
  rw [hstatus]
  exact Function.update_self _ _ _

/-- **The key is installed**: after a run that answers, it holds the status of the answer. -/
theorem placeBidLua_key {argv : Argv} {r : Redis} {answer : Reply}
    (h : (placeBidLua R auctionId argv r).2 = .ok answer) :
    (placeBidLua R auctionId argv r).1.bidResult argv.bidId = some answer.status := by
  unfold placeBidLua at h ⊢
  cases hres : r.bidResult argv.bidId with
  | some status =>
    cases status with
    | accepted => simp only [hres] at h ⊢; cases h; rfl
    | rejected reason => simp only [hres] at h ⊢; cases h; rfl
  | none =>
    simp only [hres] at h ⊢
    by_cases hstate : r.hget auctionId (·.state) = some .active
    · rw [if_neg (not_not.mpr hstate)] at h ⊢
      cases hend : r.hget auctionId (·.endTs) with
      | none => simp only [hend] at h; cases h
      | some endTs =>
        simp only [hend] at h ⊢
        by_cases htime : endTs ≤ argv.nowTs
        · rw [if_pos htime] at h ⊢
          exact mark_key rfl h
        · rw [if_neg htime] at h ⊢
          cases hinc : r.hget auctionId (·.minIncrement) with
          | none => simp only [hinc] at h; cases h
          | some inc =>
            simp only [hinc] at h ⊢
            split_ifs at h ⊢
            · exact mark_key rfl h
            · exact mark_key rfl h
            · exact mark_key rfl h
    · rw [if_pos hstate] at h ⊢
      exact mark_key rfl h

/-- **A replay changes nothing**, and answers from the key and the hash. -/
theorem placeBidLua_replay {argv : Argv} {r : Redis} {status : BidStatus}
    (hkey : r.bidResult argv.bidId = some status) :
    placeBidLua R auctionId argv r = (r, .ok (match status with
      | .accepted => .replayed (r.hget auctionId (·.highestBid)) (r.hget auctionId (·.sequenceNum))
      | .rejected reason => .rejected reason)) := by
  cases status <;> simp only [placeBidLua, hkey]

theorem key_step {bidId : Uuid} {status : BidStatus} {s t : ScriptState} {a : ScriptAct}
    (hkey : s.redis.bidResult bidId = some status) (hstep : scriptStep R auctionId s a = some t)
    (hok : KeepsKey bidId a) : t.redis.bidResult bidId = some status := by
  cases a with
  | run argv =>
    cases hstep
    by_cases hb : bidId = argv.bidId
    · subst hb
      show (placeBidLua R auctionId argv s.redis).1.bidResult argv.bidId = _
      rw [placeBidLua_replay hkey]
      exact hkey
    · exact (placeBidLua_bidResult_of_ne hok hb).trans hkey
  | close state =>
    simp only [scriptStep] at hstep
    split_ifs at hstep
    cases hstep
    exact hkey
  | expire b =>
    cases hstep
    exact (Function.update_of_ne (Ne.symm hok) _ _).trans hkey

/-- **The key stays** in every run that does not let it expire. -/
theorem key_run {bidId : Uuid} {status : BidStatus} {s t : ScriptState}
    (hkey : s.redis.bidResult bidId = some status)
    (hrun : Reach (scriptStep R auctionId) (fun _ a _ => KeepsKey bidId a) s t) :
    t.redis.bidResult bidId = some status :=
  hrun.invariant (fun hs hstep hok => key_step hs hstep hok) hkey

/-! ### After an acceptance -/

/-- What happened to the auction since an acceptance was answered `price` and `seq`, with the
history `acc`: the sequence number counts the acceptances since, and without one the highest bid is
still the price. -/
structure Progress (auctionId : Uuid) (acc : List Accept) (price : DecStr) (seq : ℕ)
    (t : ScriptState) (since : List Accept) : Prop where
  /-- The history has grown. -/
  log : t.accepted = acc ++ since
  /-- The sequence number. -/
  sequenceNum : t.redis.hget auctionId (·.sequenceNum) = some (seq + since.length)
  /-- The price. -/
  highestBid : since = [] → t.redis.hget auctionId (·.highestBid) = some price

theorem progress_step {acc : List Accept} {price : DecStr} {seq : ℕ} {s t : ScriptState}
    {a : ScriptAct} {since : List Accept} (hs : Progress auctionId acc price seq s since)
    (httl : ∀ argv, a = .run argv → 0 < argv.ttl) (hstep : scriptStep R auctionId s a = some t) :
    ∃ since', Progress auctionId acc price seq t since' := by
  obtain ⟨h, hh, hseq⟩ := Option.bind_eq_some_iff.mp hs.sequenceNum
  have hbid := hs.highestBid
  rw [hget_of_hash hh] at hbid
  cases scriptStep_cases hh httl hstep with
  | @booked argv hact hadm hash log =>
    refine ⟨since ++ [⟨argv, argv.amount, h.sequenceNum.getD 0 + 1⟩], ?_, ?_, ?_⟩
    · rw [log, hs.log, List.append_assoc]
    · rw [hget_of_hash hash, List.length_append]
      show some (h.sequenceNum.getD 0 + 1) = _
      rw [hseq]
      rfl
    · intro hnil
      simp at hnil
  | kept hash log =>
    exact ⟨since, log.trans hs.log, by rw [hget_of_hash hash, hseq], by rwa [hget_of_hash hash]⟩
  | closed hash log =>
    refine ⟨since, log.trans hs.log, ?_, ?_⟩
    · rw [hget_of_hash hash]
      exact hseq
    · rw [hget_of_hash hash]
      exact hbid

theorem progress_run {bidId : Uuid} {acc : List Accept} {price : DecStr} {seq : ℕ}
    {s t : ScriptState} (hs : Progress auctionId acc price seq s [])
    (hrun : Reach (scriptStep R auctionId) (fun _ a _ => KeepsKey bidId a) s t) :
    ∃ since, Progress auctionId acc price seq t since := by
  apply hrun.invariant (I := fun t => ∃ since, Progress auctionId acc price seq t since) ?_ ⟨[], hs⟩
  rintro s a t ⟨since, hs⟩ hstep hok
  exact progress_step hs (by rintro argv rfl; exact hok) hstep

/-- The acceptance itself. -/
theorem progress_init {argv : Argv} {r : Redis} {price : DecStr} {seq : ℕ} {endTs : Option ℤ}
    (httl : 0 < argv.ttl) (h : (placeBidLua R auctionId argv r).2 = .ok (.accepted price seq endTs))
    (acc : List Accept) :
    Progress auctionId acc price seq ⟨(placeBidLua R auctionId argv r).1, acc⟩ [] := by
  rcases placeBidLua_cases R auctionId r httl with ⟨h₀, hA, hrep⟩ | hD
  · rw [h] at hrep
    cases hrep
    have hhash : (placeBidLua R auctionId argv r).1.hash auctionId = some (bookBid argv h₀) := by
      rw [hA.left, Redis.setResult_hash, Redis.hset_hash_self, hA.hash]
      rfl
    exact ⟨(List.append_nil acc).symm, hget_of_hash hhash _, fun _ => hget_of_hash hhash _⟩
  · exact absurd h (hD.reply _ _ _)

end Key

/-- **When a replay tells the same**: a bid is executed for the first time, anything happens to the
auction while the dedup key lives, and the same bid id is sent again. The replay leaves Redis as it
is, and it tells what the first execution told exactly when that was a rejection or no bid was
accepted on the auction since. -/
theorem replay_same_iff {R : Rounding} {auctionId : Uuid} {argv : Argv} {s : ScriptState}
    {first : Reply} (httl : 0 < argv.ttl) (hfresh : s.redis.bidResult argv.bidId = none)
    (hfirst : (placeBidLua R auctionId argv s.redis).2 = .ok first) {s' t : ScriptState}
    (hs' : scriptStep R auctionId s (.run argv) = some s')
    (hrun : Reach (scriptStep R auctionId) (fun _ a _ => KeepsKey argv.bidId a) s' t)
    {again : Argv} (hsame : again.bidId = argv.bidId) :
    (placeBidLua R auctionId again t.redis).1 = t.redis ∧
      ∃ answer, (placeBidLua R auctionId again t.redis).2 = .ok answer ∧
        (answer.told = first.told ↔ first.status ≠ .accepted ∨ t.accepted = s'.accepted) := by
  cases hs'
  have hkey := key_run (placeBidLua_key hfirst) hrun
  rw [placeBidLua_replay (hsame ▸ hkey)]
  refine ⟨rfl, _, rfl, ?_⟩
  cases first with
  | rejected reason => exact iff_of_true rfl (Or.inl (by simp [Reply.status]))
  | replayed price seq =>
    exfalso
    rcases placeBidLua_cases R auctionId s.redis httl with ⟨h, -, hrep⟩ | hD
    · rw [hfirst] at hrep
      cases hrep
    · exact hD.fresh hfresh price seq hfirst
  | accepted price seq endTs =>
    obtain ⟨since, hp⟩ := progress_run (progress_init httl hfirst _) hrun
    have hnew : t.accepted = logReply argv (placeBidLua R auctionId argv s.redis).2 s.accepted ↔
        since = [] := by rw [hp.log, List.append_right_eq_self]
    simp only [Reply.status, Reply.told, ne_eq, not_true_eq_false, false_or, hnew, hp.sequenceNum,
      Prod.mk.injEq, true_and, Option.some.injEq]
    constructor
    · rintro ⟨-, hlen⟩
      exact List.eq_nil_of_length_eq_zero (by omega)
    · intro hnil
      exact ⟨hp.highestBid hnil, by rw [hnil]; rfl⟩

/-! ### Runs -/

/-- The bid `1` of `25.00`. -/
def firstBid : Argv := ⟨1, 7, .dec 2500, 1000, 3600⟩

/-- The camera's auction is open. -/
def openCamera : ScriptState := .init .empty 5 cameraRow

/-- A bid on the camera that is sent again after the close tells the same. -/
theorem replay_same_camera : ∃ t : ScriptState,
    (placeBidLua double 5 firstBid t.redis).1 = t.redis ∧
      ∃ answer, (placeBidLua double 5 firstBid t.redis).2 = .ok answer ∧
        answer.told = (.accepted, some (.dec 2500), some 1) := by
  have hrun : (scriptStep double 5 openCamera (.run firstBid)).any (fun s' =>
      (runIf (scriptStep double 5) (fun _ a _ => KeepsKey 1 a)
        [.run firstBid, .close .sold, .run firstBid] s').any fun t => t.accepted = s'.accepted) =
      true := by decide +kernel
  obtain ⟨s', hs', hp⟩ := (Option.any_eq_true _ _).mp hrun
  obtain ⟨t, ht, hlog⟩ := exists_reach _ _ _ hp
  have hfirst : (placeBidLua double 5 firstBid openCamera.redis).2 =
      .ok (.accepted (.dec 2500) 1 (some 1060)) := by decide +kernel
  obtain ⟨hsame, answer, hanswer, hiff⟩ :=
    replay_same_iff (show 0 < firstBid.ttl by decide) (by decide +kernel) hfirst hs' ht rfl
  exact ⟨t, hsame, answer, hanswer, hiff.mpr (Or.inr (of_decide_eq_true hlog))⟩

/-- **A replay tells something else**: the bid `1` of `25.00` is accepted with the number 1, the bid
`2` of `30.00` with the number 2, and the bid `1` is sent again. -/
theorem camera_replay_differs : ∃ s' t : ScriptState,
    (openCamera.redis.bidResult 1 = none ∧ scriptStep double 5 openCamera (.run firstBid) = some s' ∧
      Reach (scriptStep double 5) (fun _ a _ => KeepsKey 1 a) s' t) ∧
    (placeBidLua double 5 firstBid openCamera.redis).2.toOption.map Reply.told =
      some (.accepted, some (.dec 2500), some 1) ∧
    (placeBidLua double 5 firstBid t.redis).2.toOption.map Reply.told =
      some (.accepted, some (.dec 3000), some 2) := by
  have hrun : (scriptStep double 5 openCamera (.run firstBid)).any (fun s' =>
      (runIf (scriptStep double 5) (fun _ a _ => KeepsKey 1 a)
        [.run ⟨2, 8, .dec 3000, 1000, 3600⟩] s').any fun t =>
          (placeBidLua double 5 firstBid t.redis).2.toOption.map Reply.told =
            some (.accepted, some (.dec 3000), some 2)) = true := by decide +kernel
  obtain ⟨s', hs', hp⟩ := (Option.any_eq_true _ _).mp hrun
  obtain ⟨t, ht, htold⟩ := exists_reach _ _ _ hp
  exact ⟨s', t, ⟨by decide +kernel, hs', ht⟩, by decide +kernel, of_decide_eq_true htold⟩

end OnlineAuction.Bidding
