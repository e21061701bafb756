import OnlineAuction.Bidding.ScriptRuns
import OnlineAuction.Foundation.Journal

/-!
# The stream replayed

The stream `auction:{id}:bids` records what a call gives to the script, but for the time to live of
the dedup key, on which nothing depends. The script on an auction is a gate for the entries of its
stream: the state of the gate is the hash, with the bids accepted so far and their numbers.

## What is proved

* `script_offer` — the script on a bid that was not processed yet offers its entry to the gate.
* `replay_eq_run` — to run the script over a stream, from a hash and without dedup keys, is to offer
  the stream to the gate.
-/

namespace OnlineAuction.Bidding

open OnlineAuction.Foundation OnlineAuction.Store OnlineAuction.Lifecycle

/-- What an entry gives to the script, with a time to live. -/
def argvOf (ttl : ℤ) (e : StreamEntry) : Argv := ⟨e.bidId, e.bidderId, e.amount, e.clientTs, ttl⟩

/-- The accepted bids with their numbers. -/
def numbersOf (acc : List Accept) : List (Uuid × ℕ) := acc.map fun e => (e.argv.bidId, e.seq)

/-- The script as a gate. The time to live is any. -/
def scriptGate : Gate (AuctionHash × List (Uuid × ℕ)) StreamEntry Uuid where
  key := StreamEntry.bidId
  admits := fun s e => Admits double s.1 (argvOf 0 e)
  book := fun s e => (bookBid (argvOf 0 e) s.1, s.2 ++ [(e.bidId, s.1.sequenceNum.getD 0 + 1)])
  taken := fun s b => b ∈ s.2.map Prod.fst
  taken_book := by
    intro s i k
    rw [← Bool.decide_or, List.map_append, List.map_singleton]
    simp only [List.mem_append, List.mem_singleton]

/-- The checks do not depend on the time to live. -/
theorem admits_argvOf {R : Rounding} {h : AuctionHash} {e : StreamEntry} (ttl ttl' : ℤ) :
    Admits R h (argvOf ttl e) ↔ Admits R h (argvOf ttl' e) := by
  constructor <;>
  · rintro ⟨endTs, inc, hadm⟩
    exact ⟨endTs, inc, hadm.state, hadm.hasEnd, hadm.notEnded, hadm.hasIncrement, hadm.notSelf,
      hadm.enough⟩

/-- **The script makes an offer to the gate**, when its bid was not processed yet. -/
theorem script_offer {auctionId : Uuid} {e : StreamEntry} {ttl : ℤ} {r : Redis} {h : AuctionHash}
    (acc : List Accept) (httl : 0 < ttl) (hfresh : r.bidResult e.bidId = none)
    (hh : r.hash auctionId = some h) :
    ∃ h', (placeBidLua double auctionId (argvOf ttl e) r).1.hash auctionId = some h' ∧
      scriptGate.offer (h, numbersOf acc) e =
        (h', numbersOf
          (logReply (argvOf ttl e) (placeBidLua double auctionId (argvOf ttl e) r).2 acc)) := by
  by_cases hadm : Admits double h (argvOf ttl e)
  · have hoffer : scriptGate.admits (h, numbersOf acc) e = true :=
      decide_eq_true ((admits_argvOf ttl 0).mp hadm)
    rw [placeBidLua_of_admits httl hfresh hh hadm, Gate.offer_of_admits hoffer]
    refine ⟨bookBid (argvOf ttl e) h, ?_, ?_⟩
    · rw [Redis.setResult_hash, Redis.hset_hash_self, hh]
      rfl
    · simp only [logReply, numbersOf, List.map_append, List.map_singleton]
      rfl
  · have hoffer : scriptGate.admits (h, numbersOf acc) e = false :=
      decide_eq_false fun h => hadm ((admits_argvOf 0 ttl).mp h)
    rw [Gate.offer_of_rejects hoffer]
    rcases placeBidLua_cases double auctionId r (show 0 < (argvOf ttl e).ttl from httl) with
      ⟨h', hA, -⟩ | hD
    · obtain rfl := Option.some.inj (hh.symm.trans hA.hash)
      exact absurd hA.admits hadm
    · exact ⟨h, (congrFun hD.hash auctionId).trans hh, by rw [hD.log]⟩

/-! ### The replay -/

/-- The script runs on an entry. -/
def replayEntry (auctionId : Uuid) (ttl : ℤ) (s : ScriptState) (e : StreamEntry) : ScriptState :=
  let out := placeBidLua double auctionId (argvOf ttl e) s.redis
  ⟨out.1, logReply (argvOf ttl e) out.2 s.accepted⟩

/-- Redis with one hash only. -/
def hashOnly (auctionId : Uuid) (h : AuctionHash) : Redis :=
  { Redis.empty with hash := Function.update Redis.empty.hash auctionId (some h) }

/-- The script runs over a stream, from a hash. -/
def replay (auctionId : Uuid) (ttl : ℤ) (h₀ : AuctionHash) (stream : List StreamEntry) :
    ScriptState :=
  stream.foldl (replayEntry auctionId ttl) ⟨hashOnly auctionId h₀, []⟩

theorem replay_from {auctionId : Uuid} {ttl : ℤ} (httl : 0 < ttl) {stream : List StreamEntry}
    {s : ScriptState} {h : AuctionHash} (hh : s.redis.hash auctionId = some h)
    (hnodup : (stream.map (·.bidId)).Nodup)
    (hfresh : ∀ e ∈ stream, s.redis.bidResult e.bidId = none) :
    ∃ h', (stream.foldl (replayEntry auctionId ttl) s).redis.hash auctionId = some h' ∧
      scriptGate.run (h, numbersOf s.accepted) stream =
        (h', numbersOf (stream.foldl (replayEntry auctionId ttl) s).accepted) := by
  induction stream generalizing s h with
  | nil => exact ⟨h, hh, rfl⟩
  | cons e stream ih =>
    rw [List.map_cons, List.nodup_cons] at hnodup
    obtain ⟨h₁, hh₁, hoffer⟩ := script_offer s.accepted httl (hfresh e List.mem_cons_self) hh
    rw [Gate.run_cons, hoffer, List.foldl_cons]
    refine ih (s := replayEntry auctionId ttl s e) hh₁ hnodup.2 ?_
    intro e' he'
    have hne : e'.bidId ≠ (argvOf ttl e).bidId := by
      intro heq
      apply hnodup.1
      rw [show e.bidId = e'.bidId from heq.symm]
      exact List.mem_map_of_mem he'
    exact (placeBidLua_bidResult_of_ne (show 0 < (argvOf ttl e).ttl from httl) hne).trans
      (hfresh e' (List.mem_cons_of_mem _ he'))

/-- **The replay runs the gate.** -/
theorem replay_eq_run {auctionId : Uuid} {ttl : ℤ} (httl : 0 < ttl) (h₀ : AuctionHash)
    {stream : List StreamEntry} (hnodup : (stream.map (·.bidId)).Nodup) :
    ∃ h, (replay auctionId ttl h₀ stream).redis.hash auctionId = some h ∧
      scriptGate.run (h₀, []) stream = (h, numbersOf (replay auctionId ttl h₀ stream).accepted) :=
  replay_from httl (s := ⟨hashOnly auctionId h₀, []⟩) (Function.update_self _ _ _) hnodup
    fun _ _ => rfl

end OnlineAuction.Bidding
