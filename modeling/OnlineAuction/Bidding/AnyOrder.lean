import OnlineAuction.Bidding.ScriptRuns
import OnlineAuction.Foundation.Contest

/-!
# The script on bids in any order

Several bids arrive at once and Redis runs their scripts one after the other, in an order that
nobody controls. In exact arithmetic the script does to price and leader of an open hash what an
offer does to a `Standing`, so what holds of the offers in every order holds of the bids.

## What is proved

* `stands_run` — the scripts of a list of bids, run in its order, make the offers of the list.
* `anyOrder_outcome` — in every order each bid ends below the highest bid plus the increment, and
  a bid that is high enough and an increment above all others ends as the highest, its bidder
  leading.
-/

namespace OnlineAuction.Bidding

open OnlineAuction.Foundation OnlineAuction.Store OnlineAuction.Lifecycle

/-- The script runs for every bid of a list, in its order. -/
def runAll (R : Rounding) (auctionId : Uuid) (bids : List Argv) (r : Redis) : Redis :=
  bids.foldl (fun r argv => (placeBidLua R auctionId argv r).1) r

/-- The amount of a bid in cents. -/
def Argv.cents (argv : Argv) : ℤ :=
  match argv.amount with
  | .dec c => c
  | _ => 0

/-- The offer a bid makes. -/
def Argv.offer (argv : Argv) : Uuid × ℤ := (argv.bidderId, argv.cents)

/-- A bid of exact cents before the end. -/
structure CentsOffer (endTs : ℤ) (argv : Argv) : Prop where
  /-- The amount is a number of cents. -/
  amount : argv.amount = .dec argv.cents
  /-- The auction has not ended. -/
  inTime : argv.nowTs < endTs
  /-- The time to live of its dedup key, as `place_bid` gives it. -/
  ttl : 0 < argv.ttl

/-- An open hash with an increment of `m` cents that stands at `s`. -/
structure Stands (h : AuctionHash) (endTs m : ℤ) (s : Standing Uuid ℤ) : Prop where
  /-- It is active. -/
  state : h.state = some .active
  /-- Its end. -/
  endTs : h.endTs = some endTs
  /-- Its increment. -/
  minIncrement : h.minIncrement = some (.dec m)
  /-- Its highest bid is the price. -/
  highestBid : h.highestBid = some (.dec s.price)
  /-- Its highest bidder is the leader. -/
  highestBidder : h.highestBidder.join = s.leader

/-- **The script makes an offer**: a bid that was not yet processed does to the hash what its offer
does to the standing, and touches no other dedup key. -/
theorem stands_bid {auctionId : Uuid} {argv : Argv} {r : Redis} {h : AuctionHash} {endTs m : ℤ}
    {s : Standing Uuid ℤ} (hh : r.hash auctionId = some h) (hs : Stands h endTs m s)
    (hfresh : r.bidResult argv.bidId = none) (hoffer : CentsOffer endTs argv) :
    ∃ h', (placeBidLua .exact auctionId argv r).1.hash auctionId = some h' ∧
      Stands h' endTs m (s.offer m argv.bidderId argv.cents) := by
  have hiff := admits_iff_exact hs.highestBid hs.highestBidder hs.minIncrement hoffer.amount
  have hopen : h.state = some .active ∧ ∃ e, h.endTs = some e ∧ argv.nowTs < e :=
    ⟨hs.state, endTs, hs.endTs, hoffer.inTime⟩
  by_cases hadm : Admits .exact h argv
  · rw [placeBidLua_of_admits hoffer.ttl hfresh hh hadm,
      Standing.offer_of_admits (hiff.mp hadm).2]
    refine ⟨bookBid argv h, ?_, hs.state, hs.endTs, hs.minIncrement, ?_, rfl⟩
    · rw [Redis.setResult_hash, Redis.hset_hash_self, hh]
      rfl
    · exact congrArg some hoffer.amount
  · rw [Standing.offer_of_not_admits fun h => hadm (hiff.mpr ⟨hopen, h⟩)]
    rcases placeBidLua_cases .exact auctionId r hoffer.ttl with ⟨h', hA, -⟩ | hD
    · obtain rfl := Option.some.inj (hh.symm.trans hA.hash)
      exact absurd hA.admits hadm
    · exact ⟨h, by rw [hD.hash, hh], hs⟩

/-- **The scripts of a list make its offers.** -/
theorem stands_run {auctionId : Uuid} {endTs m : ℤ} {bids : List Argv} {r : Redis} {h : AuctionHash}
    {s : Standing Uuid ℤ} (hh : r.hash auctionId = some h) (hs : Stands h endTs m s)
    (hnodup : (bids.map (·.bidId)).Nodup) (hfresh : ∀ b ∈ bids, r.bidResult b.bidId = none)
    (hoffers : ∀ b ∈ bids, CentsOffer endTs b) :
    ∃ h', (runAll .exact auctionId bids r).hash auctionId = some h' ∧
      Stands h' endTs m (s.run m (bids.map Argv.offer)) := by
  induction bids generalizing r h s with
  | nil => exact ⟨h, hh, hs⟩
  | cons argv bids ih =>
    rw [List.map_cons, List.nodup_cons] at hnodup
    have hoffer := hoffers argv List.mem_cons_self
    obtain ⟨h₁, hh₁, hs₁⟩ := stands_bid hh hs (hfresh argv List.mem_cons_self) hoffer
    apply ih hh₁ hs₁ hnodup.2
    · intro b hb
      have hne : b.bidId ≠ argv.bidId := fun heq => hnodup.1 (heq ▸ List.mem_map_of_mem hb)
      rw [placeBidLua_bidResult_of_ne hoffer.ttl hne]
      exact hfresh b (List.mem_cons_of_mem _ hb)
    · intro b hb
      exact hoffers b (List.mem_cons_of_mem _ hb)

/-- **The outcome does not depend on the order.** -/
theorem anyOrder_outcome {auctionId : Uuid} {r : Redis} {h : AuctionHash} {endTs price m : ℤ}
    (hh : r.hash auctionId = some h) (hstate : h.state = some .active)
    (hend : h.endTs = some endTs) (hbid : h.highestBid = some (.dec price))
    (hinc : h.minIncrement = some (.dec m)) (hm : 0 < m) {bids order : List Argv}
    (hnodup : (bids.map (·.bidId)).Nodup) (hfresh : ∀ b ∈ bids, r.bidResult b.bidId = none)
    (hoffers : ∀ b ∈ bids, CentsOffer endTs b) (horder : order.Perm bids) :
    ∃ h' final, (runAll .exact auctionId order r).hash auctionId = some h' ∧
      h'.highestBid = some (.dec final) ∧ (∀ b ∈ bids, b.cents < final + m) ∧
      ∀ top ∈ bids, price + m ≤ top.cents → (∀ b ∈ bids, b ≠ top → b.cents ≤ top.cents - m) →
        final = top.cents ∧ h'.highestBidder = some (some top.bidderId) := by
  have hs : Stands h endTs m ⟨price, h.highestBidder.join⟩ := ⟨hstate, hend, hinc, hbid, rfl⟩
  obtain ⟨h', hh', hs'⟩ := stands_run hh hs ((horder.map _).nodup_iff.mpr hnodup)
    (fun b hb => hfresh b (horder.mem_iff.mp hb)) fun b hb => hoffers b (horder.mem_iff.mp hb)
  refine ⟨h', _, hh', hs'.highestBid, ?_, ?_⟩
  · intro b hb
    have hmem : b.offer ∈ order.map Argv.offer := List.mem_map_of_mem (horder.mem_iff.mpr hb)
    exact Standing.lt_run hm _ hmem
  · intro top htop hhigh hothers
    have hperm : (order.map Argv.offer).Perm (top.offer :: (bids.erase top).map Argv.offer) :=
      (horder.trans (List.perm_cons_erase htop)).map Argv.offer
    have hrest : ∀ o ∈ (bids.erase top).map Argv.offer, o.2 + m ≤ top.cents := by
      intro o ho
      obtain ⟨b, hb, rfl⟩ := List.mem_map.mp ho
      obtain ⟨hne, hb⟩ := (List.Nodup.of_map _ hnodup).mem_erase_iff.mp hb
      have := hothers b hb hne
      exact show b.cents + m ≤ top.cents by omega
    have hrun := Standing.run_of_top hm (s := ⟨price, h.highestBidder.join⟩) hhigh hrest hperm
    refine ⟨by rw [hrun], ?_⟩
    have hleader := hs'.highestBidder
    rw [hrun] at hleader
    exact Option.join_eq_some_iff.mp hleader

/-! ### Runs -/

/-- Two bids at the same instant, of `25.00` by 7 and of `30.00` by 8. -/
def simultaneousBids : List Argv :=
  [⟨1, 7, .dec 2500, 1000, 3600⟩, ⟨2, 8, .dec 3000, 1000, 3600⟩]

/-- On the camera the higher of the two wins, though it is run first. -/
theorem anyOrder_outcome_camera : ∃ h' final,
    (runAll .exact 5 simultaneousBids.reverse
      (Redis.empty.hset 5 (initRedisHash cameraRow))).hash 5 = some h' ∧
      h'.highestBid = some (.dec final) ∧
      (∀ b ∈ simultaneousBids, b.cents < final + 100) ∧
      final = 3000 ∧ h'.highestBidder = some (some 8) := by
  obtain ⟨h', final, hh', hbid, hlow, htop⟩ := anyOrder_outcome (r := Redis.empty.hset 5
    (initRedisHash cameraRow)) (h := initRedisHash cameraRow {}) (m := 100)
    (Redis.hset_hash_self _ _ _) rfl rfl rfl
    (congrArg some (toDecimalStr_cents (by decide))) (by decide)
    (show (simultaneousBids.map (·.bidId)).Nodup by decide) (fun _ _ => rfl)
    (by
      intro b hb
      have hend : unixSeconds cameraRow.endTs = 1060 := by decide +kernel
      rw [hend]
      rcases List.mem_pair.mp hb with rfl | rfl <;> exact ⟨rfl, by decide, by decide⟩)
    (List.reverse_perm _)
  obtain ⟨hfinal, hbidder⟩ := htop ⟨2, 8, .dec 3000, 1000, 3600⟩ (by decide) (by decide) (by decide)
  exact ⟨h', final, hh', hbid, hlow, hfinal, hbidder⟩

end OnlineAuction.Bidding
