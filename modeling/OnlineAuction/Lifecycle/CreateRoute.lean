import OnlineAuction.Lifecycle.AuctionService
import Mathlib.Data.List.Infix

/-!
# The route that creates an auction

`POST /auctions` is `create_auction_route`: it maps a `ValueError` of `create_auction` to 404 or
400 and every other exception to nothing, so that it ends as an unhandled one. `get_session`
commits when the route has answered, and rolls back when it raises; what Redis was told before
stays.

## What is proved

* `strFits_iff` — which texts a column takes.
* `positivePrice_iff` and `reserveFits_iff` — which prices a column takes and keeps positive, and
  which reserve prices it takes.
* `insertAuction_isSome_iff` and `rowFits_iff` — which rows are taken, and which of them are shown
  with positive prices.
* `createsOrRefuses_iff` — the requests on which the route keeps its contract.

## Honest scope

The header is a UUID. Both stores are up, so no command raises but for what it is given. Whether a
NaN can be rendered in the answer is a matter of the framework, and a parameter.
-/

namespace OnlineAuction.Lifecycle

open OnlineAuction.Foundation OnlineAuction.Store

/-! ### The answer -/

/-- `AuctionResponse`. -/
structure AuctionResponse where
  /-- The key. -/
  auctionId : Uuid
  /-- The seller. -/
  sellerId : Uuid
  /-- The title. -/
  title : String
  /-- The category. -/
  category : String
  /-- The starting price. -/
  startingPrice : PyFloat
  /-- The reserve price, if there is one. -/
  reservePrice : Option PyFloat
  /-- The minimal increment. -/
  minIncrement : PyFloat
  /-- The state. -/
  state : AuctionState
  /-- When bidding starts. -/
  startTs : ℤ
  /-- When bidding ends. -/
  endTs : ℤ
  /-- When the row was made. -/
  createdAt : ℤ
  deriving DecidableEq

namespace AuctionResponse

/-- `AuctionResponse.model_validate`. -/
def modelValidate (auctionId : Uuid) (auction : Auction) : AuctionResponse where
  auctionId := auctionId
  sellerId := auction.sellerId
  title := auction.title
  category := auction.category
  startingPrice := .ofNumber auction.startingPrice.value
  reservePrice := auction.reservePrice.map fun d => .ofNumber d.value
  minIncrement := .ofNumber auction.minIncrement.value
  state := auction.state
  startTs := auction.startTs
  endTs := auction.endTs
  createdAt := auction.createdAt

/-- The answer is rendered as JSON, if the framework renders a NaN or there is none. -/
def renders (rendersNan : Bool) (body : AuctionResponse) : Bool :=
  rendersNan || ([body.startingPrice, body.minIncrement] ++ body.reservePrice.toList).all
    fun x => x.val ≠ .nan

end AuctionResponse

/-- How a request to create an auction ends. -/
inductive CreateAnswer where
  /-- 201, with the auction. -/
  | created (body : AuctionResponse)
  /-- An `HTTPException`. -/
  | httpError (statusCode : ℕ) (detail : String)
  /-- Any other exception. -/
  | unhandled
  deriving DecidableEq

/-- The text of a `ValueError`; the other exceptions are none. -/
def CreateError.valueError : CreateError → Option String
  | .sellerNotFound => some "seller not found"
  | .startTooFarInThePast => some "start_ts too far in the past"
  | .endNotAfterStart => some "end_ts must be after start_ts"
  | .naiveComparison => none
  | .refused => none

/-- `needle in text`. -/
def inText (needle text : String) : Bool := decide (needle.toList <:+: text.toList)

/-- What the route makes of an exception. -/
def mapError (e : CreateError) : CreateAnswer :=
  match e.valueError with
  | some detail => .httpError (if inText "not found" detail then 404 else 400) detail
  | none => .unhandled

theorem mapError_sellerNotFound :
    mapError .sellerNotFound = .httpError 404 "seller not found" := by decide +kernel

theorem mapError_startTooFarInThePast :
    mapError .startTooFarInThePast = .httpError 400 "start_ts too far in the past" := by
  decide +kernel

theorem mapError_endNotAfterStart :
    mapError .endNotAfterStart = .httpError 400 "end_ts must be after start_ts" := by
  decide +kernel

section Route

-- whether a NaN can be rendered in the answer
variable (rendersNan : Bool)

/-- `create_auction_route` and the end of its session. -/
def createAuctionRoute (pg : Pg) (redis : Redis) (sellerId auctionId : Uuid)
    (data : AuctionCreate) (nowUtc : ℤ) : CreateAnswer × Pg × Redis :=
  match createAuction pg.users sellerId data nowUtc with
  | .error e => (mapError e, pg, redis)
  | .ok auction =>
    let redis :=
      if auction.state = .active then redis.hset auctionId (initRedisHash auction) else redis
    let body := AuctionResponse.modelValidate auctionId auction
    if body.renders rendersNan then
      (.created body, pg.writeAuctions [(auctionId, auction)], redis)
    else (.unhandled, pg, redis)

/-! ### What it has to do -/

/-- The request has to be refused; a time without a time zone counts as it is written. -/
def MustRefuse (users : List Uuid) (sellerId : Uuid) (data : AuctionCreate) (nowUtc : ℤ) : Prop :=
  sellerId ∉ users ∨ data.startTs.micros < nowUtc - pastTolerance ∨
    data.endTs.micros ≤ data.startTs.micros

instance (users : List Uuid) (sellerId : Uuid) (data : AuctionCreate) (nowUtc : ℤ) :
    Decidable (MustRefuse users sellerId data nowUtc) := inferInstanceAs (Decidable (_ ∨ _ ∨ _))

/-- The answer is 400 or 404, and both stores are as they were. -/
def Refuses (pg : Pg) (redis : Redis) (out : CreateAnswer × Pg × Redis) : Prop :=
  (∃ statusCode detail, out.1 = .httpError statusCode detail ∧
    (statusCode = 400 ∨ statusCode = 404)) ∧ out.2 = (pg, redis)

/-- The answer is 201, and one row is committed, with its hash if it is active. -/
structure Creates (pg : Pg) (redis : Redis) (auctionId : Uuid) (data : AuctionCreate) (nowUtc : ℤ)
    (out : CreateAnswer × Pg × Redis) (auction : Auction) : Prop where
  /-- The answer shows the row. -/
  answered : out.1 = .created (.modelValidate auctionId auction)
  /-- The row is new, and the only change of the tables. -/
  row : pg.auction auctionId = none ∧
    out.2.1 = { pg with auction := Function.update pg.auction auctionId (some auction) }
  /-- It ends after it starts. -/
  lasts : auction.startTs < auction.endTs
  /-- The stored starting price is positive. -/
  starting : .fin 0 < auction.startingPrice.value
  /-- The stored increment is positive. -/
  increment : .fin 0 < auction.minIncrement.value
  /-- The auction is active exactly when its start has come. -/
  state : auction.state = .active ↔ data.startTs.micros ≤ nowUtc
  /-- The hash is opened exactly when the auction is active, and nothing else of Redis changes. -/
  hash : redis.hash auctionId = none ∧ out.2.2 = { redis with
    hash := Function.update redis.hash auctionId
      (if auction.state = .active then some (initRedisHash auction {}) else none) }

/-- A request is refused exactly when it has to be, and makes one auction otherwise. -/
def CreatesOrRefuses (pg : Pg) (redis : Redis) (sellerId auctionId : Uuid) (data : AuctionCreate)
    (nowUtc : ℤ) : Prop :=
  let out := createAuctionRoute rendersNan pg redis sellerId auctionId data nowUtc
  (Refuses pg redis out ↔ MustRefuse pg.users sellerId data nowUtc) ∧
    (Refuses pg redis out ∨ ∃ auction, Creates pg redis auctionId data nowUtc out auction)

/-! ### When it does -/

/-- A float that is stored as a positive price. -/
def PositivePrice (x : PyFloat) : Prop := ∃ q, x.val = .fin q ∧ 1 / 200 ≤ q ∧ q < 10 ^ 10 - 1 / 200

/-- A reserve price that is stored and rendered. -/
def ReserveFits (x : PyFloat) : Prop :=
  (x.val = .nan ∧ rendersNan = true) ∨ ∃ q, x.val = .fin q ∧ |q| < 10 ^ 10 - 1 / 200

/-- A new row is stored and rendered, with positive prices. -/
structure RowFits (data : AuctionCreate) : Prop where
  /-- The texts and the times. -/
  columns : columnsFit data = true
  /-- The starting price. -/
  starting : PositivePrice data.startingPrice
  /-- The increment. -/
  increment : PositivePrice data.minIncrement
  /-- The reserve price. -/
  reserve : ∀ r, data.reservePrice = some r → ReserveFits rendersNan r

end Route

/-! ### Texts and prices -/

/-- **What a text column takes**: the strings of the texts that fit. -/
theorem strFits_iff (width : Option ℕ) (s : PyStr) :
    strFits width s = true ↔
      ∃ text, s = PyStr.ofText text ∧ textFits width (String.ofList text) = true := by
  rw [strFits, Bool.and_eq_true, PyStr.isText_iff]
  constructor
  · rintro ⟨⟨text, rfl⟩, hfits⟩
    exact ⟨text, rfl, PyStr.text_ofText text ▸ hfits⟩
  · rintro ⟨text, rfl, hfits⟩
    exact ⟨⟨text, rfl⟩, (PyStr.text_ofText text).symm ▸ hfits⟩

/-- **Which prices stay positive**: those that are stored, from half a cent on. -/
theorem positivePrice_iff {x : PyFloat} (hx : notAtMostZero x) :
    PositivePrice x ↔ ∃ d, Numeric.ofNumber x.val = some d ∧ .fin 0 < d.value := by
  unfold PositivePrice
  constructor
  · rintro ⟨q, hq, hlow, hhigh⟩
    have hfits : (Numeric.ofNumber (.fin q)).isSome := by
      rw [Numeric.ofNumber_fin_isSome, abs_of_nonneg (by linarith)]
      exact hhigh
    obtain ⟨d, hd⟩ := Option.isSome_iff_exists.mp hfits
    refine ⟨d, by rw [hq]; exact hd, ?_⟩
    have hpos : 0 < roundAway (q * 100) := (roundAway_pos_iff (by linarith)).mpr (by linarith)
    rw [Numeric.ofNumber] at hd
    split_ifs at hd
    cases hd
    rw [Numeric.value, Number.fin_lt_fin]
    positivity
  · rintro ⟨d, hd, hpos⟩
    cases hval : x.val with
    | nan =>
      rw [hval] at hd
      cases hd
      exact absurd hpos (Number.not_lt_nan _)
    | negInf => rw [hval] at hd; cases hd
    | posInf => rw [hval] at hd; cases hd
    | fin q =>
      have hq : 0 < q := by
        rw [notAtMostZero, hval, Number.fin_le_fin, not_le] at hx
        exact hx
      rw [hval] at hd
      have hfits := (Numeric.ofNumber_fin_isSome q).mp (Option.isSome_iff_exists.mpr ⟨d, hd⟩)
      rw [abs_of_pos hq] at hfits
      rw [Numeric.ofNumber] at hd
      split_ifs at hd
      cases hd
      rw [Numeric.value, Number.fin_lt_fin] at hpos
      have hcents : 0 < roundAway (q * 100) := by
        have : (0 : ℚ) < roundAway (q * 100) := by linarith
        exact_mod_cast this
      have := (roundAway_pos_iff (by linarith)).mp hcents
      exact ⟨q, rfl, by linarith, hfits⟩

/-- **Which reserve prices are kept**: those that are stored, and rendered if they are a NaN. -/
theorem reserveFits_iff {rendersNan : Bool} {x : PyFloat} :
    ReserveFits rendersNan x ↔
      (Numeric.ofNumber x.val).isSome ∧ (rendersNan = true ∨ x.val ≠ .nan) := by
  unfold ReserveFits
  cases x.val with
  | nan => simp [Numeric.ofNumber]
  | negInf => simp [Numeric.ofNumber]
  | posInf => simp [Numeric.ofNumber]
  | fin q => simp [Numeric.ofNumber_fin_isSome]

theorem ofNumber_val_eq_nan_iff (x : Number) : (PyFloat.ofNumber x).val = .nan ↔ x = .nan := by
  cases x <;> simp [PyFloat.ofNumber, Number.round]

/-! ### The row -/

/-- **When a row is taken.** -/
theorem insertAuction_isSome_iff (sellerId : Uuid) (data : AuctionCreate) (state : AuctionState)
    (nowUtc : ℤ) :
    (insertAuction sellerId data state nowUtc).isSome ↔ columnsFit data = true ∧
      (Numeric.ofNumber data.startingPrice.val).isSome ∧
      (Numeric.ofNumber data.minIncrement.val).isSome ∧
      ∀ r, data.reservePrice = some r → (Numeric.ofNumber r.val).isSome := by
  unfold insertAuction
  by_cases hcolumns : columnsFit data = true
  · rw [if_pos hcolumns]
    cases Numeric.ofNumber data.startingPrice.val with
    | none => simp
    | some startingPrice =>
      cases Numeric.ofNumber data.minIncrement.val with
      | none => simp
      | some minIncrement =>
        cases data.reservePrice with
        | none => simp [hcolumns]
        | some r =>
          cases hr : Numeric.ofNumber r.val with
          | none => simp [hr]
          | some reservePrice => simp [hr, hcolumns]
  · rw [if_neg hcolumns]
    exact iff_of_false (by simp) fun h => hcolumns h.1

/-- The answer of a new row has the NaNs of the request. -/
theorem renders_iff {rendersNan : Bool} {sellerId auctionId : Uuid} {data : AuctionCreate}
    {state : AuctionState} {nowUtc : ℤ} {auction : Auction}
    (h : insertAuction sellerId data state nowUtc = some auction) :
    (AuctionResponse.modelValidate auctionId auction).renders rendersNan = true ↔
      rendersNan = true ∨ (data.startingPrice.val ≠ .nan ∧ data.minIncrement.val ≠ .nan ∧
        ∀ r, data.reservePrice = some r → r.val ≠ .nan) := by
  have hins := insertAuction_inserted h
  have hreserve := insertAuction_reserve h
  have hfits := ((insertAuction_isSome_iff _ _ _ _).mp (Option.isSome_iff_exists.mpr ⟨_, h⟩)).2.2.2
  have hs := Numeric.value_eq_nan_iff hins.starting
  have hm := Numeric.value_eq_nan_iff hins.increment
  have hr : (∀ d, auction.reservePrice = some d → d.value ≠ .nan) ↔
      ∀ r, data.reservePrice = some r → r.val ≠ .nan := by
    cases hdata : data.reservePrice with
    | none => simp [hreserve, hdata]
    | some r =>
      obtain ⟨d, hd⟩ := Option.isSome_iff_exists.mp (hfits r hdata)
      have hrow : auction.reservePrice = some d := by rw [hreserve, hdata]; exact hd
      simp [hrow, Numeric.value_eq_nan_iff hd]
  have hbody : (AuctionResponse.modelValidate auctionId auction).renders rendersNan = true ↔
      rendersNan = true ∨ (auction.startingPrice.value ≠ .nan ∧ auction.minIncrement.value ≠ .nan ∧
        ∀ d, auction.reservePrice = some d → d.value ≠ .nan) := by
    simp [AuctionResponse.renders, AuctionResponse.modelValidate, ofNumber_val_eq_nan_iff]
  rw [hbody, hr, hs.ne, hm.ne]

section Contract

variable {rendersNan : Bool} {pg : Pg} {redis : Redis} {sellerId auctionId : Uuid}
  {data : AuctionCreate} {nowUtc : ℤ}

/-- A row that is taken, shown and positive is one that fits. -/
theorem rowFits_iff (hstart : data.startingPricePositive) (hinc : data.minIncrementPositive)
    (state : AuctionState) :
    RowFits rendersNan data ↔ ∃ auction, insertAuction sellerId data state nowUtc = some auction ∧
      (AuctionResponse.modelValidate auctionId auction).renders rendersNan = true ∧
      .fin 0 < auction.startingPrice.value ∧ .fin 0 < auction.minIncrement.value := by
  constructor
  · rintro ⟨hcolumns, hs, hm, hr⟩
    have hreserve := fun r hdata => reserveFits_iff.mp (hr r hdata)
    obtain ⟨s, hs', hspos⟩ := (positivePrice_iff hstart).mp hs
    obtain ⟨m, hm', hmpos⟩ := (positivePrice_iff hinc).mp hm
    have hsome := (insertAuction_isSome_iff sellerId data state nowUtc).mpr
      ⟨hcolumns, by simp [hs'], by simp [hm'], fun r hdata => (hreserve r hdata).1⟩
    obtain ⟨auction, hrow⟩ := Option.isSome_iff_exists.mp hsome
    have hins := insertAuction_inserted hrow
    obtain rfl := Option.some.inj (hs'.symm.trans hins.starting)
    obtain rfl := Option.some.inj (hm'.symm.trans hins.increment)
    refine ⟨auction, hrow, (renders_iff hrow).mpr ?_, hspos, hmpos⟩
    obtain ⟨qs, hqs, -⟩ := hs
    obtain ⟨qm, hqm, -⟩ := hm
    by_cases hnan : rendersNan = true
    · exact Or.inl hnan
    · exact Or.inr ⟨by simp [hqs], by simp [hqm], fun r hdata =>
        (hreserve r hdata).2.resolve_left hnan⟩
  · rintro ⟨auction, hrow, hrenders, hs, hm⟩
    have hins := insertAuction_inserted hrow
    obtain ⟨hcolumns, -, -, hr⟩ := (insertAuction_isSome_iff _ _ _ _).mp
      (Option.isSome_iff_exists.mpr ⟨_, hrow⟩)
    refine ⟨hcolumns, (positivePrice_iff hstart).mpr ⟨_, hins.starting, hs⟩,
      (positivePrice_iff hinc).mpr ⟨_, hins.increment, hm⟩, ?_⟩
    intro r hdata
    have hshown := ((renders_iff hrow).mp hrenders).imp_right fun h => h.2.2 r hdata
    exact reserveFits_iff.mpr ⟨hr r hdata, hshown⟩

/-! ### The contract -/

/-- A request that `create_auction` raises on. -/
theorem createAuctionRoute_error {e : CreateError}
    (h : createAuction pg.users sellerId data nowUtc = .error e) :
    createAuctionRoute rendersNan pg redis sellerId auctionId data nowUtc =
      (mapError e, pg, redis) := by
  rw [createAuctionRoute, h]

/-- What is no `ValueError` is not caught. -/
theorem unhandled_of_error {e : CreateError}
    (h : createAuction pg.users sellerId data nowUtc = .error e) (he : e.valueError = none) :
    (createAuctionRoute rendersNan pg redis sellerId auctionId data nowUtc).1 = .unhandled := by
  rw [createAuctionRoute_error h, mapError, he]

/-- A `ValueError` keeps the contract of a request that has to be refused. -/
theorem createsOrRefuses_of_error {e : CreateError}
    (h : createAuction pg.users sellerId data nowUtc = .error e)
    (hmust : MustRefuse pg.users sellerId data nowUtc) {statusCode : ℕ} {detail : String}
    (hmap : mapError e = .httpError statusCode detail) (hcode : statusCode = 400 ∨ statusCode = 404) :
    CreatesOrRefuses rendersNan pg redis sellerId auctionId data nowUtc := by
  have hrefuses : Refuses pg redis
      (createAuctionRoute rendersNan pg redis sellerId auctionId data nowUtc) := by
    rw [createAuctionRoute_error h]
    exact ⟨⟨statusCode, detail, hmap, hcode⟩, rfl⟩
  exact ⟨iff_of_true hrefuses hmust, Or.inl hrefuses⟩

/-- No unhandled exception keeps it. -/
theorem not_createsOrRefuses
    (h : (createAuctionRoute rendersNan pg redis sellerId auctionId data nowUtc).1 = .unhandled) :
    ¬ CreatesOrRefuses rendersNan pg redis sellerId auctionId data nowUtc := by
  rintro ⟨-, ⟨⟨statusCode, detail, hanswer, -⟩, -⟩ | ⟨auction, hcreates⟩⟩
  · rw [h] at hanswer
    cases hanswer
  · cases h.symm.trans hcreates.answered

/-- The request passes every check of `create_auction`. -/
structure Checked (users : List Uuid) (sellerId : Uuid) (data : AuctionCreate) (nowUtc : ℤ) :
    Prop where
  /-- The seller exists. -/
  seller : sellerId ∈ users
  /-- The start has a time zone. -/
  startAware : data.startTs.aware = true
  /-- The start is not too far in the past. -/
  recent : nowUtc - pastTolerance ≤ data.startTs.micros
  /-- The end has a time zone. -/
  endAware : data.endTs.aware = true
  /-- The end comes after the start. -/
  ends : data.startTs.micros < data.endTs.micros

/-- The state of a new row. -/
def newState (data : AuctionCreate) (nowUtc : ℤ) : AuctionState :=
  if data.startTs.micros ≤ nowUtc then .active else .upcoming

theorem newState_eq_active_iff : newState data nowUtc = .active ↔ data.startTs.micros ≤ nowUtc := by
  unfold newState
  split_ifs with h <;> simp [h]

theorem Checked.stored {users : List Uuid} (h : Checked users sellerId data nowUtc)
    {auction : Auction}
    (hrow : insertAuction sellerId data (newState data nowUtc) nowUtc = some auction) :
    createAuction users sellerId data nowUtc = .ok auction := by
  unfold newState at hrow
  simp [createAuction, h.seller, h.startAware, h.endAware, not_lt.mpr h.recent, not_le.mpr h.ends,
    hrow]

theorem Checked.refused {users : List Uuid} (h : Checked users sellerId data nowUtc)
    (hrow : insertAuction sellerId data (newState data nowUtc) nowUtc = none) :
    createAuction users sellerId data nowUtc = .error .refused := by
  unfold newState at hrow
  simp [createAuction, h.seller, h.startAware, h.endAware, not_lt.mpr h.recent, not_le.mpr h.ends,
    hrow]

theorem Checked.not_mustRefuse {users : List Uuid} (h : Checked users sellerId data nowUtc) :
    ¬ MustRefuse users sellerId data nowUtc := by
  rintro (hseller | hpast | hends)
  · exact hseller h.seller
  · exact absurd hpast (not_lt.mpr h.recent)
  · exact absurd hends (not_le.mpr h.ends)

/-- A request whose row is taken and shown. -/
theorem Checked.created (h : Checked pg.users sellerId data nowUtc) {auction : Auction}
    (hrow : insertAuction sellerId data (newState data nowUtc) nowUtc = some auction)
    (hrenders : (AuctionResponse.modelValidate auctionId auction).renders rendersNan = true) :
    createAuctionRoute rendersNan pg redis sellerId auctionId data nowUtc =
      (.created (.modelValidate auctionId auction), pg.writeAuctions [(auctionId, auction)],
        if auction.state = .active then redis.hset auctionId (initRedisHash auction) else redis) := by
  simp only [createAuctionRoute, h.stored hrow, hrenders, if_true]

/-- A request whose row is not taken, or not shown. -/
theorem Checked.unhandled (h : Checked pg.users sellerId data nowUtc)
    (hno : ∀ auction, insertAuction sellerId data (newState data nowUtc) nowUtc = some auction →
      ¬ (AuctionResponse.modelValidate auctionId auction).renders rendersNan = true) :
    (createAuctionRoute rendersNan pg redis sellerId auctionId data nowUtc).1 = .unhandled := by
  cases hrow : insertAuction sellerId data (newState data nowUtc) nowUtc with
  | none => exact unhandled_of_error (h.refused hrow) rfl
  | some auction =>
    simp only [createAuctionRoute, h.stored hrow, hno auction hrow]
    rfl

/-- A row that is stored with positive prices is what the contract asks for. -/
theorem Checked.creates (h : Checked pg.users sellerId data nowUtc)
    (hpg : pg.auction auctionId = none) (hredis : redis.hash auctionId = none) {auction : Auction}
    (hrow : insertAuction sellerId data (newState data nowUtc) nowUtc = some auction)
    (hs : .fin 0 < auction.startingPrice.value) (hm : .fin 0 < auction.minIncrement.value) :
    Creates pg redis auctionId data nowUtc (.created (.modelValidate auctionId auction),
      pg.writeAuctions [(auctionId, auction)],
      if auction.state = .active then redis.hset auctionId (initRedisHash auction) else redis)
      auction := by
  have hins := insertAuction_inserted hrow
  refine ⟨rfl, ⟨hpg, rfl⟩, ?_, hs, hm, ?_, hredis, ?_⟩
  · rw [hins.startTs, hins.endTs]
    exact h.ends
  · rw [hins.state, newState_eq_active_iff]
  · split_ifs
    · simp [Redis.hset, hredis]
    · rw [← hredis, Function.update_eq_self]

/-- The row that the contract speaks of is the one that was committed. -/
theorem Creates.auction_eq {answer : CreateAnswer} {redis' : Redis} {auction auction' : Auction}
    (h : Creates pg redis auctionId data nowUtc
      (answer, pg.writeAuctions [(auctionId, auction)], redis') auction') : auction' = auction := by
  have hkey := congrArg (fun pg : Pg => pg.auction auctionId) h.row.2
  simp only [Pg.writeAuctions, Pg.setRows, Function.update_self, Option.some.injEq] at hkey
  exact hkey.symm

/-- **Past the checks** the contract is kept exactly when the row fits. -/
theorem Checked.iff_rowFits (h : Checked pg.users sellerId data nowUtc)
    (hstart : data.startingPricePositive) (hinc : data.minIncrementPositive)
    (hpg : pg.auction auctionId = none) (hredis : redis.hash auctionId = none) :
    CreatesOrRefuses rendersNan pg redis sellerId auctionId data nowUtc ↔
      RowFits rendersNan data := by
  rw [rowFits_iff hstart hinc (newState data nowUtc)]
  constructor
  · intro hkeeps
    by_contra hno
    -- the row is taken and shown, or nobody would answer
    obtain ⟨auction, hrow, hrenders⟩ : ∃ auction,
        insertAuction sellerId data (newState data nowUtc) nowUtc = some auction ∧
          (AuctionResponse.modelValidate auctionId auction).renders rendersNan = true := by
      by_contra hnone
      exact not_createsOrRefuses
        (h.unhandled fun auction hrow hrenders => hnone ⟨auction, hrow, hrenders⟩) hkeeps
    obtain ⟨-, hout⟩ := hkeeps
    rw [h.created hrow hrenders] at hout
    rcases hout with ⟨⟨statusCode, detail, hanswer, -⟩, -⟩ | ⟨auction', hcreates⟩
    · cases hanswer
    · obtain rfl := hcreates.auction_eq
      exact hno ⟨auction', hrow, hrenders, hcreates.starting, hcreates.increment⟩
  · rintro ⟨auction, hrow, hrenders, hs, hm⟩
    have hcreates := h.creates hpg hredis hrow hs hm
    unfold CreatesOrRefuses
    rw [h.created hrow hrenders]
    refine ⟨iff_of_false ?_ h.not_mustRefuse, Or.inr ⟨auction, hcreates⟩⟩
    rintro ⟨⟨statusCode, detail, hanswer, -⟩, -⟩
    cases hanswer

/-- **When the route keeps its contract**: the seller is missing, or the start has a time zone and
either is too far in the past, or the end has one too and either does not come after the start or
the row fits. -/
theorem createsOrRefuses_iff (hstart : data.startingPricePositive)
    (hinc : data.minIncrementPositive) (hpg : pg.auction auctionId = none)
    (hredis : redis.hash auctionId = none) :
    CreatesOrRefuses rendersNan pg redis sellerId auctionId data nowUtc ↔
      sellerId ∉ pg.users ∨ (data.startTs.aware = true ∧
        (data.startTs.micros < nowUtc - pastTolerance ∨ (data.endTs.aware = true ∧
          (data.endTs.micros ≤ data.startTs.micros ∨ RowFits rendersNan data)))) := by
  by_cases hseller : sellerId ∈ pg.users
  · by_cases haware : data.startTs.aware = true
    · by_cases hpast : data.startTs.micros < nowUtc - pastTolerance
      · have herror : createAuction pg.users sellerId data nowUtc = .error .startTooFarInThePast := by
          simp [createAuction, hseller, haware, hpast]
        exact iff_of_true (createsOrRefuses_of_error herror (Or.inr (Or.inl hpast))
          mapError_startTooFarInThePast (Or.inl rfl)) (Or.inr ⟨haware, Or.inl hpast⟩)
      · by_cases haware' : data.endTs.aware = true
        · by_cases hends : data.endTs.micros ≤ data.startTs.micros
          · have herror : createAuction pg.users sellerId data nowUtc = .error .endNotAfterStart := by
              simp [createAuction, hseller, haware, hpast, haware', hends]
            exact iff_of_true (createsOrRefuses_of_error herror (Or.inr (Or.inr hends))
              mapError_endNotAfterStart (Or.inl rfl)) (Or.inr ⟨haware, Or.inr ⟨haware', Or.inl hends⟩⟩)
          · have hchecked : Checked pg.users sellerId data nowUtc :=
              ⟨hseller, haware, not_lt.mp hpast, haware', not_le.mp hends⟩
            rw [hchecked.iff_rowFits hstart hinc hpg hredis]
            simp [hseller, haware, hpast, haware', hends]
        · have herror : createAuction pg.users sellerId data nowUtc = .error .naiveComparison := by
            simp [createAuction, hseller, haware, hpast, haware']
          exact iff_of_false (not_createsOrRefuses (unhandled_of_error herror rfl))
            (by simp [hseller, hpast, haware'])
    · have herror : createAuction pg.users sellerId data nowUtc = .error .naiveComparison := by
        simp [createAuction, hseller, haware]
      exact iff_of_false (not_createsOrRefuses (unhandled_of_error herror rfl))
        (by simp [hseller, haware])
  · have herror : createAuction pg.users sellerId data nowUtc = .error .sellerNotFound := by
      simp [createAuction, hseller]
    exact iff_of_true (createsOrRefuses_of_error herror (Or.inl hseller) mapError_sellerNotFound
      (Or.inr rfl)) (Or.inl hseller)

end Contract

/-! ### Runs -/

/-- The tables with one user and no auction. -/
def oneUser : Pg := ⟨[1], fun _ => none, [], [], [], []⟩

/-- The camera is put up. -/
theorem camera_createsOrRefuses :
    CreatesOrRefuses false oneUser .empty 1 5 camera 1000000000 :=
  (createsOrRefuses_iff (by decide +kernel) (by decide +kernel) rfl rfl).mpr
    (Or.inr ⟨rfl, Or.inr ⟨rfl, Or.inr
      { columns := by decide +kernel
        starting := ⟨10, by decide +kernel, by norm_num, by norm_num⟩
        increment := ⟨1, by decide +kernel, by norm_num, by norm_num⟩
        reserve := by rintro r ⟨⟩ }⟩⟩)

/-- The camera, with a start that has no time zone. -/
def naiveCamera : AuctionCreate := { camera with startTs := ⟨1000000000, false⟩ }

/-- Nobody answers. -/
theorem naiveCamera_unhandled :
    naiveCamera.startingPricePositive ∧ naiveCamera.minIncrementPositive ∧
      ¬ CreatesOrRefuses false oneUser .empty 1 5 naiveCamera 1000000000 :=
  ⟨by decide +kernel, by decide +kernel, not_createsOrRefuses (by decide +kernel)⟩

end OnlineAuction.Lifecycle
