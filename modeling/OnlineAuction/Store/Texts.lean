import OnlineAuction.Foundation.Numerals
import OnlineAuction.Store.Records
import Mathlib.Data.Bool.AllAny

/-!
# The texts in Redis

Redis keeps texts, and the program prints and reads them: keys with a UUID in them, amounts with two
decimals, whole seconds, sequence numbers and the names of states.

## What is proved

* `uuidOfText_uuidText` — `uuid.UUID(str(u))` is `u`.
* `auctionKey_inj`, `resultKey_inj`, `streamKey_inj` and `auctionKey_ne_streamKey` — different things
  have different keys.
* `readNumber_text` — the text of an amount is read as its value.
* `encodeFields_update` — writing a field of a hash writes its text.

## Honest scope

A UUID is a number below `2 ^ 128` (`IsUuid`).
-/

namespace OnlineAuction.Store

open OnlineAuction.Foundation OnlineAuction.Foundation.Json

/-- A text. -/
abbrev Text := List Char

/-- What Python strips from a string. -/
def pySpace (c : Char) : Bool :=
  (9 ≤ c.toNat && c.toNat ≤ 13) || (28 ≤ c.toNat && c.toNat ≤ 32) || c.toNat == 0x85 ||
    c.toNat == 0xA0 || c.toNat == 0x1680 || (0x2000 ≤ c.toNat && c.toNat ≤ 0x200A) ||
    c.toNat == 0x2028 || c.toNat == 0x2029 || c.toNat == 0x202F || c.toNat == 0x205F ||
    c.toNat == 0x3000

/-- `isspace` of C. -/
def cSpace (c : Char) : Bool := (9 ≤ c.toNat && c.toNat ≤ 13) || c.toNat == 32

theorem toNat_of_isDigit {c : Char} (h : c.isDigit = true) : 48 ≤ c.toNat ∧ c.toNat ≤ 57 := by
  simp only [Char.isDigit, Bool.and_eq_true, decide_eq_true_eq] at h
  exact h

theorem keepsNumerals_pySpace : KeepsNumerals pySpace := by
  rintro c (hc | hc)
  · obtain ⟨h₁, h₂⟩ := toNat_of_isDigit hc
    simp only [pySpace, Bool.or_eq_false_iff, Bool.and_eq_false_iff, decide_eq_false_iff_not,
      beq_eq_false_iff_ne]
    omega
  · simp only [List.mem_cons, List.not_mem_nil, or_false] at hc
    rcases hc with rfl | rfl | rfl | rfl | rfl | rfl <;> rfl

theorem keepsNumerals_cSpace : KeepsNumerals cSpace := by
  rintro c (hc | hc)
  · obtain ⟨h₁, h₂⟩ := toNat_of_isDigit hc
    simp only [cSpace, Bool.or_eq_false_iff, Bool.and_eq_false_iff, decide_eq_false_iff_not,
      beq_eq_false_iff_ne]
    omega
  · simp only [List.mem_cons, List.not_mem_nil, or_false] at hc
    rcases hc with rfl | rfl | rfl | rfl | rfl | rfl <;> rfl

/-! ### UUIDs -/

/-- A UUID has 128 bits. -/
def IsUuid (u : Uuid) : Prop := u < 16 ^ 32

instance (u : Uuid) : Decidable (IsUuid u) := inferInstanceAs (Decidable (_ < _))

/-- `str(u)`. -/
def uuidText (u : Uuid) : Text :=
  let hex := fixedDigits 16 32 u
  hex.take 8 ++ '-' :: ((hex.drop 8).take 4 ++ '-' :: ((hex.drop 12).take 4 ++ '-' ::
    ((hex.drop 16).take 4 ++ '-' :: hex.drop 20)))

/-- `text.replace(sub, '')`; the number says how many characters of an occurrence are left. -/
def remove (sub : Text) : ℕ → Text → Text
  | _, [] => []
  | k + 1, _ :: cs => remove sub k cs
  | 0, c :: cs =>
    if sub.isPrefixOf (c :: cs) then remove sub (sub.length - 1) cs else c :: remove sub 0 cs

/-- `uuid.UUID(text)`; `none` when it raises. -/
def uuidOfText (text : Text) : Option Uuid :=
  let hex := (strip (fun c => c == '{' || c == '}')
    (remove "uuid:".toList 0 (remove "urn:".toList 0 text))).filter (· != '-')
  if hex.length = 32 then
    (pyInt pySpace 16 hex).bind fun n => if 0 ≤ n ∧ n < 16 ^ 32 then some n.toNat else none
  else none

/-- A text without the first character of `sub` has no `sub` in it. -/
theorem remove_of_not_mem {c : Char} {sub text : Text} (h : c ∉ text) :
    remove (c :: sub) 0 text = text := by
  induction text with
  | nil => rfl
  | cons d text ih =>
    rw [List.mem_cons, not_or] at h
    rw [remove, if_neg, ih h.2]
    simp [List.isPrefixOf, h.1]

/-- The digits of a UUID are hexadecimal. -/
theorem mem_hex {u : Uuid} {c : Char} (hc : c ∈ fixedDigits 16 32 u) : c ∈ hexDigits := by
  obtain ⟨d, hd, rfl⟩ := mem_fixedDigits (by decide) hc
  have hall : ∀ d : Fin 16, hexDigit d ∈ hexDigits := by decide
  exact hall ⟨d, hd⟩

theorem mem_uuidText {u : Uuid} {c : Char} (hc : c ∈ uuidText u) : c = '-' ∨ c ∈ hexDigits := by
  simp only [uuidText, List.mem_append, List.mem_cons] at hc
  rcases hc with hc | rfl | hc | rfl | hc | rfl | hc | rfl | hc
  · exact Or.inr (mem_hex (List.mem_of_mem_take hc))
  · exact Or.inl rfl
  · exact Or.inr (mem_hex (List.mem_of_mem_drop (List.mem_of_mem_take hc)))
  · exact Or.inl rfl
  · exact Or.inr (mem_hex (List.mem_of_mem_drop (List.mem_of_mem_take hc)))
  · exact Or.inl rfl
  · exact Or.inr (mem_hex (List.mem_of_mem_drop (List.mem_of_mem_take hc)))
  · exact Or.inl rfl
  · exact Or.inr (mem_hex (List.mem_of_mem_drop hc))

/-- What is no hexadecimal digit and no hyphen is not in the text of a UUID. -/
theorem not_mem_uuidText {u : Uuid} {c : Char} (hc : c ∉ '-' :: hexDigits) : c ∉ uuidText u :=
  fun h => hc (List.mem_cons.mpr (mem_uuidText h))

/-- Without its hyphens the text of a UUID is its digits. -/
theorem filter_uuidText (u : Uuid) : (uuidText u).filter (· != '-') = fixedDigits 16 32 u := by
  have hkept : ∀ l : Text, (∀ c ∈ l, c ∈ fixedDigits 16 32 u) → l.filter (· != '-') = l := by
    intro l hl
    refine List.filter_eq_self.mpr fun c hc => ?_
    have hmem := mem_hex (hl c hc)
    have hall : ∀ c ∈ hexDigits, (c != '-') = true :=
      List.all_iff_forall_prop.mp (by decide)
    exact hall c hmem
  have hsplit : ∀ (l : Text) (m n : ℕ), (l.drop m).take n ++ l.drop (m + n) = l.drop m := by
    intro l m n
    rw [← List.drop_drop, List.take_append_drop]
  generalize hhex : fixedDigits 16 32 u = hex at hkept
  have htext : uuidText u = hex.take 8 ++ '-' :: ((hex.drop 8).take 4 ++ '-' ::
      ((hex.drop 12).take 4 ++ '-' :: ((hex.drop 16).take 4 ++ '-' :: hex.drop 20))) := by
    rw [uuidText, hhex]
  have hdash : ('-' != '-') = false := rfl
  rw [htext]
  simp only [List.filter_append, List.filter_cons, hdash, Bool.false_eq_true, if_false]
  rw [hkept _ fun c hc => List.mem_of_mem_take hc,
    hkept _ fun c hc => List.mem_of_mem_drop (List.mem_of_mem_take hc),
    hkept _ fun c hc => List.mem_of_mem_drop (List.mem_of_mem_take hc),
    hkept _ fun c hc => List.mem_of_mem_drop (List.mem_of_mem_take hc),
    hkept _ fun c hc => List.mem_of_mem_drop hc,
    hsplit hex 16 4, hsplit hex 12 4, hsplit hex 8 4, List.take_append_drop]

/-- Different UUIDs have different texts. -/
theorem uuidText_inj {u v : Uuid} (hu : IsUuid u) (hv : IsUuid v) (h : uuidText u = uuidText v) :
    u = v := by
  refine fixedDigits_inj (by decide) (by decide) (by decide) hu hv ?_
  rw [← filter_uuidText, ← filter_uuidText, h]

theorem length_uuidText (u : Uuid) : (uuidText u).length = 36 := by
  have hlen := length_fixedDigits 16 32 u
  simp [uuidText, hlen]

theorem uuidText_ne_nil (u : Uuid) : uuidText u ≠ [] := by
  intro h
  have := length_uuidText u
  rw [h] at this
  cases this

/-- The digits of a UUID are no integer of another kind: there is no sign and no prefix. -/
theorem pyInt_hex {u : Uuid} (hu : IsUuid u) : pyInt pySpace 16 (fixedDigits 16 32 u) = some (u : ℤ) := by
  have hread : scanDigits 16 0 false (fixedDigits 16 32 u) = some u := by
    have h := @scanDigits_fixed 16 (by decide) (by decide) 32 u 0 false []
    rw [List.append_nil, Nat.mod_eq_of_lt hu, Nat.mul_zero, Nat.zero_add] at h
    exact h
  have hstrip : strip pySpace (fixedDigits 16 32 u) = fixedDigits 16 32 u := by
    refine strip_of_all_not fun c hc => ?_
    have hall : ∀ c ∈ hexDigits, pySpace c = false :=
      List.all_iff_forall_prop.mp (by decide)
    exact hall c (mem_hex hc)
  have hmem : ∀ c ∈ fixedDigits 16 32 u, c ≠ '-' ∧ c ≠ '+' ∧ c ≠ 'x' ∧ c ≠ 'X' := by
    intro c hc
    have hall : ∀ c ∈ hexDigits, c ≠ '-' ∧ c ≠ '+' ∧ c ≠ 'x' ∧ c ≠ 'X' :=
      List.all_iff_forall_prop.mp (by decide)
    exact hall c (mem_hex hc)
  rw [pyInt, hstrip]
  generalize fixedDigits 16 32 u = hex at hread hmem
  have hpre : dropHexPrefix hex = hex := by
    unfold dropHexPrefix
    split
    · rename_i x rest
      obtain ⟨-, -, hx, hX⟩ := hmem x (by simp)
      simp [hx, hX]
    · rfl
  unfold pySigned
  split
  · exact absurd rfl (hmem '-' (by simp)).1
  · exact absurd rfl (hmem '+' (by simp)).2.1
  · simp [hpre, hread]

/-- **A printed UUID is read back.** -/
theorem uuidOfText_uuidText {u : Uuid} (hu : IsUuid u) : uuidOfText (uuidText u) = some u := by
  have hremove : ∀ {sub : Text}, sub.head? = some 'u' → remove sub 0 (uuidText u) = uuidText u := by
    intro sub hsub
    cases sub with
    | nil => cases hsub
    | cons c sub =>
      obtain rfl : c = 'u' := Option.some.inj hsub
      exact remove_of_not_mem (not_mem_uuidText (by decide))
  have hstrip : strip (fun c => c == '{' || c == '}') (uuidText u) = uuidText u := by
    refine strip_of_all_not fun c hc => ?_
    have hall : ∀ c ∈ '-' :: hexDigits, (c == '{' || c == '}') = false :=
      List.all_iff_forall_prop.mp (by decide)
    exact hall c (List.mem_cons.mpr (mem_uuidText hc))
  have hlt : (u : ℤ) < 16 ^ 32 := by exact_mod_cast hu
  simp only [uuidOfText]
  rw [hremove (by rfl), hremove (by rfl), hstrip, filter_uuidText, pyInt_hex hu,
    if_pos (length_fixedDigits 16 32 u), Option.bind_some, if_pos ⟨Int.natCast_nonneg u, hlt⟩]
  rfl

/-! ### Amounts -/

/-- The format `.2f`, by what it prints. -/
def DecStr.text : DecStr → Text
  | .nan => "nan".toList
  | .negInf => "-inf".toList
  | .posInf => "inf".toList
  | .dec c =>
    let m := c.natAbs
    let digits := Nat.toDigits 10 (m / 100) ++ ['.', Nat.digitChar (m / 10 % 10), Nat.digitChar (m % 10)]
    if c < 0 then '-' :: digits else digits

/-- `float(text)`; `none` when it raises. -/
def floatOfText (text : Text) : Option PyFloat := (readNumber pySpace text).map .ofNumber

/-- Lua's `tonumber` of a text; `none` is `nil`. -/
def luaNumber (R : Rounding) (text : Text) : Option Number := (readNumber cSpace text).map (·.round R)

/-- **The text of an amount is read as its value.** -/
theorem readNumber_text {blank : Char → Bool} (hblank : KeepsNumerals blank) (s : DecStr) :
    readNumber blank s.text = some s.value := by
  cases s with
  | nan | posInf | negInf =>
    rw [readNumber, hblank.strip (List.all_iff_forall_prop.mp (by decide))]
    rfl
  | dec c =>
    have hdigit : ∀ d < 10, (Nat.digitChar d).isDigit = true := by decide
    have h₁ : c.natAbs / 10 % 10 < 10 := Nat.mod_lt _ (by decide)
    have h₂ : c.natAbs % 10 < 10 := Nat.mod_lt _ (by decide)
    have hread := @readNumber_decimal blank hblank (Nat.toDigits 10 (c.natAbs / 100))
      [Nat.digitChar (c.natAbs / 10 % 10), Nat.digitChar (c.natAbs % 10)] Nat.toDigits_ne_nil ?_
    swap
    · intro d hd
      simp only [List.mem_append, List.mem_cons, List.not_mem_nil, or_false] at hd
      rcases hd with hd | rfl | rfl
      · exact isDigit_toDigits _ d hd
      · exact hdigit _ h₁
      · exact hdigit _ h₂
    have hvalue : Nat.ofDigitChars 10 (Nat.toDigits 10 (c.natAbs / 100) ++
        [Nat.digitChar (c.natAbs / 10 % 10), Nat.digitChar (c.natAbs % 10)]) 0 = c.natAbs := by
      rw [Nat.ofDigitChars_append, Nat.ofDigitChars_toDigits (by decide) (by decide),
        Nat.ofDigitChars_cons_digitChar_of_lt_ten h₁, Nat.ofDigitChars_cons_digitChar_of_lt_ten h₂,
        Nat.ofDigitChars_nil]
      omega
    rw [hvalue] at hread
    have hsquare : (10 : ℚ) ^ [Nat.digitChar (c.natAbs / 10 % 10), Nat.digitChar (c.natAbs % 10)].length
        = 100 := by norm_num
    rw [hsquare] at hread
    simp only [DecStr.text, DecStr.value]
    split_ifs with hneg
    · rw [hread.2, Nat.cast_natAbs, abs_of_neg hneg]
      push_cast
      rw [neg_div, neg_neg]
    · rw [hread.1, Nat.cast_natAbs, abs_of_nonneg (not_lt.mp hneg)]

/-! ### Names -/

/-- The name of a state. -/
def AuctionState.text : AuctionState → Text
  | .upcoming => "UPCOMING".toList
  | .active => "ACTIVE".toList
  | .closed => "CLOSED".toList
  | .sold => "SOLD".toList
  | .unsold => "UNSOLD".toList

/-- The name of a reason. -/
def Reason.text : Reason → Text
  | .auctionNotActive => "AUCTION_NOT_ACTIVE".toList
  | .auctionEnded => "AUCTION_ENDED".toList
  | .selfOutbid => "SELF_OUTBID".toList
  | .bidTooLow => "BID_TOO_LOW".toList

/-- What the script keeps of a bid under its dedup key. -/
def BidStatus.text : BidStatus → Text
  | .accepted => "ACCEPTED".toList
  | .rejected reason => reason.text

theorem AuctionState.text_eq_active {state : AuctionState} :
    state.text = "ACTIVE".toList ↔ state = .active := by
  cases state <;> decide

theorem Reason.text_ne_accepted (reason : Reason) : reason.text ≠ "ACCEPTED".toList := by
  cases reason <;> decide

/-! ### Hashes -/

/-- The fields of the hash `auction:{id}`. -/
inductive HashField where
  /-- `state`. -/
  | state
  /-- `highest_bid`. -/
  | highestBid
  /-- `highest_bidder`. -/
  | highestBidder
  /-- `end_ts`. -/
  | endTs
  /-- `start_ts`. -/
  | startTs
  /-- `sequence_num`. -/
  | sequenceNum
  /-- `extensions_used`. -/
  | extensionsUsed
  /-- `min_increment`. -/
  | minIncrement
  /-- `last_bid_ts`. -/
  | lastBidTs
  deriving DecidableEq

/-- The name of a field. -/
def HashField.text : HashField → Text
  | .state => "state".toList
  | .highestBid => "highest_bid".toList
  | .highestBidder => "highest_bidder".toList
  | .endTs => "end_ts".toList
  | .startTs => "start_ts".toList
  | .sequenceNum => "sequence_num".toList
  | .extensionsUsed => "extensions_used".toList
  | .minIncrement => "min_increment".toList
  | .lastBidTs => "last_bid_ts".toList

/-- All fields. -/
def hashFields : List HashField :=
  [.state, .highestBid, .highestBidder, .endTs, .startTs, .sequenceNum, .extensionsUsed,
    .minIncrement, .lastBidTs]

/-- The text of a bidder; the empty text is nobody. -/
def bidderText : Option Uuid → Text
  | none => []
  | some bidder => uuidText bidder

/-- The text of a field. -/
def AuctionHash.get (h : AuctionHash) : HashField → Option Text
  | .state => h.state.map AuctionState.text
  | .highestBid => h.highestBid.map DecStr.text
  | .highestBidder => h.highestBidder.map bidderText
  | .endTs => h.endTs.map intText
  | .startTs => h.startTs.map intText
  | .sequenceNum => h.sequenceNum.map fun n : ℕ => intText n
  | .extensionsUsed => h.extensionsUsed.map fun n : ℕ => intText n
  | .minIncrement => h.minIncrement.map DecStr.text
  | .lastBidTs => h.lastBidTs.map intText

/-- The fields of a hash by their names. -/
def encodeFields (get : HashField → Option Text) (name : Text) : Option Text :=
  (hashFields.find? fun field => field.text = name).bind get

/-- A name is found. -/
theorem find_text (field : HashField) :
    hashFields.find? (fun x => x.text = field.text) = some field := by
  cases field <;> rfl

@[simp] theorem encodeFields_text (get : HashField → Option Text) (field : HashField) :
    encodeFields get field.text = get field := by
  rw [encodeFields, find_text, Option.bind_some]

theorem HashField.text_injective : Function.Injective HashField.text := fun x y h =>
  Option.some.inj ((find_text x).symm.trans (h ▸ find_text y))

/-- **Writing a field writes its text.** -/
theorem encodeFields_update (get : HashField → Option Text) (field : HashField) (value : Text) :
    Function.update (encodeFields get) field.text (some value) =
      encodeFields (Function.update get field (some value)) := by
  funext name
  by_cases hname : ∃ x : HashField, x.text = name
  · obtain ⟨x, rfl⟩ := hname
    by_cases hx : x = field
    · subst hx
      simp
    · have hne : x.text ≠ field.text := fun h => hx (HashField.text_injective h)
      simp [Function.update_of_ne hne, Function.update_of_ne hx]
  · have hnone : ∀ get, encodeFields get name = none := by
      intro get
      have hfind : hashFields.find? (fun field => field.text = name) = none :=
        List.find?_eq_none.mpr fun x _ => by simpa using not_exists.mp hname x
      rw [encodeFields, hfind]
      rfl
    rw [hnone, Function.update_of_ne (fun h => hname ⟨field, h.symm⟩), hnone]

/-! ### Keys -/

/-- The key of the hash of an auction. -/
def auctionKey (auctionId : Uuid) : Text := "auction:".toList ++ uuidText auctionId

/-- The dedup key of a bid. -/
def resultKey (bidId : Uuid) : Text := "bid_result:".toList ++ uuidText bidId

/-- The key of the stream of an auction. -/
def streamKey (auctionId : Uuid) : Text := "auction:".toList ++ uuidText auctionId ++ ":bids".toList

theorem auctionKey_inj {a b : Uuid} (ha : IsUuid a) (hb : IsUuid b)
    (h : auctionKey a = auctionKey b) : a = b := uuidText_inj ha hb (List.append_cancel_left h)

theorem resultKey_inj {a b : Uuid} (ha : IsUuid a) (hb : IsUuid b)
    (h : resultKey a = resultKey b) : a = b := uuidText_inj ha hb (List.append_cancel_left h)

theorem streamKey_inj {a b : Uuid} (ha : IsUuid a) (hb : IsUuid b)
    (h : streamKey a = streamKey b) : a = b :=
  auctionKey_inj ha hb (List.append_cancel_right h)

theorem auctionKey_ne_resultKey (a b : Uuid) : auctionKey a ≠ resultKey b := by
  unfold auctionKey resultKey
  generalize uuidText a = x
  generalize uuidText b = y
  intro h
  have hhead := congrArg List.head? h
  simp at hhead

theorem streamKey_ne_resultKey (a b : Uuid) : streamKey a ≠ resultKey b := by
  unfold streamKey resultKey
  generalize uuidText a = x
  generalize uuidText b = y
  intro h
  have hhead := congrArg List.head? h
  simp at hhead

/-- A stream is under no key of a hash. -/
theorem auctionKey_ne_streamKey (a b : Uuid) : auctionKey a ≠ streamKey b := by
  have ha := length_uuidText a
  have hb := length_uuidText b
  unfold auctionKey streamKey
  generalize uuidText a = x at ha
  generalize uuidText b = y at hb
  intro h
  have hlen := congrArg List.length h
  simp [ha, hb] at hlen

end OnlineAuction.Store
