import OnlineAuction.Foundation.Rounding

/-!
# Amounts of money on their way through the program

An amount enters as a JSON number, a Python `float`; it is formatted with two decimals
for Redis (`_to_decimal_str`), read back by Lua's `tonumber` or Python's `float`, and
stored in PostgreSQL in columns of type `Numeric(12, 2)`. Each form is a type here, and
each conversion a function on the exact values:

* `PyFloat` — a `float`: a value that binary64 rounding keeps;
* `DecStr` — the strings that the format `.2f` prints, by their value in cents;
* `Numeric` — what a `Numeric(12, 2)` column holds: a NaN, or cents below `10 ^ 12` in
  magnitude, carried as a proof (PostgreSQL rounds ties away from zero, and takes a NaN
  but no infinity);
* `PyValue` — an attribute that is a `float` or a `Decimal` loaded from such a column.

## What is proved

* `Numeric.ofNumber_fin_isSome` — which finite numbers a `Numeric(12, 2)` column takes.
* `toDecimalStr_cents` and `numeric_cents` — the float nearest to a whole number of
  cents below `10 ^ 12` prints and stores as these cents.
* `round_cents_lt` — different cents have different nearest floats, in order.
* `value_le_of_tonumber_le` — Lua's comparison of two printed strings is right.
* `cents_add_le` — Lua's rounded comparison of a bid with price plus increment never
  accepts a cent less than the exact sum.

## Honest scope

A negative zero is zero, and the exponent of a float has no upper limit.
-/

namespace OnlineAuction.Store

open OnlineAuction.Foundation

/-- Rounding to IEEE binary64, the format of Python's floats and Lua's numbers. -/
abbrev double : Rounding := binary64.rounding

/-- A Python `float`. -/
structure PyFloat where
  /-- Its value. -/
  val : Number
  /-- It is a binary64 value. -/
  repr : val.round double = val
  deriving DecidableEq

/-- The float nearest to a number: what parsing a numeral and `float(...)` give. -/
def PyFloat.ofNumber (x : Number) : PyFloat := ⟨x.round double, x.round_idem double⟩

/-- The strings printed by the format `.2f`. -/
inductive DecStr where
  /-- `nan`. -/
  | nan
  /-- `-inf`. -/
  | negInf
  /-- `inf`. -/
  | posInf
  /-- Two decimals, by the number of cents. -/
  | dec (cents : ℤ)
  deriving DecidableEq

/-- The number a string stands for. -/
def DecStr.value : DecStr → Number
  | .nan => .nan
  | .negInf => .negInf
  | .posInf => .posInf
  | .dec c => .fin (c / 100)

/-- `f"{x:.2f}"`: nearest, ties to even, of the exact value. -/
def fixed2 (x : PyFloat) : DecStr :=
  match x.val with
  | .nan => .nan
  | .negInf => .negInf
  | .posInf => .posInf
  | .fin q => .dec (roundEven (q * 100))

/-- A value of a `Numeric(12, 2)` column. -/
inductive Numeric where
  /-- `NaN`. -/
  | nan
  /-- Two decimals, by the number of cents, of at most twelve digits. -/
  | dec (cents : ℤ) (fits : |cents| < 10 ^ 12)
  deriving DecidableEq

/-- The number a column value stands for. -/
def Numeric.value : Numeric → Number
  | .nan => .nan
  | .dec c _ => .fin (c / 100)

/-- Store a number in a `Numeric(12, 2)` column; `none` when PostgreSQL refuses it. -/
def Numeric.ofNumber : Number → Option Numeric
  | .nan => some .nan
  | .fin q => if h : |roundAway (q * 100)| < 10 ^ 12 then some (.dec (roundAway (q * 100)) h) else none
  | _ => none

/-- Only a NaN is stored as one. -/
theorem Numeric.ofNumber_nan {x : Number} (h : Numeric.ofNumber x = some .nan) : x = .nan := by
  unfold Numeric.ofNumber at h
  split at h
  · rfl
  · split_ifs at h
    cases h
  · cases h

/-- A NaN is stored as one, and nothing else is. -/
theorem Numeric.value_eq_nan_iff {x : Number} {d : Numeric} (h : Numeric.ofNumber x = some d) :
    d.value = .nan ↔ x = .nan := by
  cases d with
  | nan => exact iff_of_true rfl (Numeric.ofNumber_nan h)
  | dec c hc =>
    refine iff_of_false (by simp [Numeric.value]) ?_
    rintro rfl
    cases h

/-- **What a price column takes** of the finite numbers. -/
theorem Numeric.ofNumber_fin_isSome (q : ℚ) :
    (Numeric.ofNumber (.fin q)).isSome ↔ |q| < 10 ^ 10 - 1 / 200 := by
  have hscale : |q * 100| = |q| * 100 := by
    rw [abs_mul, abs_of_pos (show (0 : ℚ) < 100 by norm_num)]
  have hiff : |roundAway (q * 100)| < 10 ^ 12 ↔ |q| < 10 ^ 10 - 1 / 200 := by
    rw [abs_roundAway_lt_iff, hscale]
    push_cast
    constructor <;> intro h <;> linarith
  rw [← hiff, Numeric.ofNumber]
  split_ifs with h
  · exact iff_of_true rfl h
  · exact iff_of_false (by simp) h

/-- A stored amount is stored as it is. -/
theorem Numeric.ofNumber_value (d : Numeric) : Numeric.ofNumber d.value = some d := by
  cases d with
  | nan => rfl
  | dec c hfits =>
    have hround : roundAway ((c : ℚ) / 100 * 100) = c := by
      rw [div_mul_cancel₀ _ (by norm_num)]
      exact roundAway_eq_of_near (by simp)
    simp only [Numeric.value, Numeric.ofNumber, hround]
    rw [dif_pos hfits]

/-- A numeric Python attribute: a `float`, or a `Decimal` loaded from a column. -/
inductive PyValue where
  /-- A `float`. -/
  | float (x : PyFloat)
  /-- A `Decimal`. -/
  | decimal (d : Numeric)
  deriving DecidableEq

/-- The exact value. -/
def PyValue.value : PyValue → Number
  | .float x => x.val
  | .decimal d => d.value

/-- `float(v)`. -/
def PyValue.toFloat (v : PyValue) : PyFloat := .ofNumber v.value

/-- `_to_decimal_str`. -/
def toDecimalStr : Option PyValue → DecStr
  | none => .dec 0
  | some v => fixed2 v.toFloat

/-- `float(s)` of a string read from Redis. -/
def DecStr.toFloat (s : DecStr) : PyFloat := .ofNumber s.value

/-- Lua's `tonumber(s)`, with the rounding of the machine's numbers. -/
def tonumber (R : Rounding) (s : DecStr) : Number := s.value.round R

@[simp] theorem tonumber_dec (R : Rounding) (c : ℤ) : tonumber R (.dec c) = .fin (R (c / 100)) := rfl

@[simp] theorem toDecimalStr_float (x : PyFloat) : toDecimalStr (some (.float x)) = fixed2 x := by
  have : PyValue.toFloat (.float x) = x := by
    obtain ⟨v, hv⟩ := x
    simp only [PyValue.toFloat, PyValue.value, PyFloat.ofNumber, PyFloat.mk.injEq]
    exact hv
  rw [toDecimalStr, this]

/-! ### Printed numbers -/

/-- A string that a float prints. -/
def DecStr.Printed (s : DecStr) : Prop := ∃ x, s = fixed2 x

theorem printed_zero : DecStr.Printed (.dec 0) := ⟨.ofNumber (.fin 0), by decide +kernel⟩

/-- The printed cents are those nearest to a float, ties to even. -/
theorem DecStr.Printed.cents {c : ℤ} (h : DecStr.Printed (.dec c)) :
    ∃ q, double q = q ∧ NearestEven (q * 100) c := by
  obtain ⟨⟨x, hx⟩, hs⟩ := h
  cases x with
  | fin q =>
    rw [Number.round_fin, Number.fin.injEq] at hx
    simp only [fixed2, DecStr.dec.injEq] at hs
    exact ⟨q, hx, hs ▸ roundEven_spec _⟩
  | _ => cases hs

/-- A float that prints as `c` cents is at least as far from them as the float nearest to
them, and half a cent away only if `c` is even. -/
theorem abs_double_sub_le_of_printed {c : ℤ} (h : DecStr.Printed (.dec c)) :
    |double (c / 100) - c / 100| < 1 / 200 ∨ |double (c / 100) - c / 100| = 1 / 200 ∧ Even c := by
  obtain ⟨q, hq, hnear⟩ := h.cents
  have hle : |double (c / 100) - c / 100| ≤ |q - c / 100| := binary64.abs_round_sub_le_abs hq
  have hscale : |q * 100 - c| = |q - c / 100| * 100 := by
    have hfactor : q * 100 - c = (q - c / 100) * 100 := by ring
    rw [hfactor, abs_mul, abs_of_pos (show (0 : ℚ) < 100 by norm_num)]
  rcases hnear with hlt | ⟨heq, heven⟩
  · rw [hscale] at hlt
    left
    linarith
  · rw [hscale] at heq
    rcases hle.lt_or_eq with h | h
    · left
      linarith
    · right
      exact ⟨by linarith, heven⟩

/-- **Reading keeps the order**: what Lua's numbers say of two printed strings holds of
their exact values. -/
theorem value_le_of_tonumber_le {s s' : DecStr} (hs : s.Printed) (hs' : s'.Printed)
    (h : tonumber double s ≤ tonumber double s') : s.value ≤ s'.value := by
  cases s with
  | dec c =>
    cases s' with
    | dec c' =>
      simp only [tonumber_dec, Number.fin_le_fin] at h
      simp only [DecStr.value, Number.fin_le_fin]
      by_contra hlt
      have hlt' : (c' : ℚ) / 100 < c / 100 := not_le.mp hlt
      have hint : c' < c := by
        have : (c' : ℚ) < c := by linarith
        exact_mod_cast this
      have hstep : (c' : ℚ) + 1 ≤ c := by exact_mod_cast hint
      have heq : double (c / 100) = double (c' / 100) := le_antisymm h (double.mono hlt'.le)
      have hnear := abs_double_sub_le_of_printed hs
      have hnear' := abs_double_sub_le_of_printed hs'
      rw [heq] at hnear
      have hle : |double (c' / 100) - c / 100| ≤ 1 / 200 := by rcases hnear with h | h <;> linarith [h]
      have hle' : |double (c' / 100) - c' / 100| ≤ 1 / 200 := by
        rcases hnear' with h | h <;> linarith [h]
      obtain ⟨h₁, -⟩ := abs_le.mp hle
      obtain ⟨-, h₂⟩ := abs_le.mp hle'
      -- the two are a cent apart, their common float half-way, so both are even
      have hsucc : c = c' + 1 := by
        have : (c : ℚ) = c' + 1 := by linarith
        exact_mod_cast this
      have hfar : |double (c' / 100) - c / 100| = 1 / 200 := by
        rw [abs_of_nonpos (by linarith)]
        linarith
      have hfar' : |double (c' / 100) - c' / 100| = 1 / 200 := by
        rw [abs_of_nonneg (by linarith)]
        linarith
      have heven := (hnear.resolve_left (not_lt.mpr hfar.ge)).2
      have heven' := (hnear'.resolve_left (not_lt.mpr hfar'.ge)).2
      rw [hsucc, Int.even_add_one] at heven
      exact heven heven'
    | _ => exact h
  | _ => cases s' <;> exact h

/-! ### Whole cents -/

/-- The relative error of binary64 on the numbers a price can be. -/
theorem abs_double_sub_le {q : ℚ} (h₀ : 0 ≤ q) (h : q = 0 ∨ 1 / 1000 ≤ q) :
    |double q - q| ≤ q / 2 ^ 53 := by
  rcases h with rfl | h
  · rw [double.zero]; norm_num
  · have hmin : binary64.minNormal ≤ |q| := by
      rw [abs_of_nonneg h₀]
      refine le_trans ?_ h
      have : binary64.minNormal ≤ 2 ^ (-10 : ℤ) :=
        zpow_le_zpow_right₀ (one_le_two (α := ℚ)) (by norm_num [binary64])
      exact this.trans (by norm_num)
    have := binary64.abs_round_sub_le hmin
    rw [abs_of_nonneg h₀] at this
    apply this.trans_eq
    rw [zpow_neg, div_eq_mul_inv]
    norm_num [binary64]

/-- The float nearest to whole cents is within a small fraction of a cent. -/
theorem abs_double_cents_le {c : ℤ} (h₀ : 0 ≤ c) :
    |double (c / 100) * 100 - c| ≤ c / 2 ^ 53 := by
  have h₀' : (0 : ℚ) ≤ c := by exact_mod_cast h₀
  have h : (c / 100 : ℚ) = 0 ∨ 1 / 1000 ≤ (c / 100 : ℚ) := by
    rcases h₀.eq_or_lt with rfl | hpos
    · left; norm_num
    · right
      have : (1 : ℚ) ≤ c := by exact_mod_cast hpos
      linarith
  obtain ⟨h₁, h₂⟩ := abs_le.mp (abs_double_sub_le (by positivity) h)
  rw [abs_le]
  constructor <;> linarith

/-- Cents of twelve digits are below `2 ^ 34` units. -/
theorem abs_cents_lt {c : ℤ} (h : |c| < 10 ^ 12) : |(c / 100 : ℚ)| < 2 ^ (34 : ℤ) := by
  have h' : |(c : ℚ)| < 10 ^ 12 := by exact_mod_cast h
  rw [abs_div, abs_of_pos (show (0 : ℚ) < 100 by norm_num), div_lt_iff₀ (by norm_num)]
  exact h'.trans (by norm_num)

/-- The float nearest to such cents is less than a millionth off. -/
theorem abs_double_cents_sub_lt {c : ℤ} (h : |c| < 10 ^ 12) :
    |double (c / 100) - c / 100| < 1 / 1000000 :=
  calc |double (c / 100) - c / 100| ≤ 2 ^ (34 - 53 : ℤ) / 2 :=
        binary64.abs_round_sub_le_of_lt (by decide) (abs_cents_lt h)
    _ < 1 / 1000000 := by norm_num

theorem cents_near {c : ℤ} (h : |c| < 10 ^ 12) : |double (c / 100) * 100 - c| < 1 / 2 := by
  obtain ⟨h₁, h₂⟩ := abs_lt.mp (abs_double_cents_sub_lt h)
  rw [abs_lt]
  constructor <;> linarith

/-- **Printing**: the float nearest to whole cents prints these cents. -/
theorem fixed2_cents {c : ℤ} (h : |c| < 10 ^ 12) :
    fixed2 (.ofNumber (.fin (c / 100))) = .dec c :=
  congrArg DecStr.dec (roundEven_eq_of_near (cents_near h))

/-- A `Decimal` of whole cents goes to Redis as these cents. -/
theorem toDecimalStr_cents {c : ℤ} (h : |c| < 10 ^ 12) :
    toDecimalStr (some (.decimal (.dec c h))) = .dec c := fixed2_cents h

/-- **Storing**: the float nearest to whole cents is stored as these cents. -/
theorem numeric_cents {c : ℤ} (h : |c| < 10 ^ 12) :
    Numeric.ofNumber (.fin (double (c / 100))) = some (.dec c h) := by
  have hround : roundAway (double (c / 100) * 100) = c := roundAway_eq_of_near (cents_near h)
  simp only [Numeric.ofNumber, hround, h, dite_true]

/-- What is stored of the float nearest to whole cents is these cents, if it is stored at all. -/
theorem numeric_of_cents {c : ℤ} (h₀ : 0 ≤ c) {d : Numeric}
    (h : Numeric.ofNumber (.fin (double (c / 100))) = some d) : d.value = .fin (c / 100) := by
  by_cases hc : c < 10 ^ 12
  · rw [numeric_cents (abs_lt.mpr ⟨by linarith, hc⟩), Option.some.injEq] at h
    rw [← h]
    rfl
  · exfalso
    have hlimit : double ((10 ^ 12 : ℤ) / 100) = (10 ^ 12 : ℤ) / 100 := by decide +kernel
    have hcq : ((10 ^ 12 : ℤ) : ℚ) ≤ c := by exact_mod_cast not_lt.mp hc
    have hge : ((10 ^ 12 : ℤ) : ℚ) / 100 ≤ double (c / 100) := by
      rw [← hlimit]
      exact double.mono (div_le_div_of_nonneg_right hcq (by norm_num))
    have hfits := (Numeric.ofNumber_fin_isSome _).mp (Option.isSome_iff_exists.mpr ⟨d, h⟩)
    have hle := (le_abs_self _).trans_lt hfits
    push_cast at hge
    linarith

/-- Different cents have different nearest floats, in order. -/
theorem round_cents_lt {c d : ℤ} (h₀ : 0 ≤ c) (hcd : c < d) (hd : d ≤ 10 ^ 12) :
    double (c / 100) < double (d / 100) := by
  have h₁ : (0 : ℚ) ≤ c := by exact_mod_cast h₀
  have h₂ : (c : ℚ) + 1 ≤ d := by exact_mod_cast hcd
  have h₃ : (d : ℚ) ≤ 10 ^ 12 := by exact_mod_cast hd
  obtain ⟨-, hc⟩ := abs_le.mp (abs_double_cents_le h₀)
  obtain ⟨hd', -⟩ := abs_le.mp (abs_double_cents_le (h₀.trans hcd.le))
  norm_num at hc hd' h₃
  linarith

/-- **The rounded comparison is not generous**: a bid of whole cents that passes Lua's
test against price plus increment is at least their exact sum. -/
theorem cents_add_le {c m a : ℤ} (hc : 0 ≤ c) (hc' : c < 10 ^ 12) (hm : 0 ≤ m)
    (hm' : m < 10 ^ 12) (ha : 0 ≤ a)
    (h : double (double (c / 100) + double (m / 100)) ≤ double (a / 100)) : c + m ≤ a := by
  by_contra hlt
  have hq : (a : ℚ) + 1 ≤ c + m := by exact_mod_cast not_le.mp hlt
  have hcq : (0 : ℚ) ≤ c := by exact_mod_cast hc
  have hmq : (0 : ℚ) ≤ m := by exact_mod_cast hm
  have hcq' : (c : ℚ) < 10 ^ 12 := by exact_mod_cast hc'
  have hmq' : (m : ℚ) < 10 ^ 12 := by exact_mod_cast hm'
  obtain ⟨c₁, c₂⟩ := abs_le.mp (abs_double_cents_le hc)
  obtain ⟨m₁, m₂⟩ := abs_le.mp (abs_double_cents_le hm)
  obtain ⟨a₁, a₂⟩ := abs_le.mp (abs_double_cents_le ha)
  norm_num at c₁ c₂ m₁ m₂ a₁ a₂ hcq' hmq'
  have hsum : 1 / 1000 ≤ double (c / 100) + double (m / 100) := by linarith
  obtain ⟨s₁, -⟩ := abs_le.mp (abs_double_sub_le (by linarith) (Or.inr hsum))
  norm_num at s₁
  linarith

end OnlineAuction.Store
