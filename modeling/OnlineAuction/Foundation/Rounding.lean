import Mathlib.Data.Int.Log
import Mathlib.Data.Rat.Floor
import Mathlib.Algebra.Order.Round
import Mathlib.Algebra.Order.Field.Power
import Mathlib.Algebra.Ring.Int.Parity
import Mathlib.Tactic.Linarith
import Mathlib.Tactic.NormNum
import Mathlib.Tactic.Ring
import Mathlib.Tactic.Positivity

/-!
# Rounding rationals to a binary floating-point format

A binary floating-point format keeps the rationals `n * 2 ^ e` whose significand
`n` has at most `prec` bits and whose exponent `e` is at least `emin`. This module
defines rounding to the nearest integer with ties to even (`roundEven`) and with
ties away from zero (`roundAway`), and from the first the rounding of a rational to
a format (`Format.round`), all computable. A `Rounding` is any monotone idempotent
map of the rationals, exact arithmetic among them, and a `Number` is the value of an
IEEE datum: a NaN, an infinity or a rational.

## What is proved

* `roundEven_spec` and `roundEven_unique` — `roundEven q` is the only integer nearer
  to `q` than one half, or even at one half exactly.
* `Format.round_of_grid` and `Format.round_idem` — a rational on the format's grid is
  kept, so rounding twice is rounding once.
* `Format.round_mono` — rounding is monotone.
* `Format.abs_round_sub_le` — the relative error is at most `2 ^ (-prec)` above the
  subnormal range.

## Honest scope

The exponent has no upper limit, so nothing overflows to an infinity; signed zeros
are one zero.
-/

namespace OnlineAuction.Foundation

/-! ### Nearest integers -/

/-- The nearest integer, ties to the even one. -/
def roundEven (q : ℚ) : ℤ :=
  if q - ⌊q⌋ < 1 / 2 then ⌊q⌋ else if 1 / 2 < q - ⌊q⌋ then ⌊q⌋ + 1
  else if Even ⌊q⌋ then ⌊q⌋ else ⌊q⌋ + 1

/-- The nearest integer, ties away from zero. -/
def roundAway (q : ℚ) : ℤ := if 0 ≤ q then round q else -round (-q)

/-- What nearest with ties to even says of an integer. -/
def NearestEven (q : ℚ) (n : ℤ) : Prop := |q - n| < 1 / 2 ∨ (|q - n| = 1 / 2 ∧ Even n)

theorem roundEven_spec (q : ℚ) : NearestEven q (roundEven q) := by
  have h₀ : (⌊q⌋ : ℚ) ≤ q := Int.floor_le q
  have h₁ : q < ⌊q⌋ + 1 := Int.lt_floor_add_one q
  unfold roundEven NearestEven
  split_ifs with hlt hgt heven
  · left; rw [abs_of_nonneg (by linarith)]; exact hlt
  · left; push_cast; rw [abs_of_nonpos (by linarith)]; linarith
  · exact Or.inr ⟨by rw [abs_of_nonneg (by linarith)]; linarith, heven⟩
  · refine Or.inr ⟨by push_cast; rw [abs_of_nonpos (by linarith)]; linarith, ?_⟩
    exact Int.even_add_one.mpr heven

/-- **Nearest with ties to even is unique.** Two such integers are less than one
apart, or one apart with the rational half-way and both even. -/
theorem nearestEven_unique {q : ℚ} {m n : ℤ} (hm : NearestEven q m) (hn : NearestEven q n) :
    m = n := by
  have key : ∀ {a b : ℤ}, NearestEven q a → NearestEven q b → ¬ a < b := by
    intro a b ha hb hab
    have hab' : (a : ℚ) + 1 ≤ b := by exact_mod_cast hab
    have hle : |q - a| ≤ 1 / 2 := by rcases ha with h | h <;> linarith [h]
    have hle' : |q - b| ≤ 1 / 2 := by rcases hb with h | h <;> linarith [h]
    obtain ⟨-, h₁⟩ := abs_le.mp hle
    obtain ⟨h₂, -⟩ := abs_le.mp hle'
    have hqa : q - a = 1 / 2 := by linarith
    have hqb : q - b = -(1 / 2) := by linarith
    have hea : Even a := by
      rcases ha with h | h
      · rw [hqa, abs_of_pos (by norm_num)] at h; exact absurd h (lt_irrefl _)
      · exact h.2
    have heb : Even b := by
      rcases hb with h | h
      · rw [hqb, abs_neg, abs_of_pos (by norm_num)] at h; exact absurd h (lt_irrefl _)
      · exact h.2
    have hstep : b = a + 1 := by
      have : (b : ℚ) = a + 1 := by linarith
      exact_mod_cast this
    rw [hstep, Int.even_add_one] at heb
    exact heb hea
  rcases lt_trichotomy m n with h | h | h
  · exact absurd h (key hm hn)
  · exact h
  · exact absurd h (key hn hm)

theorem roundEven_unique {q : ℚ} {n : ℤ} (h : NearestEven q n) : roundEven q = n :=
  nearestEven_unique (roundEven_spec q) h

theorem roundEven_eq_of_near {q : ℚ} {n : ℤ} (h : |q - n| < 1 / 2) : roundEven q = n :=
  roundEven_unique (Or.inl h)

@[simp] theorem roundEven_intCast (n : ℤ) : roundEven (n : ℚ) = n :=
  roundEven_eq_of_near (by simp)

theorem abs_sub_roundEven_le (q : ℚ) : |q - roundEven q| ≤ 1 / 2 := by
  rcases roundEven_spec q with h | h
  · exact h.le
  · exact h.1.le

/-- No integer is nearer. -/
theorem abs_sub_roundEven_le_abs (q : ℚ) (n : ℤ) : |q - roundEven q| ≤ |q - n| := by
  by_cases hn : n = roundEven q
  · rw [hn]
  · have hone : (1 : ℚ) ≤ |(n : ℚ) - roundEven q| := by
      have : (1 : ℤ) ≤ |n - roundEven q| := Int.one_le_abs (sub_ne_zero.mpr hn)
      exact_mod_cast this
    have htri : |(n : ℚ) - roundEven q| ≤ |q - n| + |q - roundEven q| := by
      have := abs_sub_le (n : ℚ) q (roundEven q)
      rwa [abs_sub_comm (n : ℚ) q] at this
    linarith [abs_sub_roundEven_le q]

theorem roundEven_neg (q : ℚ) : roundEven (-q) = -roundEven q := by
  apply roundEven_unique
  have hflip : |-q - (-roundEven q : ℤ)| = |q - roundEven q| := by
    rw [← abs_neg]; congr 1; push_cast; ring
  unfold NearestEven
  rw [hflip, even_neg]
  exact roundEven_spec q

theorem roundEven_mono {q r : ℚ} (h : q ≤ r) : roundEven q ≤ roundEven r := by
  by_contra hlt
  have hlt' : (roundEven r : ℚ) + 1 ≤ roundEven q := by exact_mod_cast not_le.mp hlt
  obtain ⟨h₁, -⟩ := abs_le.mp (abs_sub_roundEven_le q)
  obtain ⟨-, h₂⟩ := abs_le.mp (abs_sub_roundEven_le r)
  have hqr : q = r := by linarith
  rw [hqr] at hlt'
  linarith

theorem roundAway_of_nonneg {q : ℚ} (h : 0 ≤ q) : roundAway q = ⌊q + 1 / 2⌋ := by
  rw [roundAway, if_pos h, round_eq]

theorem roundAway_nonneg {q : ℚ} (h : 0 ≤ q) : 0 ≤ roundAway q := by
  rw [roundAway_of_nonneg h]
  exact Int.floor_nonneg.mpr (by linarith)

/-- Ties away from zero round a half up. -/
theorem roundAway_pos_iff {q : ℚ} (h : 0 ≤ q) : 0 < roundAway q ↔ 1 / 2 ≤ q := by
  rw [roundAway_of_nonneg h, Int.lt_iff_add_one_le, Int.le_floor]
  push_cast
  constructor <;> intro h <;> linarith

/-- Ties away from zero round the magnitude, whatever the sign. -/
theorem abs_roundAway (q : ℚ) : |roundAway q| = roundAway |q| := by
  have key : ∀ r : ℚ, 0 ≤ r → |roundAway r| = roundAway r := fun r hr =>
    abs_of_nonneg (roundAway_nonneg hr)
  rcases le_or_gt 0 q with h | h
  · rw [abs_of_nonneg h, key q h]
  · have hflip : roundAway q = -roundAway (-q) := by
      rw [roundAway, if_neg (not_le.mpr h), roundAway, if_pos (by linarith)]
    rw [abs_of_neg h, hflip, abs_neg, key _ (by linarith)]

theorem abs_roundAway_lt_iff (q : ℚ) (n : ℤ) : |roundAway q| < n ↔ |q| < n - 1 / 2 := by
  rw [abs_roundAway, roundAway_of_nonneg (abs_nonneg q), Int.floor_lt, lt_sub_iff_add_lt]

theorem roundAway_eq_of_near {q : ℚ} {n : ℤ} (h : |q - n| < 1 / 2) : roundAway q = n := by
  obtain ⟨h₁, h₂⟩ := abs_lt.mp h
  unfold roundAway
  split_ifs
  · rw [round_eq, Int.floor_eq_iff]
    constructor <;> linarith
  · rw [round_eq, neg_eq_iff_eq_neg, Int.floor_eq_iff]
    push_cast
    constructor <;> linarith

/-- The rational is half-way above an even integer. -/
def EvenTie (q : ℚ) : Prop := q = ⌊q⌋ + 1 / 2 ∧ Even ⌊q⌋

instance (q : ℚ) : Decidable (EvenTie q) := inferInstanceAs (Decidable (_ ∧ _))

/-- **The two roundings agree** on a rational that is not negative, unless it is half-way above an even
integer. -/
theorem roundEven_eq_roundAway_iff {q : ℚ} (h : 0 ≤ q) : roundEven q = roundAway q ↔ ¬ EvenTie q := by
  have hlow := Int.floor_le q
  have hhigh := Int.lt_floor_add_one q
  rw [roundAway_of_nonneg h]
  unfold EvenTie
  rcases lt_trichotomy q (⌊q⌋ + 1 / 2) with hlt | heq | hgt
  · have hnear : |q - ⌊q⌋| < 1 / 2 := by rw [abs_of_nonneg (by linarith)]; linarith
    have hfloor : ⌊q + 1 / 2⌋ = ⌊q⌋ := by
      rw [Int.floor_eq_iff]
      constructor <;> linarith
    rw [roundEven_eq_of_near hnear, hfloor]
    exact iff_of_true rfl fun htie => absurd htie.1 hlt.ne
  · have hfloor : ⌊q + 1 / 2⌋ = ⌊q⌋ + 1 := by
      rw [Int.floor_eq_iff]
      push_cast
      constructor <;> linarith
    rw [hfloor]
    by_cases heven : Even ⌊q⌋
    · have hround : roundEven q = ⌊q⌋ :=
        roundEven_unique (Or.inr ⟨by rw [abs_of_nonneg (by linarith)]; linarith, heven⟩)
      rw [hround]
      exact iff_of_false (by omega) (not_not.mpr ⟨heq, heven⟩)
    · have hround : roundEven q = ⌊q⌋ + 1 := by
        refine roundEven_unique (Or.inr ⟨?_, Int.even_add_one.mpr heven⟩)
        push_cast
        rw [abs_of_nonpos (by linarith)]
        linarith
      exact iff_of_true hround fun htie => heven htie.2
  · have hnear : |q - (⌊q⌋ + 1 : ℤ)| < 1 / 2 := by
      push_cast
      rw [abs_of_nonpos (by linarith)]
      linarith
    have hfloor : ⌊q + 1 / 2⌋ = ⌊q⌋ + 1 := by
      rw [Int.floor_eq_iff]
      push_cast
      constructor <;> linarith
    rw [roundEven_eq_of_near hnear, hfloor]
    exact iff_of_true rfl fun htie => absurd htie.1 hgt.ne'

/-! ### Formats -/

/-- A binary format: the number of bits of its significands and its least exponent. -/
structure Format where
  /-- How many bits a significand has. -/
  prec : ℕ
  /-- The least exponent. -/
  emin : ℤ
  /-- A significand has at least one bit. -/
  prec_pos : 0 < prec

/-- IEEE 754 binary64. -/
def binary64 : Format := ⟨53, -1074, by decide⟩

namespace Format

variable (F : Format)

/-- The exponent of the grid on which `q` is rounded. -/
def expo (q : ℚ) : ℤ := max (Int.log 2 |q| + 1 - F.prec) F.emin

/-- **Rounding to the format**: to the nearest multiple of `2 ^ expo q`, ties to even. -/
def round (q : ℚ) : ℚ := roundEven (q / 2 ^ F.expo q) * 2 ^ F.expo q

theorem two_zpow_pos (e : ℤ) : (0 : ℚ) < 2 ^ e := by positivity

@[simp] theorem round_zero : F.round 0 = 0 := by
  have h := roundEven_intCast 0
  rw [Int.cast_zero] at h
  simp [round, h]

@[simp] theorem expo_neg (q : ℚ) : F.expo (-q) = F.expo q := by simp [expo]

theorem round_neg (q : ℚ) : F.round (-q) = -F.round q := by
  unfold round
  rw [expo_neg, neg_div, roundEven_neg]
  push_cast; ring

/-- A rational on the grid `2 ^ e`, with `e` at least its own exponent, is kept. -/
theorem round_of_grid {q : ℚ} {n e : ℤ} (hq : q = n * 2 ^ e) (he : F.expo q ≤ e) :
    F.round q = q := by
  obtain ⟨k, hk⟩ := Int.eq_ofNat_of_zero_le (sub_nonneg.mpr he)
  have hscale : q / 2 ^ F.expo q = ((n * 2 ^ k : ℤ) : ℚ) := by
    rw [hq, mul_div_assoc, ← zpow_sub₀ (by norm_num), ← hq, hk]
    push_cast; rfl
  rw [round, hscale, roundEven_intCast, ← hscale, div_mul_cancel₀ _ (two_zpow_pos _).ne']

/-- Rounding moves a rational by at most half a grid step. -/
theorem abs_round_sub_le_grid (q : ℚ) : |F.round q - q| ≤ 2 ^ F.expo q / 2 := by
  have hpos := two_zpow_pos (F.expo q)
  have h := abs_sub_roundEven_le (q / 2 ^ F.expo q)
  have hq : F.round q - q = (roundEven (q / 2 ^ F.expo q) - q / 2 ^ F.expo q) * 2 ^ F.expo q := by
    rw [sub_mul, div_mul_cancel₀ _ hpos.ne', round]
  rw [hq, abs_mul, abs_of_pos hpos, abs_sub_comm]
  calc |q / 2 ^ F.expo q - roundEven (q / 2 ^ F.expo q)| * 2 ^ F.expo q
      ≤ 1 / 2 * 2 ^ F.expo q := mul_le_mul_of_nonneg_right h hpos.le
    _ = 2 ^ F.expo q / 2 := by ring

/-- **The absolute error** below a power of two that is not subnormal. -/
theorem abs_round_sub_le_of_lt {q : ℚ} {k : ℤ} (hk : F.emin + F.prec ≤ k) (hq : |q| < 2 ^ k) :
    |F.round q - q| ≤ 2 ^ (k - F.prec) / 2 := by
  rcases eq_or_ne q 0 with rfl | hne
  · rw [round_zero, sub_zero, abs_zero]
    positivity
  · have hlog : Int.log 2 |q| < k :=
      (Int.lt_zpow_iff_log_lt one_lt_two (abs_pos.mpr hne)).mp (by exact_mod_cast hq)
    have hexpo : F.expo q ≤ k - F.prec := max_le (by omega) (by omega)
    calc |F.round q - q| ≤ 2 ^ F.expo q / 2 := F.abs_round_sub_le_grid q
      _ ≤ 2 ^ (k - F.prec) / 2 := by gcongr; exact one_le_two

/-- On its grid, rounding is to the nearest point. -/
theorem abs_round_sub_le_abs_of_grid {q g : ℚ} {n e : ℤ} (hg : g = n * 2 ^ e) (he : F.expo q ≤ e) :
    |F.round q - q| ≤ |g - q| := by
  obtain ⟨k, hk⟩ := Int.eq_ofNat_of_zero_le (sub_nonneg.mpr he)
  have hpos := two_zpow_pos (F.expo q)
  have hscale : g / 2 ^ F.expo q = ((n * 2 ^ k : ℤ) : ℚ) := by
    rw [hg, mul_div_assoc, ← zpow_sub₀ (by norm_num), hk]
    push_cast; rfl
  have hfactor : ∀ r : ℚ, |r * 2 ^ F.expo q - q| = |q / 2 ^ F.expo q - r| * 2 ^ F.expo q := by
    intro r
    rw [← abs_of_pos hpos, ← abs_mul, abs_of_pos hpos, sub_mul, div_mul_cancel₀ _ hpos.ne',
      abs_sub_comm]
  have hgrid : g = ((n * 2 ^ k : ℤ) : ℚ) * 2 ^ F.expo q := by
    rw [← hscale, div_mul_cancel₀ _ hpos.ne']
  rw [round, hfactor, hgrid, hfactor]
  exact mul_le_mul_of_nonneg_right (abs_sub_roundEven_le_abs _ _) hpos.le

/-- **Rounding is to the nearest kept rational**: one off the grid is below the power of two
that bounds the grid from below, which is on it and nearer. -/
theorem abs_round_sub_le_abs {q g : ℚ} (hg : F.round g = g) : |F.round q - q| ≤ |g - q| := by
  have hself : g = (roundEven (g / 2 ^ F.expo g) : ℤ) * 2 ^ F.expo g := hg.symm
  by_cases hq : q = 0
  · rw [hq, round_zero, sub_zero, abs_zero]
    exact abs_nonneg _
  rcases le_or_gt (F.expo q) (F.expo g) with he | he
  · exact F.abs_round_sub_le_abs_of_grid hself he
  · have hprec := F.prec_pos
    have hlog : Int.log 2 |g| < Int.log 2 |q| := by unfold expo at he; omega
    have hexpo : F.expo q ≤ Int.log 2 |q| := by unfold expo at he ⊢; omega
    have hlow : (2 : ℚ) ^ Int.log 2 |q| ≤ |q| := by
      exact_mod_cast Int.zpow_log_le_self one_lt_two (abs_pos.mpr hq)
    have hhigh : |g| ≤ (2 : ℚ) ^ Int.log 2 |q| := by
      have hsucc : |g| < (2 : ℚ) ^ (Int.log 2 |g| + 1) := by
        exact_mod_cast Int.lt_zpow_succ_log_self (b := 2) one_lt_two |g|
      exact hsucc.le.trans (zpow_le_zpow_right₀ one_le_two (by omega))
    have hfar : |q| - 2 ^ Int.log 2 |q| ≤ |g - q| := by
      have := abs_sub_abs_le_abs_sub q g
      rw [abs_sub_comm] at this
      linarith
    refine le_trans ?_ hfar
    rcases le_or_gt 0 q with h | h
    · have hnear := F.abs_round_sub_le_abs_of_grid (q := q) (g := 2 ^ Int.log 2 |q|) (n := 1)
        (by rw [Int.cast_one, one_mul]) hexpo
      rw [abs_of_nonneg h] at hlow hnear ⊢
      rwa [abs_sub_comm _ q, abs_sub_comm _ q, abs_of_nonneg (sub_nonneg.mpr hlow),
        abs_sub_comm] at hnear
    · have hnear := F.abs_round_sub_le_abs_of_grid (q := q) (g := -2 ^ Int.log 2 |q|) (n := -1)
        (by rw [Int.cast_neg, Int.cast_one, neg_one_mul]) hexpo
      rw [abs_of_neg h] at hlow hnear ⊢
      rw [abs_of_nonneg (by linarith : (0 : ℚ) ≤ -2 ^ Int.log 2 (-q) - q)] at hnear
      linarith

/-- The least positive rational rounded with full precision. -/
def minNormal : ℚ := 2 ^ (F.emin + F.prec - 1)

/-- **The relative error**: above the subnormal range, at most `2 ^ (-prec)`. -/
theorem abs_round_sub_le {q : ℚ} (hq : F.minNormal ≤ |q|) :
    |F.round q - q| ≤ |q| * 2 ^ (-(F.prec : ℤ)) := by
  have hpos : 0 < |q| := lt_of_lt_of_le (two_zpow_pos _) hq
  have hlog : F.emin + F.prec - 1 ≤ Int.log 2 |q| :=
    (Int.zpow_le_iff_le_log one_lt_two hpos).mp (by exact_mod_cast hq)
  have hexpo : F.expo q = Int.log 2 |q| + 1 - F.prec := max_eq_left (by omega)
  have hpow : (2 : ℚ) ^ Int.log 2 |q| ≤ |q| := by
    exact_mod_cast Int.zpow_log_le_self one_lt_two hpos
  calc |F.round q - q| ≤ 2 ^ F.expo q / 2 := F.abs_round_sub_le_grid q
    _ = 2 ^ Int.log 2 |q| * 2 ^ (-(F.prec : ℤ)) := by
      rw [hexpo, show Int.log 2 |q| + 1 - F.prec = Int.log 2 |q| + -(F.prec : ℤ) + 1 by ring,
        zpow_add₀ two_ne_zero, zpow_add₀ two_ne_zero]
      simp
    _ ≤ |q| * 2 ^ (-(F.prec : ℤ)) := mul_le_mul_of_nonneg_right hpow (two_zpow_pos _).le

/-- A grid point of `q`'s grid above `q` is above its rounding. -/
theorem round_le_of_grid {q g : ℚ} {n e : ℤ} (hg : g = n * 2 ^ e) (he : F.expo q ≤ e)
    (h : q ≤ g) : F.round q ≤ g := by
  obtain ⟨k, hk⟩ := Int.eq_ofNat_of_zero_le (sub_nonneg.mpr he)
  have hpos := two_zpow_pos (F.expo q)
  have hscale : g / 2 ^ F.expo q = ((n * 2 ^ k : ℤ) : ℚ) := by
    rw [hg, mul_div_assoc, ← zpow_sub₀ (by norm_num), hk]
    push_cast; rfl
  have hle : roundEven (q / 2 ^ F.expo q) ≤ n * 2 ^ k := by
    rw [← roundEven_intCast (n * 2 ^ k), ← hscale]
    exact roundEven_mono (div_le_div_of_nonneg_right h hpos.le)
  calc F.round q ≤ ((n * 2 ^ k : ℤ) : ℚ) * 2 ^ F.expo q :=
        mul_le_mul_of_nonneg_right (by exact_mod_cast hle) hpos.le
    _ = g := by rw [← hscale, div_mul_cancel₀ _ hpos.ne']

/-- A grid point of `q`'s grid below `q` is below its rounding. -/
theorem le_round_of_grid {q g : ℚ} {n e : ℤ} (hg : g = n * 2 ^ e) (he : F.expo q ≤ e)
    (h : g ≤ q) : g ≤ F.round q := by
  have := F.round_le_of_grid (q := -q) (g := -g) (n := -n) (e := e) (by rw [hg]; push_cast; ring)
    (by rw [expo_neg]; exact he) (neg_le_neg h)
  rw [round_neg] at this
  exact neg_le_neg_iff.mp this

theorem expo_mono {q r : ℚ} (hq : 0 < q) (h : q ≤ r) : F.expo q ≤ F.expo r := by
  have : Int.log 2 |q| ≤ Int.log 2 |r| := by
    rw [abs_of_pos hq, abs_of_pos (hq.trans_le h)]
    exact Int.log_mono_right hq h
  unfold expo
  omega

theorem round_nonneg {q : ℚ} (h : 0 ≤ q) : 0 ≤ F.round q :=
  F.le_round_of_grid (n := 0) (e := F.expo q) (by simp) le_rfl h

/-- Rounding is monotone on the positive rationals: on one grid because the nearest
integer is, across grids because the power of two between them is on both. -/
theorem round_mono_of_pos {q r : ℚ} (hq : 0 < q) (h : q ≤ r) : F.round q ≤ F.round r := by
  rcases (F.expo_mono hq h).eq_or_lt with heq | hlt
  · have hpos := two_zpow_pos (F.expo r)
    unfold round
    rw [heq]
    exact mul_le_mul_of_nonneg_right
      (by exact_mod_cast roundEven_mono (div_le_div_of_nonneg_right h hpos.le)) hpos.le
  · have hr : 0 < r := hq.trans_le h
    have hprec := F.prec_pos
    have hlog : Int.log 2 |q| < Int.log 2 |r| := by unfold expo at hlt; omega
    have hexpo : F.expo r = Int.log 2 |r| + 1 - F.prec := by
      unfold expo at hlt ⊢; exact max_eq_left (by omega)
    have hgrid : (2 : ℚ) ^ Int.log 2 |r| = (1 : ℤ) * 2 ^ Int.log 2 |r| := by simp
    have hlow : (2 : ℚ) ^ Int.log 2 |r| ≤ r := by
      have := Int.zpow_log_le_self (b := 2) (r := |r|) one_lt_two (by rwa [abs_of_pos hr])
      rw [abs_of_pos hr] at this ⊢
      exact_mod_cast this
    have hhigh : q ≤ (2 : ℚ) ^ Int.log 2 |r| := by
      have := Int.lt_zpow_succ_log_self (b := 2) one_lt_two |q|
      rw [abs_of_pos hq] at this hlog
      refine (this.trans_le ?_).le
      exact_mod_cast zpow_le_zpow_right₀ (one_le_two (α := ℚ)) (by omega)
    exact (F.round_le_of_grid hgrid (by omega) hhigh).trans
      (F.le_round_of_grid hgrid (by omega) hlow)

/-- **Rounding is monotone.** -/
theorem round_mono {q r : ℚ} (h : q ≤ r) : F.round q ≤ F.round r := by
  rcases lt_trichotomy q 0 with hq | rfl | hq
  · rcases lt_or_ge r 0 with hr | hr
    · have := F.round_mono_of_pos (q := -r) (r := -q) (by linarith) (neg_le_neg h)
      rwa [round_neg, round_neg, neg_le_neg_iff] at this
    · have h₁ := F.round_nonneg (q := -q) (by linarith)
      rw [round_neg] at h₁
      linarith [F.round_nonneg hr]
  · rw [round_zero]; exact F.round_nonneg h
  · exact F.round_mono_of_pos hq h

/-- A rational is at most the power of two `prec` bits above its grid. -/
theorem abs_le_zpow (q : ℚ) : |q| ≤ 2 ^ (F.expo q + F.prec) := by
  have hlog : Int.log 2 |q| + 1 ≤ F.expo q + F.prec := by unfold expo; omega
  refine (le_of_lt ?_ : |q| ≤ 2 ^ (Int.log 2 |q| + 1)).trans
    (zpow_le_zpow_right₀ (one_le_two (α := ℚ)) hlog)
  exact_mod_cast Int.lt_zpow_succ_log_self (b := 2) one_lt_two |q|

/-- So is its rounding: that power of two is on the grid. -/
theorem abs_round_le_zpow (q : ℚ) : |F.round q| ≤ 2 ^ (F.expo q + F.prec) := by
  have hgrid : (2 : ℚ) ^ (F.expo q + F.prec) = (1 : ℤ) * 2 ^ (F.expo q + F.prec) := by simp
  obtain ⟨h₁, h₂⟩ := abs_le.mp (F.abs_le_zpow q)
  rw [abs_le]
  constructor
  · have := F.round_le_of_grid (q := -q) hgrid (by rw [expo_neg]; omega) (by linarith)
    rw [round_neg] at this
    linarith
  · exact F.round_le_of_grid hgrid (by omega) h₂

/-- **Rounding twice is rounding once.** A rounded value lies on the grid it was
rounded on, and only a carry to the next power of two makes its own grid coarser. -/
theorem round_idem (q : ℚ) : F.round (F.round q) = F.round q := by
  by_cases hz : F.round q = 0
  · rw [hz, round_zero]
  have hprec := F.prec_pos
  have hmin : F.emin ≤ F.expo q := le_max_right _ _
  rcases (F.abs_round_le_zpow q).eq_or_lt with heq | hlt
  · have hlog : Int.log 2 |F.round q| = F.expo q + F.prec := by
      rw [heq]; exact_mod_cast Int.log_zpow (R := ℚ) one_lt_two (F.expo q + F.prec)
    have hexpo : F.expo (F.round q) ≤ F.expo q + F.prec := by
      rw [expo, hlog]; omega
    rcases abs_eq_abs.mp (heq.trans (abs_of_pos (two_zpow_pos _)).symm) with h | h
    · exact F.round_of_grid (n := 1) (by rw [h]; simp) hexpo
    · exact F.round_of_grid (n := -1) (by rw [h]; simp) hexpo
  · have hlog : Int.log 2 |F.round q| < F.expo q + F.prec := by
      apply (Int.lt_zpow_iff_log_lt one_lt_two (abs_pos.mpr hz)).mp
      exact_mod_cast hlt
    refine F.round_of_grid rfl ?_
    rw [expo]
    omega

/-- An integer of at most `prec` bits is kept. -/
theorem round_intCast {n : ℤ} (hmin : F.emin ≤ 0) (hn : |n| ≤ 2 ^ (F.prec - 1)) :
    F.round n = n := by
  have hprec := F.prec_pos
  have habs : |(n : ℚ)| < 2 ^ (F.prec : ℤ) := by
    have h₁ : |(n : ℚ)| ≤ 2 ^ (F.prec - 1) := by exact_mod_cast hn
    have h₂ : (2 : ℚ) ^ (F.prec - 1) < 2 ^ F.prec := pow_lt_pow_right₀ one_lt_two (by omega)
    exact h₁.trans_lt (by exact_mod_cast h₂)
  by_cases hz : n = 0
  · rw [hz, Int.cast_zero, round_zero]
  · have hpos : 0 < |(n : ℚ)| := abs_pos.mpr (by exact_mod_cast hz)
    have hlog : Int.log 2 |(n : ℚ)| < F.prec :=
      (Int.lt_zpow_iff_log_lt one_lt_two hpos).mp (by exact_mod_cast habs)
    refine F.round_of_grid (n := n) (e := 0) (by simp) ?_
    unfold expo
    omega

/-- **The integers next to a kept rational are kept**: either the rational's grid is at
least as coarse as the integers, or they have few bits. -/
theorem round_next_int {q : ℚ} (hq : F.round q = q) {n : ℤ} (hn : n = ⌊q⌋ ∨ n = ⌈q⌉) :
    F.round n = n := by
  rcases le_or_gt 0 (F.expo q) with he | he
  · obtain ⟨k, hk⟩ := Int.eq_ofNat_of_zero_le he
    have hint : q = ((roundEven (q / 2 ^ F.expo q) * 2 ^ k : ℤ) : ℚ) := by
      have hpow : (2 : ℚ) ^ F.expo q = 2 ^ k := by rw [hk]; exact zpow_natCast 2 k
      calc q = roundEven (q / 2 ^ F.expo q) * 2 ^ F.expo q := hq.symm
        _ = ((roundEven (q / 2 ^ F.expo q) * 2 ^ k : ℤ) : ℚ) := by rw [hpow]; push_cast; rfl
    have hnq : (n : ℚ) = q := by
      rw [hint] at hn ⊢
      rw [Int.floor_intCast, Int.ceil_intCast, or_self] at hn
      rw [hn]
    rw [hnq, hq]
  · have hmin : F.emin ≤ 0 := (le_max_right _ _).trans he.le
    have hprec := F.prec_pos
    have hle : |q| ≤ ((2 ^ (F.prec - 1) : ℤ) : ℚ) := by
      apply (F.abs_le_zpow q).trans
      have : (2 : ℚ) ^ (F.expo q + F.prec) ≤ 2 ^ ((F.prec - 1 : ℕ) : ℤ) :=
        zpow_le_zpow_right₀ (one_le_two (α := ℚ)) (by omega)
      apply this.trans_eq
      push_cast
      exact zpow_natCast 2 _
    obtain ⟨h₁, h₂⟩ := abs_le.mp hle
    refine F.round_intCast hmin (abs_le.mpr ?_)
    rcases hn with rfl | rfl
    · exact ⟨Int.le_floor.mpr (by push_cast at h₁ ⊢; exact h₁),
        by exact_mod_cast (Int.floor_le q).trans h₂⟩
    · exact ⟨by exact_mod_cast h₁.trans (Int.le_ceil q), Int.ceil_le.mpr h₂⟩

end Format

/-! ### Roundings and numbers -/

/-- A rounding of the rationals: monotone, and the identity on the values it takes. -/
structure Rounding where
  /-- The value a rational is rounded to. -/
  rnd : ℚ → ℚ
  /-- Rounding is monotone. -/
  mono : ∀ {q r : ℚ}, q ≤ r → rnd q ≤ rnd r
  /-- Rounding twice is rounding once. -/
  idem : ∀ q : ℚ, rnd (rnd q) = rnd q
  /-- Zero is kept. -/
  zero : rnd 0 = 0

instance : CoeFun Rounding fun _ => ℚ → ℚ := ⟨Rounding.rnd⟩

/-- No rounding at all: exact arithmetic. -/
def Rounding.exact : Rounding := ⟨id, fun h => h, fun _ => rfl, rfl⟩

/-- The rounding to a format. -/
def Format.rounding (F : Format) : Rounding := ⟨F.round, F.round_mono, F.round_idem, F.round_zero⟩

theorem Rounding.nonneg (R : Rounding) {q : ℚ} (h : 0 ≤ q) : 0 ≤ R q := R.zero ▸ R.mono h

/-- An IEEE datum by its value: a NaN, an infinity or a rational. -/
inductive Number where
  /-- Not a number. -/
  | nan
  /-- Negative infinity. -/
  | negInf
  /-- Positive infinity. -/
  | posInf
  /-- A rational. -/
  | fin (q : ℚ)
  deriving DecidableEq

namespace Number

/-- `x < y`; every comparison with a NaN is false. -/
def lt : Number → Number → Bool
  | .fin q, .fin r => decide (q < r)
  | .negInf, .fin _ | .negInf, .posInf | .fin _, .posInf => true
  | _, _ => false

/-- `x <= y`; every comparison with a NaN is false. -/
def le : Number → Number → Bool
  | .fin q, .fin r => decide (q ≤ r)
  | .negInf, .negInf | .negInf, .fin _ | .negInf, .posInf => true
  | .fin _, .posInf | .posInf, .posInf => true
  | _, _ => false

instance : LT Number := ⟨fun x y => x.lt y = true⟩

instance : LE Number := ⟨fun x y => x.le y = true⟩

instance (x y : Number) : Decidable (x < y) := inferInstanceAs (Decidable (x.lt y = true))

instance (x y : Number) : Decidable (x ≤ y) := inferInstanceAs (Decidable (x.le y = true))

@[simp] theorem fin_lt_fin {q r : ℚ} : fin q < fin r ↔ q < r := by
  show decide (q < r) = true ↔ _
  exact decide_eq_true_iff

@[simp] theorem fin_le_fin {q r : ℚ} : fin q ≤ fin r ↔ q ≤ r := by
  show decide (q ≤ r) = true ↔ _
  exact decide_eq_true_iff

@[simp] theorem not_nan_lt (x : Number) : ¬ nan < x := by
  cases x <;> exact Bool.false_ne_true

@[simp] theorem not_lt_nan (x : Number) : ¬ x < nan := by
  cases x <;> exact Bool.false_ne_true

@[simp] theorem not_nan_le (x : Number) : ¬ nan ≤ x := by
  cases x <;> exact Bool.false_ne_true

@[simp] theorem not_le_nan (x : Number) : ¬ x ≤ nan := by
  cases x <;> exact Bool.false_ne_true

theorem le_trans {x y z : Number} (h : x ≤ y) (h' : y ≤ z) : x ≤ z := by
  change x.le y = true at h
  change y.le z = true at h'
  change x.le z = true
  cases x <;> cases y <;> cases z <;> simp only [le, Bool.false_eq_true, decide_eq_true_eq] at h h' ⊢
  exact h.trans h'

theorem le_antisymm {x y : Number} (h : x ≤ y) (h' : y ≤ x) : x = y := by
  change x.le y = true at h
  change y.le x = true at h'
  cases x <;> cases y <;> simp only [le, Bool.false_eq_true, decide_eq_true_eq] at h h' ⊢
  exact congrArg fin (h.antisymm h')

/-- Keep a number, its rational rounded. -/
def round (R : Rounding) : Number → Number
  | .fin q => .fin (R q)
  | x => x

@[simp] theorem round_fin (R : Rounding) (q : ℚ) : (fin q).round R = fin (R q) := rfl

theorem round_idem (R : Rounding) (x : Number) : (x.round R).round R = x.round R := by
  cases x <;> simp [round, R.idem]

/-- The sum, rounded. -/
def add (R : Rounding) : Number → Number → Number
  | .fin q, .fin r => .fin (R (q + r))
  | .fin _, .posInf | .posInf, .fin _ | .posInf, .posInf => .posInf
  | .fin _, .negInf | .negInf, .fin _ | .negInf, .negInf => .negInf
  | _, _ => .nan

@[simp] theorem add_fin (R : Rounding) (q r : ℚ) : (fin q).add R (fin r) = fin (R (q + r)) := rfl

end Number

end OnlineAuction.Foundation
