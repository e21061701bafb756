import OnlineAuction.Foundation.Rounding

/-!
# Neighbouring kept numbers

A sum of rounded numbers is rounded again. Whether the result lies above a number `g` that the format
keeps depends on where the sum lies between `g` and the kept number next to it.

## What is proved

* `lt_roundEven_iff` — when the nearest integer is above a given one.
* `Format.lt_round_iff` — a rational is rounded above `g` exactly when it is past the middle between
  `g` and its neighbour, or in the middle with an odd significand of `g`.
-/

namespace OnlineAuction.Foundation

/-- **The nearest integer is above `n`** past the middle between `n` and `n + 1`, and in the middle
if `n` is odd. -/
theorem lt_roundEven_iff {x : ℚ} {n : ℤ} :
    n < roundEven x ↔ 1 / 2 < x - n ∨ x - n = 1 / 2 ∧ Odd n := by
  obtain ⟨hlow, hhigh⟩ := abs_le.mp (abs_sub_roundEven_le x)
  rcases lt_trichotomy (x - n) (1 / 2) with hlt | heq | hgt
  · refine iff_of_false ?_ ?_
    · intro hn
      have : (n : ℚ) + 1 ≤ roundEven x := by exact_mod_cast hn
      linarith
    · rintro (h | ⟨h, -⟩) <;> linarith
  · -- in the middle the even one of the two is nearest
    have htie : ∀ m : ℤ, (m = n ∨ m = n + 1) → Even m → roundEven x = m := by
      rintro m (rfl | rfl) heven
      · exact roundEven_unique (Or.inr ⟨by rw [heq, abs_of_pos (by norm_num)], heven⟩)
      · refine roundEven_unique (Or.inr ⟨?_, heven⟩)
        push_cast
        rw [abs_of_neg (by linarith)]
        linarith
    rcases Int.even_or_odd n with heven | hodd
    · rw [htie n (Or.inl rfl) heven]
      refine iff_of_false (lt_irrefl n) ?_
      rintro (h | ⟨-, h⟩)
      · linarith
      · exact Int.not_even_iff_odd.mpr h heven
    · rw [htie (n + 1) (Or.inr rfl) hodd.add_one]
      exact iff_of_true (lt_add_one n) (Or.inr ⟨heq, hodd⟩)
  · refine iff_of_true ?_ (Or.inl hgt)
    have : (n : ℚ) < roundEven x := by linarith
    exact_mod_cast this

namespace Format

variable (F : Format)

/-- The distance from `g` to the kept number next to it on the side of `q`. -/
def gap (g q : ℚ) : ℚ := 2 ^ min (F.expo g) (F.expo q)

/-- `q` is past the middle between `g` and the kept number above it, or in the middle when the
significand of `g` is odd. -/
def PastMiddle (g q : ℚ) : Prop :=
  F.gap g q / 2 < q - g ∨ q - g = F.gap g q / 2 ∧ Odd (roundEven (g / F.gap g q))

instance (g q : ℚ) : Decidable (F.PastMiddle g q) := inferInstanceAs (Decidable (_ ∨ _))

theorem gap_pos (g q : ℚ) : 0 < F.gap g q := two_zpow_pos _

/-- A kept number is a multiple of the distance to its neighbour. -/
theorem eq_mul_gap {g : ℚ} (hg : F.round g = g) (q : ℚ) :
    g = roundEven (g / F.gap g q) * F.gap g q := by
  have hpos := F.gap_pos g q
  obtain ⟨k, hk⟩ := Int.eq_ofNat_of_zero_le (sub_nonneg.mpr (min_le_left (F.expo g) (F.expo q)))
  have hscale : g / F.gap g q = ((roundEven (g / 2 ^ F.expo g) * 2 ^ k : ℤ) : ℚ) := by
    have hself : g = roundEven (g / 2 ^ F.expo g) * 2 ^ F.expo g := hg.symm
    refine (congrArg (· / F.gap g q) hself).trans ?_
    rw [gap, mul_div_assoc, ← zpow_sub₀ two_ne_zero, hk]
    push_cast
    rfl
  rw [hscale, roundEven_intCast, ← hscale, div_mul_cancel₀ _ hpos.ne']

/-- A rational on the grid of `g`, or a finer one. -/
theorem lt_round_iff_of_le {g q : ℚ} (hg : F.round g = g) (he : F.expo q ≤ F.expo g) :
    g < F.round q ↔ F.PastMiddle g q := by
  have hgap : F.gap g q = 2 ^ F.expo q := by rw [gap, min_eq_right he]
  have hpos := F.gap_pos g q
  have hself := F.eq_mul_gap hg q
  unfold PastMiddle
  generalize roundEven (g / F.gap g q) = n at hself
  have hround : F.round q = roundEven (q / F.gap g q) * F.gap g q := by rw [round, hgap]
  have hdiff : q - g = (q / F.gap g q - n) * F.gap g q := by
    rw [sub_mul, div_mul_cancel₀ _ hpos.ne', ← hself]
  have hlt : g < F.round q ↔ n < roundEven (q / F.gap g q) := by
    conv_lhs => rw [hself]
    rw [hround, mul_lt_mul_iff_left₀ hpos, Int.cast_lt]
  have hhalf : F.gap g q / 2 = 1 / 2 * F.gap g q := by ring
  rw [hlt, lt_roundEven_iff, hdiff, hhalf, mul_lt_mul_iff_left₀ hpos,
    mul_left_inj' hpos.ne']

/-- On a coarser grid than that of `g`, a rational above `g` is at least one neighbour away. -/
theorem gap_le_of_lt {g q : ℚ} (hg : F.round g = g) (he : F.expo g < F.expo q) (hlt : g < q) :
    ∃ p : ℚ, F.gap g q ≤ p - g ∧ p ≤ q ∧ p ≤ F.round q := by
  have hpos := F.gap_pos g q
  obtain ⟨n, hself⟩ : ∃ n : ℤ, g = n * F.gap g q := ⟨_, F.eq_mul_gap hg q⟩
  have hgap : F.gap g q = 2 ^ F.expo g := by rw [gap, min_eq_left he.le]
  generalize F.gap g q = gap at hpos hself hgap ⊢
  -- a multiple of the gap above `g` is at least a gap above it
  have hstep : ∀ k : ℤ, g < k * gap → gap ≤ k * gap - g := by
    intro k hk
    have hnk : (n : ℚ) < k := lt_of_mul_lt_mul_right (hself.symm.trans_lt hk) hpos.le
    have hnk' : (n : ℚ) + 1 ≤ k := by exact_mod_cast hnk
    have := mul_le_mul_of_nonneg_right hnk' hpos.le
    linarith
  have hprec := F.prec_pos
  have hlog : Int.log 2 |g| < Int.log 2 |q| := by unfold expo at he; omega
  have hexpo : F.expo q ≤ Int.log 2 |q| := by unfold expo at he ⊢; omega
  have hhigh : |g| < (2 : ℚ) ^ Int.log 2 |q| := by
    have hsucc : |g| < (2 : ℚ) ^ (Int.log 2 |g| + 1) := by
      exact_mod_cast Int.lt_zpow_succ_log_self (b := 2) one_lt_two |g|
    exact hsucc.trans_le (zpow_le_zpow_right₀ one_le_two (by omega))
  rcases eq_or_ne q 0 with rfl | hq
  · refine ⟨0, ?_, le_rfl, by rw [round_zero]⟩
    have := hstep 0 (by rwa [Int.cast_zero, zero_mul])
    rwa [Int.cast_zero, zero_mul] at this
  · have hlow : (2 : ℚ) ^ Int.log 2 |q| ≤ |q| := by
      exact_mod_cast Int.zpow_log_le_self one_lt_two (abs_pos.mpr hq)
    have hq₀ : 0 < q := by
      by_contra hneg
      rw [abs_of_nonpos (not_lt.mp hneg)] at hlow hhigh
      have := (abs_lt.mp hhigh).1
      linarith
    rw [abs_of_pos hq₀] at hlow hhigh hexpo
    refine ⟨2 ^ Int.log 2 q, ?_, hlow, ?_⟩
    · obtain ⟨k, hk⟩ := Int.eq_ofNat_of_zero_le (sub_nonneg.mpr (he.le.trans hexpo))
      have hscale : (2 : ℚ) ^ Int.log 2 q = ((2 ^ k : ℤ) : ℚ) * gap := by
        rw [hgap, show Int.log 2 q = k + F.expo g by omega, zpow_add₀ two_ne_zero]
        push_cast
        rfl
      rw [hscale]
      exact hstep _ (hscale ▸ (le_abs_self g).trans_lt hhigh)
    · exact F.le_round_of_grid (n := 1) (by rw [Int.cast_one, one_mul]) hexpo hlow

/-- **Rounding above a kept number** happens exactly past the middle. -/
theorem lt_round_iff {g q : ℚ} (hg : F.round g = g) : g < F.round q ↔ F.PastMiddle g q := by
  have hpos := F.gap_pos g q
  rcases le_or_gt (F.expo q) (F.expo g) with he | he
  · exact F.lt_round_iff_of_le hg he
  · rcases le_or_gt q g with hle | hlt
    · refine iff_of_false ?_ ?_
      · rw [not_lt, ← hg]
        exact F.round_mono hle
      · rintro (h | ⟨h, -⟩) <;> linarith
    · obtain ⟨p, hfar, hpq, hround⟩ := F.gap_le_of_lt hg he hlt
      exact iff_of_true (by linarith) (Or.inl (by linarith))

end Format

end OnlineAuction.Foundation
