import Mathlib
import Rollup.Binary64.Rounding

/-!
# Rounding takes the nearest number

Of all numbers of binary64 precision `round q` is one of the nearest to `q` (`abs_round_sub_le_abs_sub`). So rounding
keeps the order (`round_mono`), and its error is a small part of what is rounded (`abs_round_sub_le`). Errors from before
add up with it (`abs_round_sub_le_add`, `abs_round_div_mul_sub_le`).
-/

namespace Rollup.Binary64

variable {p q r b : ℚ}

theorem abs_eq (q : ℚ) : q.abs = |q| := by
  rw [Rat.abs]
  split
  · rw [abs_of_nonneg ‹_›]
  · rw [abs_of_neg (lt_of_not_ge ‹_›)]

/-! ## Nearest integers -/

/-- The integers next to a number, and how far they are. -/
theorem abs_floor_sub (q : ℚ) : |(q.floor : ℚ) - q| = q - q.floor ∧ |((q.floor + 1 : ℤ) : ℚ) - q| = q.floor + 1 - q := by
  have hle : (q.floor : ℚ) ≤ q := Int.floor_le q
  have hlt : q < q.floor + 1 := Int.lt_floor_add_one q
  push_cast
  rw [abs_of_nonpos (by linarith), abs_of_nonneg (by linarith)]
  exact ⟨by ring, rfl⟩

/-- No integer is nearer than the nearest one. -/
theorem abs_nearestEven_sub_le (q : ℚ) (n : ℤ) : |(nearestEven q : ℚ) - q| ≤ |(n : ℚ) - q| := by
  have hle : (q.floor : ℚ) ≤ q := Int.floor_le q
  have hlt : q < q.floor + 1 := Int.lt_floor_add_one q
  obtain ⟨hdown, hup⟩ := abs_floor_sub q
  -- any other integer lies below these two or above them
  have hn : q - q.floor ≤ |(n : ℚ) - q| ∨ q.floor + 1 - q ≤ |(n : ℚ) - q| := by
    rcases le_or_gt n q.floor with h | h
    · have h : (n : ℚ) ≤ q.floor := by exact_mod_cast h
      exact .inl (by rw [abs_of_nonpos (by linarith)]; linarith)
    · have h : (q.floor : ℚ) + 1 ≤ n := by exact_mod_cast h
      exact .inr (by rw [abs_of_nonneg (by linarith)]; linarith)
  unfold nearestEven
  dsimp only
  split
  · rw [hdown]
    rcases hn with h | h <;> linarith
  · split
    · rw [hup]
      rcases hn with h | h <;> linarith
    · split
      · rw [hdown]
        rcases hn with h | h <;> linarith
      · rw [hup]
        rcases hn with h | h <;> linarith

theorem abs_nearestEven_sub_le_half (q : ℚ) : |(nearestEven q : ℚ) - q| ≤ 1 / 2 := by
  have hdown := abs_nearestEven_sub_le q q.floor
  have hup := abs_nearestEven_sub_le q (q.floor + 1)
  rw [(abs_floor_sub q).1] at hdown
  rw [(abs_floor_sub q).2] at hup
  linarith

/-! ## Nearest numbers -/

/-- A number on the grid of `q` is no nearer to `q` than the one that `q` is rounded to. -/
theorem abs_round_sub_le_of_grid (q : ℚ) {m k : ℤ} (hk : grain q ≤ k) : |round q - q| ≤ |m * 2 ^ k - q| := by
  have hp := pow_pos (grain q)
  obtain ⟨n, rfl⟩ := Int.le.dest hk
  have hm : (m : ℚ) * 2 ^ (grain q + n) = ((m * 2 ^ n : ℤ) : ℚ) * 2 ^ grain q := by
    rw [pow_add, zpow_natCast]
    push_cast
    ring
  have hscale : ∀ x : ℚ, |x * 2 ^ grain q - q| = |x - q / 2 ^ grain q| * 2 ^ grain q := by
    intro x
    rw [← abs_of_pos hp, ← abs_mul, abs_of_pos hp, sub_mul, div_mul_cancel₀ _ hp.ne']
  rw [hm, round, hscale, hscale]
  exact mul_le_mul_of_nonneg_right (abs_nearestEven_sub_le _ _) hp.le

/-- A number of a finer grid than that of `q` is no larger than the least power of two in the binade of `q`. -/
theorem abs_le_of_grain_lt {m k : ℤ} (hq : q ≠ 0) (hm : m.natAbs ≤ maxSignificand) (hk : -1074 ≤ k) (h : k < grain q) :
    |(m : ℚ) * 2 ^ k| ≤ 2 ^ (52 + grain q) ∧ 2 ^ (52 + grain q) ≤ |q| := by
  have hgrain : 52 + grain q = binade q := by unfold grain at *; omega
  constructor
  · have hm : |(m : ℚ)| ≤ 2 ^ (53 : ℤ) := by
      rw [← natCast_maxSignificand, ← Int.cast_abs, Int.abs_eq_natAbs, Int.cast_natCast]
      exact_mod_cast hm
    calc |(m : ℚ) * 2 ^ k| = |(m : ℚ)| * 2 ^ k := by rw [abs_mul, abs_of_pos (pow_pos k)]
      _ ≤ 2 ^ (53 : ℤ) * 2 ^ k := mul_le_mul_of_nonneg_right hm (pow_pos k).le
      _ = 2 ^ (53 + k) := (pow_add 53 k).symm
      _ ≤ 2 ^ (52 + grain q) := pow_le_pow (by omega)
  · rw [hgrain, ← abs_eq]
    exact pow_binade_le hq

/-- No number of binary64 precision is nearer than the rounded one. -/
theorem abs_round_sub_le_abs_sub (hr : round r = r) (q : ℚ) : |round q - q| ≤ |r - q| := by
  obtain ⟨m, k, hm, hk, he⟩ := exists_round_eq r
  rw [hr] at he
  rcases eq_or_ne q 0 with rfl | hq
  · rw [round_zero, sub_zero, abs_zero]
    exact abs_nonneg _
  rcases le_or_gt (grain q) k with hg | hg
  · rw [he]
    exact abs_round_sub_le_of_grid q hg
  · -- `r` is of a finer grid than `q`, so a power of two on the grid of `q` lies between them
    obtain ⟨hrle, hqle⟩ := abs_le_of_grain_lt hq hm hk hg
    rw [← he, abs_le] at hrle
    have hgrid := fun n : ℤ => abs_round_sub_le_of_grid q (m := n) le_rfl
    have hpow : (2 : ℚ) ^ (52 + grain q) = ((2 ^ 52 : ℤ) : ℚ) * 2 ^ grain q := by
      rw [pow_add]
      norm_num
    rcases lt_or_gt_of_ne hq with hneg | hpos
    · rw [abs_of_neg hneg] at hqle
      have hnear := hgrid (-2 ^ 52)
      rw [Int.cast_neg, neg_mul, ← hpow, abs_of_nonneg (a := -2 ^ (52 + grain q) - q) (by linarith)] at hnear
      exact hnear.trans ((by linarith : _ ≤ r - q).trans (le_abs_self _))
    · rw [abs_of_pos hpos] at hqle
      have hnear := hgrid (2 ^ 52)
      rw [← hpow, abs_of_nonpos (a := 2 ^ (52 + grain q) - q) (by linarith)] at hnear
      exact hnear.trans ((by linarith : _ ≤ -(r - q)).trans (neg_le_abs _))

/-- Rounding keeps the order. -/
theorem round_mono (h : p ≤ q) : round p ≤ round q := by
  by_contra hlt
  have hlt := lt_of_not_ge hlt
  -- `p` is nearer to the greater of the two results, and `q` to the lesser
  have hp := sq_le_sq.mpr (abs_round_sub_le_abs_sub (round_round q) p)
  have hq := sq_le_sq.mpr (abs_round_sub_le_abs_sub (round_round p) q)
  have hpq : p = q := by nlinarith
  rw [hpq] at hlt
  exact hlt.ne rfl

/-- Bounds of binary64 precision stay bounds. -/
theorem round_le (hr : round r = r) (h : q ≤ r) : round q ≤ r :=
  (round_mono h).trans_eq hr

theorem le_round (hr : round r = r) (h : r ≤ q) : r ≤ round q :=
  hr.symm.trans_le (round_mono h)

theorem round_nonneg (h : 0 ≤ q) : 0 ≤ round q :=
  le_round round_zero h

theorem round_pow {k : ℤ} (hk : -1074 ≤ k) : round (2 ^ k) = 2 ^ k := by
  have h := round_mul_pow (m := 1) (by decide) hk
  rwa [Int.cast_one, one_mul] at h

theorem round_neg_pow {k : ℤ} (hk : -1074 ≤ k) : round (-2 ^ k) = -2 ^ k := by
  have h := round_mul_pow (m := -1) (by decide) hk
  rwa [Int.cast_neg, Int.cast_one, neg_one_mul] at h

theorem abs_round_le_pow {k : ℤ} (hk : -1074 ≤ k) (h : |q| ≤ 2 ^ k) : |round q| ≤ 2 ^ k := by
  rw [abs_le] at h ⊢
  exact ⟨le_round (round_neg_pow hk) h.1, round_le (round_pow hk) h.2⟩

/-- An integer of 53 bits stays what it is. -/
theorem round_intCast {n : ℤ} (hn : n.natAbs ≤ maxSignificand) : round n = n := by
  have h := round_mul_pow (k := 0) hn (by decide)
  rwa [zpow_zero, mul_one] at h

/-! ## Differences -/

/-- Every number of binary64 precision is a multiple of the least one above zero. -/
theorem exists_multiple_of_least (hq : round q = q) : ∃ m : ℤ, q = m * 2 ^ (-1074 : ℤ) := by
  obtain ⟨m, k, -, hk, he⟩ := exists_round_eq q
  obtain ⟨n, rfl⟩ := Int.le.dest hk
  refine ⟨m * 2 ^ n, ?_⟩
  rw [← hq, he, pow_add, zpow_natCast]
  generalize (2 : ℚ) ^ (-1074 : ℤ) = least
  push_cast
  ring

/-- The difference of two numbers does not vanish in the rounding: it is no smaller than the least number above zero. -/
theorem round_sub_neg (hp : round p = p) (hq : round q = q) (h : p < q) : round (p - q) < 0 := by
  obtain ⟨m, rfl⟩ := exists_multiple_of_least hp
  obtain ⟨n, rfl⟩ := exists_multiple_of_least hq
  have hleast := pow_pos (-1074)
  have hmn : m < n := by exact_mod_cast lt_of_mul_lt_mul_right h hleast.le
  have hstep : (m - n : ℚ) ≤ -1 := by exact_mod_cast (by omega : m - n ≤ -1)
  have hsub := mul_le_mul_of_nonneg_right hstep hleast.le
  rw [sub_mul, neg_one_mul] at hsub
  exact (round_le (round_neg_pow le_rfl) hsub).trans_lt (neg_lt_zero.mpr hleast)

/-! ## The error of rounding -/

/-- The error is at most half a step of the grid. -/
theorem abs_round_sub_le_grain (q : ℚ) : |round q - q| ≤ 2 ^ grain q / 2 := by
  have hp := pow_pos (grain q)
  have hscale : round q - q = (nearestEven (q / 2 ^ grain q) - q / 2 ^ grain q) * 2 ^ grain q := by
    rw [round, sub_mul, div_mul_cancel₀ _ hp.ne']
  rw [hscale, abs_mul, abs_of_pos hp]
  linarith [mul_le_mul_of_nonneg_right (abs_nearestEven_sub_le_half (q / 2 ^ grain q)) hp.le]

/-- The error is at most the 53rd part, counted in binary places, of a bound on what is rounded. -/
theorem abs_round_sub_le (h : |q| ≤ b) (hb : 2 ^ (-1022 : ℤ) ≤ b) : |round q - q| ≤ b / 2 ^ 53 := by
  rcases eq_or_ne q 0 with rfl | hq
  · rw [round_zero, sub_zero, abs_zero]
    positivity
  refine (abs_round_sub_le_grain q).trans ?_
  have hgrain : (2 : ℚ) ^ grain q ≤ b / 2 ^ 52 := by
    rw [le_div_iff₀ (by positivity), ← zpow_natCast, ← pow_add]
    rcases le_or_gt (-1074) (binade q - 52) with hn | hn
    · have hle := pow_binade_le hq
      rw [abs_eq] at hle
      refine le_trans (le_of_eq ?_) (hle.trans h)
      congr 1
      unfold grain
      omega
    · refine le_trans (le_of_eq ?_) hb
      congr 1
      unfold grain
      omega
  linarith

/-! ## Errors that add up -/

section Errors

variable {t e w : ℚ}

/-- What is near to a number is not much larger. -/
theorem abs_le_of_abs_sub_le {x y c : ℚ} (h : |x - y| ≤ e) (hy : |y| ≤ b) (hc : b + e ≤ c) : |x| ≤ c := by
  calc |x| = |y + (x - y)| := by rw [add_sub_cancel]
    _ ≤ |y| + |x - y| := abs_add_le _ _
    _ ≤ c := (add_le_add hy h).trans hc

/-- Rounding what has an error already. The bound is far from underflow. -/
theorem abs_round_sub_le_add (hq : |q| ≤ b) (hb : 1 / 2 ^ 64 ≤ b) (he : |q - t| ≤ e) :
    |round q - t| ≤ b / 2 ^ 53 + e := by
  have hmin : (2 : ℚ) ^ (-1022 : ℤ) ≤ b := by
    refine le_trans ?_ hb
    rw [one_div, ← zpow_natCast, ← zpow_neg]
    exact zpow_le_zpow_right₀ one_le_two (by norm_num)
  calc |round q - t| ≤ |round q - q| + |q - t| := abs_sub_le _ _ _
    _ ≤ b / 2 ^ 53 + e := add_le_add (abs_round_sub_le hq hmin) he

theorem abs_round_sub_self_le (hq : |q| ≤ b) (hb : 1 / 2 ^ 64 ≤ b) : |round q - q| ≤ b / 2 ^ 53 := by
  have h := abs_round_sub_le_add (t := q) (e := 0) hq hb (by rw [sub_self, abs_zero])
  rwa [add_zero] at h

theorem abs_mul_sub_eq {x : ℚ} (hw : 0 < w) : |x * w - t| = |x - t / w| * w := by
  rw [← abs_of_pos hw, ← abs_mul, abs_of_pos hw, sub_mul, div_mul_cancel₀ _ hw.ne']

/-- A rounded quotient, in units of what is divided. -/
theorem abs_round_div_mul_sub_le (hw : 0 < w) (hq : |q| ≤ b) (hb : w / 2 ^ 64 ≤ b) (he : |q - t| ≤ e) :
    |round (q / w) * w - t| ≤ b / 2 ^ 53 + e := by
  have hqw : |q / w| ≤ b / w := by
    rw [abs_div, abs_of_pos hw]
    exact div_le_div_of_nonneg_right hq hw.le
  have hbw : 1 / 2 ^ 64 ≤ b / w := by
    rw [le_div_iff₀ hw]
    linarith
  have hround : |round (q / w) * w - q| ≤ b / 2 ^ 53 := by
    calc |round (q / w) * w - q| = |round (q / w) - q / w| * w := abs_mul_sub_eq hw
      _ ≤ b / w / 2 ^ 53 * w := mul_le_mul_of_nonneg_right (abs_round_sub_self_le hqw hbw) hw.le
      _ = b / 2 ^ 53 := by field_simp
  exact (abs_sub_le _ _ _).trans (add_le_add hround he)

end Errors

end Rollup.Binary64
