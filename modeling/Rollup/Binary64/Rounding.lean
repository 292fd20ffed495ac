/-!
# Rounding rationals to binary64 precision

A number of binary64 precision is a multiple `m * 2 ^ k` of a power of two with `|m| ≤ maxSignificand` and
`-1074 ≤ k`.
`round` takes a rational to the nearest one, on the grid that its `binade` calls for, and of two equally near ones to
the one with the even multiple. There is no bound on magnitudes here.

Main statements: `pow_binade_le` and `lt_pow_binade` enclose a rational between two powers of two, `round_mul_pow` says
that numbers of binary64 precision stay what they are, and `round_round` that rounding gives such numbers.
-/

namespace Rollup.Binary64

/-! ## Powers of two -/

theorem pow_pos (k : Int) : (0 : Rat) < 2 ^ k :=
  Rat.zpow_pos (by decide)

theorem pow_add (j k : Int) : (2 : Rat) ^ (j + k) = 2 ^ j * 2 ^ k :=
  Rat.zpow_add (by decide) j k

theorem one_le_pow (n : Nat) : (1 : Rat) ≤ 2 ^ n := by
  induction n with
  | zero => decide
  | succ n ih => rw [Rat.pow_succ]; grind

theorem pow_le_pow {j k : Int} (h : j ≤ k) : (2 : Rat) ^ j ≤ 2 ^ k := by
  obtain ⟨n, rfl⟩ := Int.le.dest h
  have h1 := Rat.mul_le_mul_of_nonneg_left (one_le_pow n) (Rat.le_of_lt (pow_pos j))
  rw [Rat.mul_one] at h1
  rwa [pow_add, Rat.zpow_natCast]

/-- The power of two that bounds significands, 53 bits long. -/
def maxSignificand : Nat :=
  1 <<< 53

theorem natCast_maxSignificand : (maxSignificand : Rat) = 2 ^ (53 : Int) := by
  decide +kernel

/-- Powers of two are ordered by their exponents. -/
theorem lt_of_pow_lt {j k : Int} (h : (2 : Rat) ^ j < 2 ^ k) : j < k := by
  apply Int.lt_of_not_ge
  intro hk
  exact Rat.not_lt.mpr (pow_le_pow hk) h

/-! ## The binade of a rational -/

/-- The exponent `e` with `2 ^ e ≤ |q| < 2 ^ (e + 1)`, for `q` other than zero. -/
def binade (q : Rat) : Int :=
  let e := (q.num.natAbs.log2 : Int) - q.den.log2
  if q.abs < 2 ^ e then e - 1 else e

/-- The size of a number lies below a bound exactly if the number lies between the bound on both sides. -/
theorem abs_lt_iff {q c : Rat} : q.abs < c ↔ -c < q ∧ q < c := by
  unfold Rat.abs
  split <;> grind

/-- The size of a rational is the quotient of its numerator and its denominator. -/
theorem abs_mul_den (q : Rat) : q.abs * q.den = q.num.natAbs := by
  have hd : (0 : Rat) < q.den := Rat.natCast_pos.mpr q.den_pos
  have hq : q * q.den = q.num := by
    have h := Rat.mkRat_self q
    rw [Rat.mkRat_eq_div] at h
    calc q * q.den = q.num / q.den * q.den := by rw [h]
      _ = q.num := Rat.div_mul_cancel (Rat.ne_of_gt hd)
  have hn : 0 ≤ q ↔ 0 ≤ q.num := Rat.num_nonneg.symm
  have hc : ((q.num.natAbs : Nat) : Rat) = ((q.num.natAbs : Int) : Rat) := rfl
  rw [hc]
  unfold Rat.abs
  split
  · rw [hq, Int.natAbs_of_nonneg (by grind)]
  · rw [Rat.neg_mul, hq, Int.ofNat_natAbs_of_nonpos (by grind), Rat.intCast_neg]

/-- The leading power of two of a number is no larger than the number. -/
theorem natCast_pow_log2_le {n : Nat} (h : n ≠ 0) : (2 : Rat) ^ (n.log2 : Int) ≤ n := by
  have h := Rat.natCast_le_natCast.mpr (Nat.log2_self_le h)
  rw [Rat.zpow_natCast]
  simpa using h

/-- The next power of two is larger than the number. -/
theorem natCast_lt_pow_log2 (n : Nat) : (n : Rat) < 2 ^ (n.log2 + 1 : Int) := by
  have h := Rat.natCast_lt_natCast.mpr (Nat.lt_log2_self (n := n))
  rw [← Int.natCast_add_one, Rat.zpow_natCast]
  simpa using h

/-- A quotient of two numbers lies within a factor of two of the quotient of their leading powers of two. -/
theorem abs_bounds (q : Rat) (h : q ≠ 0) :
    (2 : Rat) ^ ((q.num.natAbs.log2 : Int) - q.den.log2 - 1) ≤ q.abs ∧
      q.abs < 2 ^ ((q.num.natAbs.log2 : Int) - q.den.log2 + 1) := by
  have hd : (0 : Rat) < q.den := Rat.natCast_pos.mpr q.den_pos
  have hn : q.num.natAbs ≠ 0 := fun h0 => h (Rat.num_eq_zero.mp (Int.natAbs_eq_zero.mp h0))
  have habs := abs_mul_den q
  have hnl := natCast_pow_log2_le hn
  have hnu := natCast_lt_pow_log2 q.num.natAbs
  have hdl := natCast_pow_log2_le q.den_nz
  have hdu := natCast_lt_pow_log2 q.den
  generalize (q.num.natAbs.log2 : Int) = a at *
  generalize (q.den.log2 : Int) = b at *
  constructor
  · apply Rat.le_of_mul_le_mul_right _ hd
    have h1 : (2 : Rat) ^ (a - b - 1) * q.den ≤ 2 ^ (a - b - 1) * 2 ^ (b + 1) :=
      Rat.mul_le_mul_of_nonneg_left (Rat.le_of_lt hdu) (Rat.le_of_lt (pow_pos _))
    rw [← pow_add, show a - b - 1 + (b + 1) = a by omega] at h1
    rw [habs]
    exact Rat.le_trans h1 hnl
  · apply Rat.lt_of_mul_lt_mul_right _ (Rat.le_of_lt hd)
    have h1 : (2 : Rat) ^ (a - b + 1) * 2 ^ b ≤ 2 ^ (a - b + 1) * q.den :=
      Rat.mul_le_mul_of_nonneg_left hdl (Rat.le_of_lt (pow_pos _))
    rw [← pow_add, show a - b + 1 + b = a + 1 by omega] at h1
    rw [habs]
    grind

/-- A rational is no smaller than the power of two of its binade. -/
theorem pow_binade_le {q : Rat} (h : q ≠ 0) : (2 : Rat) ^ binade q ≤ q.abs := by
  unfold binade
  dsimp only
  split
  · exact (abs_bounds q h).1
  · rename_i hq
    exact Rat.not_lt.mp hq

/-- A rational lies below the power of two that ends its binade. -/
theorem lt_pow_binade {q : Rat} (h : q ≠ 0) : q.abs < 2 ^ (binade q + 1) := by
  unfold binade
  dsimp only
  split
  · rename_i hq
    rwa [Int.sub_add_cancel]
  · exact (abs_bounds q h).2

theorem binade_lt {q : Rat} {k : Int} (h : q ≠ 0) (hk : q.abs < 2 ^ k) : binade q < k := by
  apply lt_of_pow_lt
  have := pow_binade_le h
  grind

/-! ## Rounding -/

/-- The exponent of the grid on which a rational is rounded: 53 bits from its leading one, but no finer than the
grid of the least numbers. -/
def grain (q : Rat) : Int :=
  max (binade q - 52) (-1074)

/-- The nearest integer, and of two equally near ones the even one. -/
def nearestEven (q : Rat) : Int :=
  let lower := q.floor
  if q - lower < 1 / 2 then lower
  else if 1 / 2 < q - lower then lower + 1
  else if lower % 2 = 0 then lower
  else lower + 1

/-- The nearest number of binary64 precision. -/
def round (q : Rat) : Rat :=
  nearestEven (q / 2 ^ grain q) * 2 ^ grain q

/-- Integers are their own nearest integers. -/
theorem nearestEven_intCast (n : Int) : nearestEven n = n := by
  have h : (n : Rat) - n < 1 / 2 := by grind
  simp only [nearestEven, Rat.floor_intCast, h, ite_true]

/-- The nearest integer is the floor or the integer after it (`nearestEven_le`). -/
theorem floor_le_nearestEven (q : Rat) : q.floor ≤ nearestEven q := by
  unfold nearestEven
  dsimp only
  repeat' split
  all_goals omega

theorem nearestEven_le (q : Rat) : nearestEven q ≤ q.floor + 1 := by
  unfold nearestEven
  dsimp only
  repeat' split
  all_goals omega

@[simp] theorem round_zero : round 0 = 0 := by
  have h : nearestEven 0 = 0 := nearestEven_intCast 0
  rw [round, Rat.div_def, Rat.zero_mul, h, Rat.intCast_zero, Rat.zero_mul]

/-- Numbers on the grid of a rational stay what they are. -/
theorem round_of_grain_le {m k : Int} (h : grain (m * 2 ^ k) ≤ k) : round (m * 2 ^ k) = m * 2 ^ k := by
  unfold round
  generalize grain (m * 2 ^ k) = g at *
  obtain ⟨n, rfl⟩ := Int.le.dest h
  have hv : (m : Rat) * 2 ^ (g + n : Int) = ((m * 2 ^ n : Int) : Rat) * 2 ^ g := by
    rw [pow_add, Rat.zpow_natCast, Rat.intCast_mul, Rat.intCast_pow]
    grind
  rw [hv, Rat.mul_div_cancel (Rat.ne_of_gt (pow_pos g)), nearestEven_intCast]

/-- A significand of 53 bits, scaled, lies below the power of two with both exponents. -/
theorem abs_mul_pow_lt {m k : Int} (hm : m.natAbs < maxSignificand) :
    ((m : Rat) * 2 ^ k).abs < 2 ^ (53 + k : Int) := by
  have hp := pow_pos k
  have h := Rat.natCast_lt_natCast.mpr hm
  rw [natCast_maxSignificand] at h
  have hu : (m : Rat) ≤ m.natAbs := Rat.intCast_le_intCast.mpr (by omega)
  have hl : ((-m.natAbs : Int) : Rat) ≤ m := Rat.intCast_le_intCast.mpr (by omega)
  rw [Rat.intCast_neg, Rat.intCast_natCast] at hl
  have h1 : (m : Rat) < 2 ^ (53 : Int) := by grind
  have h2 : -(2 : Rat) ^ (53 : Int) < m := by grind
  rw [pow_add, abs_lt_iff, ← Rat.neg_mul]
  exact ⟨Rat.mul_lt_mul_of_pos_right h2 hp, Rat.mul_lt_mul_of_pos_right h1 hp⟩

theorem round_mul_pow_of_lt {m k : Int} (hm : m.natAbs < maxSignificand) (hk : -1074 ≤ k) :
    round (m * 2 ^ k) = m * 2 ^ k := by
  by_cases h0 : (m : Rat) * 2 ^ k = 0
  · rw [h0, round_zero]
  · have h := binade_lt h0 (abs_mul_pow_lt (k := k) hm)
    apply round_of_grain_le
    unfold grain
    omega

/-- Numbers of binary64 precision stay what they are. -/
theorem round_mul_pow {m k : Int} (hm : m.natAbs ≤ maxSignificand) (hk : -1074 ≤ k) :
    round (m * 2 ^ k) = m * 2 ^ k := by
  by_cases h : m.natAbs < maxSignificand
  · exact round_mul_pow_of_lt h hk
  · unfold maxSignificand at hm h
    obtain ⟨n, rfl⟩ : ∃ n, m = n * 2 := ⟨m / 2, by omega⟩
    have hv : ((n * 2 : Int) : Rat) * 2 ^ k = n * 2 ^ (k + 1) := by
      rw [pow_add, Rat.intCast_mul, Rat.zpow_one]
      grind
    rw [hv, round_mul_pow_of_lt (by unfold maxSignificand; omega) (by omega)]

/-- A rounded number has binary64 precision. -/
theorem exists_round_eq (q : Rat) : ∃ m k : Int, m.natAbs ≤ maxSignificand ∧ -1074 ≤ k ∧ round q = m * 2 ^ k := by
  refine ⟨nearestEven (q / 2 ^ grain q), grain q, ?_, by unfold grain; omega, rfl⟩
  have hp := pow_pos (grain q)
  have habs : q.abs < 2 ^ (53 : Nat) * 2 ^ grain q := by
    by_cases h0 : q = 0
    · rw [h0, Rat.abs_zero]
      exact Rat.mul_pos (Rat.pow_pos (by decide)) (pow_pos _)
    · have h1 := lt_pow_binade h0
      have h2 : (2 : Rat) ^ (binade q + 1) ≤ 2 ^ (53 + grain q) := pow_le_pow (by unfold grain; omega)
      rw [pow_add 53] at h2
      exact Std.lt_of_lt_of_le h1 h2
  rw [abs_lt_iff, ← Rat.neg_mul, ← Rat.lt_div_iff hp, ← Rat.div_lt_iff hp] at habs
  have h1 : -2 ^ 53 ≤ (q / 2 ^ grain q).floor := by
    rw [Rat.le_floor_iff]
    exact Rat.le_of_lt habs.1
  have h2 : (q / 2 ^ grain q).floor < 2 ^ 53 := by
    rw [Rat.floor_lt_iff]
    exact habs.2
  have h3 := floor_le_nearestEven (q / 2 ^ grain q)
  have h4 := nearestEven_le (q / 2 ^ grain q)
  unfold maxSignificand
  omega

/-- Rounding again changes nothing. -/
theorem round_round (q : Rat) : round (round q) = round q := by
  obtain ⟨m, k, hm, hk, h⟩ := exists_round_eq q
  rw [h, round_mul_pow hm hk]

end Rollup.Binary64
