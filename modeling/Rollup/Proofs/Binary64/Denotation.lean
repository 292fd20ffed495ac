import Rollup.Binary64.Arithmetic
import Rollup.Proofs.Binary64.Nearest

/-!
# Numbers and their values

`x.Denotes q` says that `x` is finite and has the value `q`; either zero denotes zero. An operation on such numbers
denotes the rounded exact result, as long as that stays below the largest finite numbers, so a computation can be read
off in rationals step by step (`Denotes.add` to `Denotes.clamp`).
-/

namespace Rollup.Binary64

/-- A number is finite and has a value. -/
inductive Denotes : Binary64 → ℚ → Prop
  | finite (v : ℚ) (h : Representable v) : Denotes (finite v h) v
  | negativeZero : Denotes negativeZero 0

variable {x y : Binary64} {p q : ℚ}

instance : (x : Binary64) → (q : ℚ) → Decidable (x.Denotes q)
  | nan, _ | infinite _, _ => .isFalse nofun
  | negativeZero, q => decidable_of_iff (q = 0) ⟨by rintro rfl; exact .negativeZero, by rintro ⟨⟩; rfl⟩
  | finite v h, q => decidable_of_iff (q = v) ⟨by rintro rfl; exact .finite _ h, by rintro ⟨⟩; rfl⟩

/-- What exact results must not exceed for their rounded numbers to be finite. -/
def maxExact : ℚ :=
  2 ^ (1023 : ℤ)

/-! ## Sizes -/

section Sizes

variable {a b : ℕ}

theorem le_maxExact (h : |q| ≤ 2 ^ a) (ha : a ≤ 1023) : |q| ≤ maxExact := by
  refine h.trans ?_
  rw [maxExact, ← zpow_natCast]
  exact pow_le_pow (by omega)

theorem abs_round_le (h : |q| ≤ 2 ^ a) : |round q| ≤ 2 ^ a := by
  rw [← zpow_natCast] at h ⊢
  exact abs_round_le_pow (by omega) h

theorem abs_add_le_pow (hp : |p| ≤ 2 ^ a) (hq : |q| ≤ 2 ^ a) : |p + q| ≤ 2 ^ (a + 1) := by
  rw [pow_succ]
  linarith [abs_add_le p q]

theorem abs_sub_le_pow (hp : |p| ≤ 2 ^ a) (hq : |q| ≤ 2 ^ a) : |p - q| ≤ 2 ^ (a + 1) := by
  rw [sub_eq_add_neg]
  exact abs_add_le_pow hp (by rwa [abs_neg])

theorem abs_mul_le_pow (hp : |p| ≤ 2 ^ a) (hq : |q| ≤ 2 ^ b) : |p * q| ≤ 2 ^ (a + b) := by
  calc |p * q| = |p| * |q| := abs_mul p q
    _ ≤ 2 ^ a * 2 ^ b := mul_le_mul hp hq (abs_nonneg q) (by positivity)
    _ = 2 ^ (a + b) := by ring

theorem abs_div_le_pow (hp : |p| ≤ 2 ^ a) (hq : 1 / 2 ^ b ≤ q) : |p / q| ≤ 2 ^ (a + b) := by
  have hq0 : 0 < q := lt_of_lt_of_le (by positivity) hq
  have hone : 1 ≤ 2 ^ b * q := by rwa [div_le_iff₀' (by positivity)] at hq
  rw [abs_div, abs_of_pos hq0, div_le_iff₀ hq0]
  calc |p| ≤ 2 ^ a := hp
    _ ≤ 2 ^ a * (2 ^ b * q) := le_mul_of_one_le_right (by positivity) hone
    _ = 2 ^ (a + b) * q := by ring

end Sizes

namespace Denotes

theorem representable (h : x.Denotes q) : Representable q := by
  cases h with
  | finite v h => exact h
  | negativeZero => exact .zero

theorem round_eq (h : x.Denotes q) : round q = q :=
  h.representable.round_eq

theorem value_eq (h : x.Denotes q) : x.value = q := by
  cases h <;> rfl

theorem zero : (0 : Binary64).Denotes 0 :=
  .finite 0 .zero

theorem one : (1 : Binary64).Denotes 1 :=
  .finite 1 .one

/-- The zero of either side denotes zero. -/
theorem ofZero (negative : Bool) : (Binary64.zero negative).Denotes 0 := by
  cases negative
  · exact zero
  · exact negativeZero

/-! ## Rounded results -/

theorem ofRat (h : |q| ≤ maxExact) : (ofRat q).Denotes (round q) := by
  have hlt : (round q).abs < 2 ^ (1024 : ℤ) := by
    rw [abs_eq]
    exact (abs_round_le_pow (by decide) h).trans_lt (zpow_lt_zpow_right₀ (by norm_num) (by norm_num))
  unfold Binary64.ofRat
  rw [dif_pos hlt]
  split
  · rename_i h0
    rw [h0]
    exact ofZero _
  · exact finite _ _

theorem ofInt {n : ℤ} (h : |(n : ℚ)| ≤ maxExact) : (ofInt n).Denotes (round n) := by
  rw [ofInt_eq]
  exact ofRat h

theorem ofNat {n : ℕ} (h : (n : ℚ) ≤ maxExact) : (ofNat n).Denotes (round n) := by
  have hn := ofInt (n := n) (by rwa [Int.cast_natCast, Nat.abs_cast])
  rwa [Int.cast_natCast] at hn

theorem neg (hx : x.Denotes q) : (-x).Denotes (-q) := by
  cases hx with
  | negativeZero => exact (neg_zero (G := ℚ)).symm ▸ zero
  | finite _ h =>
    show (if q = 0 then Binary64.negativeZero else .finite (-q) h.neg).Denotes (-q)
    split
    · rename_i h0
      rw [h0, neg_zero]
      exact negativeZero
    · exact finite _ _

theorem add (hx : x.Denotes p) (hy : y.Denotes q) (h : |p + q| ≤ maxExact) : (x + y).Denotes (round (p + q)) := by
  cases hx with
  | finite _ hp =>
    cases hy with
    | finite _ hq =>
      rw [finite_add_finite]
      exact ofRat h
    | negativeZero =>
      rw [add_zero, hp.round_eq]
      show (if (0 : ℚ) = 0 ∧ p ≠ 0 then Binary64.finite p hp
        else if p = 0 ∧ (0 : ℚ) ≠ 0 then Binary64.negativeZero else Binary64.ofRat (p + 0)).Denotes p
      by_cases hp0 : p = 0
      · subst hp0
        simpa [ofRat_zero] using zero
      · simpa [hp0] using finite p hp
  | negativeZero =>
    cases hy with
    | finite _ hq =>
      rw [zero_add, hq.round_eq]
      show (if q = 0 ∧ (0 : ℚ) ≠ 0 then Binary64.negativeZero
        else if (0 : ℚ) = 0 ∧ q ≠ 0 then Binary64.finite q hq else Binary64.ofRat (0 + q)).Denotes q
      by_cases hq0 : q = 0
      · subst hq0
        simpa [ofRat_zero] using zero
      · simpa [hq0] using finite q hq
    | negativeZero =>
      rw [add_zero, round_zero]
      exact negativeZero

theorem sub (hx : x.Denotes p) (hy : y.Denotes q) (h : |p - q| ≤ maxExact) : (x - y).Denotes (round (p - q)) := by
  rw [sub_eq_add_neg] at h ⊢
  exact hx.add hy.neg h

/-- The rule for two operands of which neither is infinite. -/
theorem mul_eq (hx : x.Denotes p) (hy : y.Denotes q) :
    x * y = if p * q = 0 then Binary64.zero (x.isNegative != y.isNegative) else Binary64.ofRat (p * q) := by
  cases hx <;> cases hy <;> rfl

theorem mul (hx : x.Denotes p) (hy : y.Denotes q) (h : |p * q| ≤ maxExact) : (x * y).Denotes (round (p * q)) := by
  rw [mul_eq hx hy]
  split
  · rename_i h0
    rw [h0, round_zero]
    exact ofZero _
  · exact ofRat h

theorem div_eq (hx : x.Denotes p) (hy : y.Denotes q) (h : q ≠ 0) :
    x / y = if p = 0 then Binary64.zero (x.isNegative != y.isNegative) else Binary64.ofRat (p / q) := by
  cases hy with
  | negativeZero => exact absurd rfl h
  | finite _ hq =>
    cases hx with
    | finite _ hp =>
      show (if q = 0 then _ else if p = 0 then _ else _) = _
      rw [if_neg h]
      rfl
    | negativeZero =>
      show (if q = 0 then _ else if (0 : ℚ) = 0 then _ else _) = _
      rw [if_neg h]
      rfl

theorem div (hx : x.Denotes p) (hy : y.Denotes q) (h0 : q ≠ 0) (h : |p / q| ≤ maxExact) :
    (x / y).Denotes (round (p / q)) := by
  rw [div_eq hx hy h0]
  split
  · rename_i hp
    rw [hp, zero_div, round_zero]
    exact ofZero _
  · exact ofRat h

/-! ## Comparison -/

theorem lt_iff (hx : x.Denotes p) (hy : y.Denotes q) : x < y ↔ p < q := by
  show Binary64.blt x y = true ↔ p < q
  rw [← hx.value_eq, ← hy.value_eq]
  cases hx with
  | finite => cases hy <;> exact decide_eq_true_iff
  | negativeZero =>
    cases hy with
    | finite => exact decide_eq_true_iff
    | negativeZero => exact iff_of_false (by decide) (lt_irrefl _)

/-- A number that is moved into the unit interval. -/
theorem clamp (hx : x.Denotes q) : (x.clamp 0 1).Denotes (max 0 (min q 1)) := by
  unfold Binary64.clamp
  split
  · rename_i h
    have hq := (lt_iff hx zero).mp h
    rw [max_eq_left (min_le_of_left_le hq.le)]
    exact zero
  · rename_i h
    have hq := not_lt.mp (mt (lt_iff hx zero).mpr h)
    split
    · rename_i h
      rw [min_eq_right ((lt_iff one hx).mp h).le, max_eq_right zero_le_one]
      exact one
    · rename_i h
      rw [min_eq_left (not_lt.mp (mt (lt_iff one hx).mpr h)), max_eq_right hq]
      exact hx

end Denotes

/-! ## Integers -/

/-- The floor of a number of binary64 precision is of that precision. -/
theorem round_floor (h : round q = q) : round q.floor = q.floor := by
  obtain ⟨m, k, hm, hk, he⟩ := exists_round_eq q
  rw [h] at he
  rcases le_or_gt 0 k with hk0 | hk0
  · -- `q` is an integer
    obtain ⟨n, rfl⟩ := Int.eq_ofNat_of_zero_le hk0
    have hint : q = ((m * 2 ^ n : ℤ) : ℚ) := by
      rw [he, zpow_natCast]
      push_cast
      rfl
    rw [hint, Rat.floor_intCast, ← hint, h]
  · -- `q` is so small that its floor has 53 bits
    have hle : |q| ≤ maxSignificand / 2 := by
      have hm : |(m : ℚ)| ≤ maxSignificand := by
        rw [← Int.cast_abs, Int.abs_eq_natAbs, Int.cast_natCast]
        exact_mod_cast hm
      have hk : (2 : ℚ) ^ k ≤ 2 ^ (-1 : ℤ) := pow_le_pow (by omega)
      rw [he, abs_mul, abs_of_pos (pow_pos k)]
      calc |(m : ℚ)| * 2 ^ k ≤ maxSignificand * 2 ^ (-1 : ℤ) := by gcongr
        _ = maxSignificand / 2 := by norm_num [div_eq_mul_inv]
    rw [natCast_maxSignificand, abs_le] at hle
    have hlo : (-2 ^ 52 : ℤ) ≤ q.floor := Int.le_floor.mpr (le_trans (by norm_num) hle.1)
    have hhi : q.floor < 2 ^ 52 + 1 := Int.floor_lt.mpr (hle.2.trans_lt (by norm_num))
    apply round_intCast
    unfold maxSignificand
    omega

namespace Denotes

theorem floor (hx : x.Denotes q) (h : |(q.floor : ℚ)| ≤ maxExact) : x.floor.Denotes q.floor := by
  cases hx with
  | finite _ hq =>
    rw [← round_floor hq.round_eq]
    exact ofInt h
  | negativeZero => exact negativeZero

theorem toUnsigned_eq (hx : x.Denotes q) : x.toUnsigned = min q.floor.toNat (UInt64.size - 1) := by
  cases hx with
  | finite => rfl
  | negativeZero => rfl

end Denotes

end Rollup.Binary64
