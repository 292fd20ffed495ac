import Rollup.Proofs.Aggregate.Totals

/-!
# Quotients

Division of integers that drops the fraction is division of rationals rounded toward zero, whatever the signs
(`tdiv_eq_truncate`). The quotient of two 64-bit integers is missing at two points: at every divisor zero, and where the
least integer is divided by minus one (`Exact.div?_eq_none_iff`).

The mean of integers stays between bounds of them, and so does its rounded value (`le_truncate_mean`,
`truncate_mean_le`).
-/

namespace Rollup

open Exact

/-! ## Rounding toward zero -/

/-- A rational number rounded toward zero. -/
def truncate (x : ℚ) : Int :=
  if 0 ≤ x then ⌊x⌋ else ⌈x⌉

theorem truncate_neg (x : ℚ) : truncate (-x) = -truncate x := by
  unfold truncate
  rcases lt_trichotomy x 0 with hx | rfl | hx
  · rw [if_pos (by linarith), if_neg (by linarith), Int.floor_neg]
  · simp
  · rw [if_neg (by linarith), if_pos hx.le, Int.ceil_neg]

/-- Division without a fraction is the exact quotient rounded toward zero. -/
theorem tdiv_eq_truncate (a b : Int) : a.tdiv b = truncate ((a : ℚ) / b) := by
  have hnat : ∀ n d : ℕ, (n : Int).tdiv d = truncate ((n : ℚ) / d) := by
    intro n d
    have hfloor := Rat.floor_intCast_div_natCast n d
    rw [Int.cast_natCast] at hfloor
    rw [truncate, if_pos (by positivity), hfloor, Int.tdiv_eq_ediv_of_nonneg (Int.natCast_nonneg n)]
  obtain ⟨n, rfl | rfl⟩ := a.eq_nat_or_neg <;> obtain ⟨d, rfl | rfl⟩ := b.eq_nat_or_neg
  · simpa using hnat n d
  · simpa [div_neg, truncate_neg] using hnat n d
  · simpa [neg_div, truncate_neg] using hnat n d
  · simpa [neg_div_neg_eq] using hnat n d

/-! ## Quotients of 64-bit integers -/

/-- A quotient is no greater than what is divided, and only a division of the least integer by minus one leaves the
range. -/
theorem fits_tdiv_iff (a b : Int64) : Fits (a.toInt.tdiv b.toInt) ↔ ¬(a = Int64.minValue ∧ b = -1) := by
  constructor
  · rintro hfits ⟨rfl, rfl⟩
    exact absurd hfits (by decide)
  intro h
  rcases lt_trichotomy b.toInt 0 with hb | hb | hb
  · obtain ⟨hlo, hhi⟩ := fits_toInt a
    unfold Fits
    rw [Int64.toInt_minValue, Int64.toInt_maxValue] at *
    by_cases hone : b = -1
    · have ha : a.toInt ≠ Int64.minValue.toInt := fun ha => h ⟨Int64.toInt_inj.mp ha, hone⟩
      have hquot : a.toInt.tdiv b.toInt = -a.toInt := by
        rw [hone, show (-1 : Int64).toInt = -1 by decide, Int.tdiv_neg, Int.tdiv_one]
      rw [Int64.toInt_minValue] at ha
      omega
    · have htwo : b.toInt ≠ -1 := fun hb => hone (Int64.toInt_inj.mp hb)
      have habs : (a.toInt.tdiv b.toInt).natAbs = a.toInt.natAbs / b.toInt.natAbs := Int.natAbs_tdiv _ _
      have hhalf : a.toInt.natAbs / b.toInt.natAbs ≤ a.toInt.natAbs / 2 := Nat.div_le_div_left (by omega) (by omega)
      omega
  · rw [hb, Int.tdiv_zero]
    decide
  · exact fits_tdiv a hb

theorem Exact.div?_eq_none_iff {a b : Int64} : div? a b = none ↔ b = 0 ∨ (a = Int64.minValue ∧ b = -1) := by
  unfold div?
  split
  · simp_all
  · rename_i hb
    rw [ofInt?_eq_none_iff_not_fits, fits_tdiv_iff, not_not, or_iff_right hb]

/-! ## Means -/

variable {ns : List Int} {n : Int}

theorem le_truncate_mean (hne : ns ≠ []) (h : ∀ m ∈ ns, n ≤ m) : n ≤ truncate ((ns.sum : ℚ) / ns.length) := by
  have hlen : (0 : Int) < ns.length := by exact_mod_cast List.length_pos_iff.mpr hne
  have hsum : n * ns.length ≤ ns.sum := by
    have := ns.card_nsmul_le_sum n h
    rwa [nsmul_eq_mul, mul_comm] at this
  calc n = (n * ns.length).tdiv ns.length := (Int.mul_tdiv_cancel n hlen.ne').symm
    _ ≤ ns.sum.tdiv ns.length := Int.tdiv_le_tdiv hlen hsum
    _ = truncate ((ns.sum : ℚ) / ns.length) := by rw [tdiv_eq_truncate, Int.cast_natCast]

theorem truncate_mean_le (hne : ns ≠ []) (h : ∀ m ∈ ns, m ≤ n) : truncate ((ns.sum : ℚ) / ns.length) ≤ n := by
  have hlen : (0 : Int) < ns.length := by exact_mod_cast List.length_pos_iff.mpr hne
  have hsum : ns.sum ≤ n * ns.length := by
    have := ns.sum_le_card_nsmul n h
    rwa [nsmul_eq_mul, mul_comm] at this
  calc truncate ((ns.sum : ℚ) / ns.length) = ns.sum.tdiv ns.length := by rw [tdiv_eq_truncate, Int.cast_natCast]
    _ ≤ (n * ns.length).tdiv ns.length := Int.tdiv_le_tdiv hlen hsum
    _ = n := Int.mul_tdiv_cancel n hlen.ne'

end Rollup
