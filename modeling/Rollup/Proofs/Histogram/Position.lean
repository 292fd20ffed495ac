import Rollup.Proofs.Histogram.Accuracy

/-!
# Positions

The position of an integer is its rise in widths of a bucket, as it is computed: the width is rounded, and so are the
rise and the quotient of the two. Without any rounding it is the `place` of the integer. Whatever the shape of the
histogram, the two differ by less than the number of buckets over `2 ^ 50` (`Sized.abs_position_sub_place_lt`).
-/

namespace Rollup.Histogram

open Binary64 (abs_le_of_abs_sub_le abs_mul_sub_eq abs_round_sub_self_le abs_round_div_mul_sub_le)

variable {h : Histogram} {v : Int64}

/-- How far an integer lies above the lower bound, in buckets of exactly the same width. -/
def place (h : Histogram) (v : Int64) : ℚ :=
  h.rise v * h.counts.size / h.span

theorem one_le_span' (h : Histogram) : (1 : ℚ) ≤ h.span := by
  exact_mod_cast h.one_le_span

theorem abs_rise_le (hv : h.Covers v) : |(h.rise v : ℚ)| ≤ h.span := by
  rw [abs_of_nonneg (by exact_mod_cast rise_nonneg hv)]
  exact_mod_cast (rise_lt_span hv).le

theorem abs_round_span_sub_le (h : Histogram) : |Binary64.round h.span - h.span| ≤ h.span / 2 ^ 53 :=
  abs_round_sub_self_le (abs_of_pos h.span_pos).le (by linarith [h.one_le_span'])

theorem abs_round_size_sub_le (h : Histogram) :
    |Binary64.round h.counts.size - h.counts.size| ≤ h.counts.size / 2 ^ 53 := by
  have hone : (1 : ℚ) ≤ h.counts.size := by exact_mod_cast h.counts_pos
  exact abs_round_sub_self_le (abs_of_pos h.size_pos).le (by linarith)

theorem abs_round_rise_sub_le (hv : h.Covers v) : |Binary64.round (h.rise v) - h.rise v| ≤ h.span / 2 ^ 53 :=
  abs_round_sub_self_le (abs_rise_le hv) (by linarith [h.one_le_span'])

section Sized

variable (hs : h.Sized)

include hs

/-- The rounded number of buckets times the width is the span but for two roundings. -/
theorem Sized.abs_step_mul_round_sub_le :
    |h.step * Binary64.round h.counts.size - h.span| ≤ 17 / 8 * (h.span / 2 ^ 53) := by
  have hspan := h.one_le_span'
  obtain ⟨hone, hsize⟩ := hs.buckets_bounds
  have hround : |Binary64.round h.span| ≤ 9 / 8 * h.span :=
    abs_le_of_abs_sub_le h.abs_round_span_sub_le (abs_of_pos h.span_pos).le (by linarith)
  have hquotient := abs_round_div_mul_sub_le (w := Binary64.round h.counts.size) (by linarith) hround (by linarith)
    h.abs_round_span_sub_le
  rw [step]
  linarith

/-- The buckets together are as wide as the span but for four roundings, however many they are. -/
theorem Sized.abs_step_mul_sub_le : |h.step * h.counts.size - h.span| ≤ 4 * (h.span / 2 ^ 53) := by
  have hspan := h.span_pos
  have hstep := hs.step_pos
  have hround := abs_le.mp hs.abs_step_mul_round_sub_le
  have hsize := abs_le.mp h.abs_round_size_sub_le
  have hlow := mul_le_mul_of_nonneg_left hsize.1 hstep.le
  have hhigh := mul_le_mul_of_nonneg_left hsize.2 hstep.le
  rw [abs_le]
  constructor <;> linarith

theorem Sized.abs_position_mul_step_sub_le (hv : h.Covers v) :
    |h.position v * h.step - h.rise v| ≤ 17 / 8 * (h.span / 2 ^ 53) := by
  have hspan := h.one_le_span'
  have hround : |Binary64.round (h.rise v)| ≤ 9 / 8 * h.span :=
    abs_le_of_abs_sub_le (abs_round_rise_sub_le hv) (abs_rise_le hv) (by linarith)
  have hquotient := abs_round_div_mul_sub_le hs.step_pos hround (by linarith [hs.step_bounds.2])
    (abs_round_rise_sub_le hv)
  rw [position]
  linarith

/-- A position is not far above the number of buckets. -/
theorem Sized.position_le (hv : h.Covers v) : h.position v ≤ 5 / 4 * h.counts.size := by
  have hspan := h.span_pos
  have hb := h.size_pos
  have hrise := (abs_le.mp (abs_rise_le hv)).2
  have hposition := (abs_le.mp (hs.abs_position_mul_step_sub_le hv)).2
  have hwidth := (abs_le.mp hs.abs_step_mul_sub_le).1
  have hp0 := hs.position_nonneg hv
  refine le_of_mul_le_mul_right (a := 31 / 32 * (h.span : ℚ)) ?_ (by positivity)
  calc h.position v * (31 / 32 * h.span) ≤ h.position v * (h.step * h.counts.size) :=
        mul_le_mul_of_nonneg_left (by linarith) hp0
    _ = h.position v * h.step * h.counts.size := by ring
    _ ≤ 33 / 32 * h.span * h.counts.size := mul_le_mul_of_nonneg_right (by linarith) hb.le
    _ ≤ 5 / 4 * h.counts.size * (31 / 32 * h.span) := by linarith [mul_pos hspan hb]

/-- The position of an integer is its place, but for a small part of the number of buckets. -/
theorem Sized.abs_position_sub_place_lt (hv : h.Covers v) :
    |h.position v - h.place v| < h.counts.size / 2 ^ 50 := by
  have hspan := h.span_pos
  have hb := h.size_pos
  have hp0 := hs.position_nonneg hv
  have herror : |h.position v * h.span - h.rise v * h.counts.size| < h.counts.size / 2 ^ 50 * h.span := by
    calc |h.position v * h.span - h.rise v * h.counts.size|
        = |(h.position v * h.step - h.rise v) * h.counts.size -
            h.position v * (h.step * h.counts.size - h.span)| := by ring_nf
      _ ≤ |(h.position v * h.step - h.rise v) * h.counts.size| +
            |h.position v * (h.step * h.counts.size - h.span)| := abs_sub _ _
      _ = |h.position v * h.step - h.rise v| * h.counts.size +
            h.position v * |h.step * h.counts.size - h.span| := by
          rw [abs_mul, abs_mul, abs_of_pos hb, abs_of_nonneg hp0]
      _ ≤ 17 / 8 * (h.span / 2 ^ 53) * h.counts.size + 5 / 4 * h.counts.size * (4 * (h.span / 2 ^ 53)) :=
          add_le_add (mul_le_mul_of_nonneg_right (hs.abs_position_mul_step_sub_le hv) hb.le)
            (mul_le_mul (hs.position_le hv) hs.abs_step_mul_sub_le (abs_nonneg _) (by positivity))
      _ < h.counts.size / 2 ^ 50 * h.span := by linarith [mul_pos hspan hb]
  rw [abs_mul_sub_eq hspan] at herror
  exact lt_of_mul_lt_mul_right herror hspan.le

end Sized

end Rollup.Histogram
