import Rollup.Proofs.Histogram.Values

/-!
# The error of interpolation

What interpolation gets wrong depends on how far the bounds of a histogram are from zero, counted in widths of a bucket
(`distance`): the start of a bucket and the integer itself are rounded as large numbers, and then only their small
difference is used. As long as one such error is a small part of a bucket (`Near`), the bucket of an integer is off by
no more than this error (`Near.bucket_mul_step_le`, `Near.rise_le_bucket`), an integer lies about where it should in its
bucket (`Near.abs_offset_mul_sub_le`), and so between the ends of the bucket but for a `margin` (`Near.offset_bounds`).
-/

namespace Rollup.Histogram

open Binary64 (abs_le_of_abs_sub_le abs_round_sub_le_add abs_round_sub_self_le abs_mul_sub_eq abs_round_div_mul_sub_le
  round_intCast)

variable {h : Histogram} {v : Int64}

/-! ## Distance from zero -/

/-- The larger absolute value of the two bounds. -/
def reach (h : Histogram) : ℕ :=
  max h.lower.toInt.natAbs h.upper.toInt.natAbs

/-- How far the bounds are from zero, in widths of a bucket. -/
def distance (h : Histogram) : ℚ :=
  h.reach * h.counts.size / h.span

/-- What two estimates together can be wrong by because of rounding. -/
def drift (h : Histogram) : ℚ :=
  (h.distance + 1) / 2 ^ 48

/-- Nine places, or the drift where it is more. -/
def tolerance (h : Histogram) : ℚ :=
  max (1 / 10 ^ 9) h.drift

/-- What an integer can be off its place in a bucket by, as a part of the bucket. -/
def margin (h : Histogram) : ℚ :=
  (13 * h.distance + 4) / 2 ^ 53

/-- The bounds are so near to zero that an integer is not put outside its bucket by as much as a bucket. -/
structure Near (h : Histogram) : Prop extends Sized h where
  one_le_reach : 1 ≤ h.reach
  drift_lt_two : h.drift < 2

theorem span_pos (h : Histogram) : (0 : ℚ) < h.span := by
  exact_mod_cast h.one_le_span

theorem size_pos (h : Histogram) : (0 : ℚ) < h.counts.size := by
  exact_mod_cast h.counts_pos

theorem distance_nonneg (h : Histogram) : 0 ≤ h.distance :=
  div_nonneg (by positivity) h.span_pos.le

theorem drift_nonneg (h : Histogram) : 0 ≤ h.drift :=
  div_nonneg (by linarith [h.distance_nonneg]) (by positivity)

theorem margin_nonneg (h : Histogram) : 0 ≤ h.margin :=
  div_nonneg (by linarith [h.distance_nonneg]) (by positivity)

/-- The drift makes up for two margins and for the roundings that follow. -/
theorem margin_add_le (h : Histogram) : h.margin + 12 / 2 ^ 53 ≤ h.drift / 2 := by
  unfold margin drift
  linarith [h.distance_nonneg]

theorem distance_mul_span (h : Histogram) : h.distance * h.span = h.reach * h.counts.size :=
  div_mul_cancel₀ _ h.span_pos.ne'

theorem drift_le_tolerance (h : Histogram) : h.drift ≤ h.tolerance :=
  le_max_right _ _

/-- For bounds that are up to a quarter of a million buckets from zero, nine places are right. -/
theorem tolerance_eq (hd : h.reach * h.counts.size ≤ 250000 * h.span) : h.tolerance = 1 / 10 ^ 9 := by
  have hdistance : h.distance ≤ 250000 := by
    rw [distance, div_le_iff₀ h.span_pos]
    exact_mod_cast hd
  refine max_eq_left ?_
  unfold drift
  rw [div_le_div_iff₀ (by positivity) (by positivity)]
  linarith

theorem abs_toInt_le_reach (hv : h.Covers v) : |(v.toInt : ℚ)| ≤ h.reach := by
  have hlo := Int64.le_iff_toInt_le.mp hv.1
  have hhi := Int64.le_iff_toInt_le.mp hv.2
  have hle : |v.toInt| ≤ (h.reach : ℤ) := by
    rw [abs_le]
    unfold reach
    omega
  exact_mod_cast hle

theorem rise_le_reach (hv : h.Covers v) : (h.rise v : ℚ) ≤ 2 * h.reach := by
  have hlo := abs_le.mp (abs_toInt_le_reach (v := h.lower) ⟨Int64.le_refl _, h.lower_le_upper⟩)
  have hhi := abs_le.mp (abs_toInt_le_reach hv)
  unfold rise
  push_cast
  linarith

theorem span_le_reach (h : Histogram) : (h.span : ℚ) ≤ 2 * h.reach + 1 := by
  have hle := rise_le_reach (v := h.upper) ⟨h.lower_le_upper, Int64.le_refl _⟩
  unfold rise at hle
  unfold span
  push_cast at hle ⊢
  linarith

/-! ## The width of a bucket -/

section Width

variable (hsize : h.counts.size ≤ 2 ^ 51)

include hsize

/-- The number of buckets, and a bucket, are not rounded. -/
theorem round_natCast {i : ℕ} (hi : i ≤ h.counts.size) : Binary64.round i = i := by
  have hexact := round_intCast (n := i) (by unfold Binary64.maxSignificand; omega)
  rwa [Int.cast_natCast] at hexact

/-- The buckets together are as wide as the span but for three roundings. -/
theorem abs_step_mul_sub_le : |h.step * h.counts.size - h.span| ≤ 3 * (h.span / 2 ^ 53) := by
  have hone : (1 : ℚ) ≤ h.span := by exact_mod_cast h.one_le_span
  have hsize' : (h.counts.size : ℚ) ≤ 2 ^ 51 := by exact_mod_cast hsize
  have hspan : |Binary64.round h.span - h.span| ≤ h.span / 2 ^ 53 :=
    abs_round_sub_self_le (abs_of_pos h.span_pos).le (by norm_num; linarith)
  have hround : |Binary64.round h.span| ≤ 2 * h.span :=
    abs_le_of_abs_sub_le hspan (abs_of_pos h.span_pos).le (by linarith)
  have hstep := abs_round_div_mul_sub_le h.size_pos hround (by linarith) hspan
  rw [step, round_natCast hsize le_rfl]
  linarith

end Width

namespace Near

theorem one_le_reach' (hn : h.Near) : (1 : ℚ) ≤ h.reach := by
  exact_mod_cast hn.one_le_reach

theorem distance_le (hn : h.Near) : h.distance ≤ 2 ^ 49 - 1 := by
  have hd := hn.drift_lt_two
  rw [drift, div_lt_iff₀ (by positivity)] at hd
  linarith

theorem size_le (hn : h.Near) : h.counts.size ≤ 2 ^ 51 := by
  have hreach := hn.one_le_reach'
  have hspan : (h.span : ℚ) ≤ 3 * h.reach := by linarith [h.span_le_reach]
  have hprod : (h.reach : ℚ) * h.counts.size ≤ h.reach * (3 * 2 ^ 49) := by
    rw [← h.distance_mul_span]
    nlinarith [hn.distance_le, h.distance_nonneg, h.span_pos]
  have hle : (h.counts.size : ℚ) ≤ 2 ^ 51 := by linarith [le_of_mul_le_mul_left hprod (by linarith)]
  exact_mod_cast hle

/-- The bounds are not farther from zero than their distance says, but for the error of the width. -/
theorem reach_le (hn : h.Near) : h.reach ≤ (1 + 4 / 2 ^ 53) * h.distance * h.step := by
  have hb := h.size_pos
  have hd := h.distance_nonneg
  have hwidth := (abs_le.mp (abs_step_mul_sub_le hn.size_le)).1
  have hspan : (h.span : ℚ) ≤ (1 + 4 / 2 ^ 53) * (h.step * h.counts.size) := by
    linarith [h.span_pos]
  have hprod : (h.reach : ℚ) * h.counts.size ≤ (1 + 4 / 2 ^ 53) * h.distance * h.step * h.counts.size := by
    calc (h.reach : ℚ) * h.counts.size = h.distance * h.span := h.distance_mul_span.symm
      _ ≤ h.distance * ((1 + 4 / 2 ^ 53) * (h.step * h.counts.size)) := mul_le_mul_of_nonneg_left hspan hd
      _ = (1 + 4 / 2 ^ 53) * h.distance * h.step * h.counts.size := by ring
  exact le_of_mul_le_mul_right hprod hb

/-- Rounding a number as large as the bounds makes an error that is a small part of a bucket. -/
theorem error_le_step (hn : h.Near) : 15 * (h.reach / 2 ^ 53) ≤ h.step := by
  have hw := hn.step_pos
  have hmul := mul_le_mul_of_nonneg_right hn.distance_le hw.le
  linarith [hn.reach_le]

/-! ## The bucket of an integer -/

theorem abs_position_mul_sub_le (hn : h.Near) (hv : h.Covers v) :
    |h.position v * h.step - h.rise v| ≤ 5 * (h.reach / 2 ^ 53) := by
  have hreach := hn.one_le_reach'
  have hrise : |(h.rise v : ℚ)| ≤ 2 * h.reach := by
    rw [abs_of_nonneg (by exact_mod_cast rise_nonneg hv)]
    exact rise_le_reach hv
  have herror : |Binary64.round (h.rise v) - h.rise v| ≤ 2 * h.reach / 2 ^ 53 :=
    abs_round_sub_self_le hrise (by linarith)
  have hround : |Binary64.round (h.rise v)| ≤ 3 * h.reach := abs_le_of_abs_sub_le herror hrise (by linarith)
  have hposition := abs_round_div_mul_sub_le hn.step_pos hround (by linarith [hn.step_bounds.2]) herror
  rw [position]
  linarith

/-- A bucket does not start above its integers. -/
theorem bucket_mul_step_le (hn : h.Near) (hv : h.Covers v) :
    (h.bucketOf v : ℕ) * h.step ≤ h.rise v + 6 * (h.reach / 2 ^ 53) := by
  have hfloor : (h.bucketOf v : ℤ) ≤ (h.position v).floor := by
    have hnonneg := Int.floor_nonneg.mpr (hn.position_nonneg hv)
    rw [hn.bucketOf_eq hv]
    have : (h.position v).floor.toNat = (h.position v).floor := Int.toNat_of_nonneg hnonneg
    omega
  have hle : ((h.bucketOf v : ℕ) : ℚ) ≤ h.position v := by exact_mod_cast Int.le_floor.mp hfloor
  have hmul := mul_le_mul_of_nonneg_right hle hn.step_pos.le
  have hposition := (abs_le.mp (hn.abs_position_mul_sub_le hv)).2
  linarith [hn.one_le_reach']

/-- A bucket does not end below its integers. -/
theorem rise_le_bucket (hn : h.Near) (hv : h.Covers v) :
    h.rise v ≤ ((h.bucketOf v : ℕ) + 1) * h.step + 6 * (h.reach / 2 ^ 53) := by
  have hnonneg := Int.floor_nonneg.mpr (hn.position_nonneg hv)
  rcases le_or_gt (h.position v).floor.toNat (h.counts.size - 1) with hle | hgt
  · have hbucket : ((h.bucketOf v : ℕ) : ℤ) = (h.position v).floor := by
      rw [hn.bucketOf_eq hv, min_eq_left hle]
      exact Int.toNat_of_nonneg hnonneg
    have hlt : h.position v < (h.bucketOf v : ℕ) + 1 := by
      have := Int.lt_floor_add_one (h.position v)
      rw [← Int.cast_natCast, hbucket]
      exact this
    have hmul := mul_le_mul_of_nonneg_right hlt.le hn.step_pos.le
    have hposition := (abs_le.mp (hn.abs_position_mul_sub_le hv)).1
    linarith [hn.one_le_reach']
  · -- the last bucket ends where the range ends
    have hbucket : (h.bucketOf v : ℕ) + 1 = h.counts.size := by
      have hsize := h.counts_pos
      rw [hn.bucketOf_eq hv]
      omega
    have hlast : ((h.bucketOf v : ℕ) : ℚ) + 1 = h.counts.size := by exact_mod_cast hbucket
    have hrise : (h.rise v : ℚ) + 1 ≤ h.span := by exact_mod_cast rise_lt_span hv
    have hwidth := (abs_le.mp (abs_step_mul_sub_le hn.size_le)).1
    rw [hlast]
    linarith [h.span_le_reach]

/-! ## The place of an integer in its bucket -/

theorem abs_start_sub_le (hn : h.Near) (hv : h.Covers v) :
    |h.start (h.bucketOf v) - (h.lower.toInt + (h.bucketOf v : ℕ) * h.step)| ≤ 5 * (h.reach / 2 ^ 53) := by
  have hreach := hn.one_le_reach'
  have hlow : |(h.lower.toInt : ℚ)| ≤ h.reach := abs_toInt_le_reach ⟨Int64.le_refl _, h.lower_le_upper⟩
  have hstep := hn.bucket_mul_step_le hv
  have hmul : |((h.bucketOf v : ℕ) : ℚ) * h.step| ≤ 5 / 2 * h.reach := by
    rw [abs_of_nonneg (mul_nonneg (by positivity) hn.step_pos.le)]
    linarith [rise_le_reach hv]
  -- the exact start lies between the lower bound and, but for the error, the integer
  have hsum : |h.lower.toInt + (h.bucketOf v : ℕ) * h.step| ≤ h.reach + 6 * (h.reach / 2 ^ 53) := by
    have hnonneg : 0 ≤ ((h.bucketOf v : ℕ) : ℚ) * h.step := mul_nonneg (by positivity) hn.step_pos.le
    have hle := (abs_le.mp (abs_toInt_le_reach hv)).2
    unfold rise at hstep
    push_cast at hstep
    rw [abs_le] at hlow ⊢
    constructor <;> linarith
  have herrorLow : |Binary64.round h.lower.toInt - h.lower.toInt| ≤ h.reach / 2 ^ 53 :=
    abs_round_sub_self_le hlow (by linarith)
  have herrorMul := abs_round_sub_self_le hmul (by linarith)
  have herror : |Binary64.round h.lower.toInt + Binary64.round ((h.bucketOf v : ℕ) * h.step) -
      (h.lower.toInt + (h.bucketOf v : ℕ) * h.step)| ≤ 7 / 2 * (h.reach / 2 ^ 53) := by
    rw [abs_le] at herrorLow herrorMul ⊢
    constructor <;> linarith
  have hround : |Binary64.round h.lower.toInt + Binary64.round ((h.bucketOf v : ℕ) * h.step)| ≤ 3 / 2 * h.reach :=
    abs_le_of_abs_sub_le herror hsum (by linarith)
  have hstart := abs_round_sub_le_add hround (by linarith) herror
  rw [start, round_natCast hn.size_le (h.bucketOf v).isLt.le]
  linarith

/-- The place of an integer in its bucket is what it should be, but for errors of numbers as large as the bounds. -/
theorem abs_offset_mul_sub_le (hn : h.Near) (hv : h.Covers v) :
    |h.offset (h.bucketOf v) v * h.step - (h.rise v - (h.bucketOf v : ℕ) * h.step)| ≤
      6 * (h.reach / 2 ^ 53) + 4 * (h.step / 2 ^ 53) := by
  have hreach := hn.one_le_reach'
  have hw := hn.step_bounds
  have hsmall := hn.error_le_step
  have hlow := hn.bucket_mul_step_le hv
  have hhigh := hn.rise_le_bucket hv
  have hstart := hn.abs_start_sub_le hv
  have hv' := abs_toInt_le_reach hv
  have herrorInt : |Binary64.round v.toInt - v.toInt| ≤ h.reach / 2 ^ 53 :=
    abs_round_sub_self_le hv' (by linarith)
  have herror : |Binary64.round v.toInt - h.start (h.bucketOf v) - (h.rise v - (h.bucketOf v : ℕ) * h.step)| ≤
      6 * (h.reach / 2 ^ 53) := by
    unfold rise
    push_cast
    rw [abs_le] at hstart herrorInt ⊢
    constructor <;> linarith
  have hplace : |h.rise v - (h.bucketOf v : ℕ) * h.step| ≤ h.step + 6 * (h.reach / 2 ^ 53) := by
    rw [abs_le]
    constructor <;> linarith
  have hsub := abs_le_of_abs_sub_le (c := 2 * h.step) herror hplace (by linarith)
  have hdiff := abs_round_sub_le_add hsub (by linarith [hw.1]) herror
  have hround := abs_le_of_abs_sub_le (c := 2 * h.step) hdiff hplace (by linarith)
  have hoffset := abs_round_div_mul_sub_le hn.step_pos hround (by linarith) hdiff
  rw [offset]
  linarith

theorem error_le_margin (hn : h.Near) :
    12 * (h.reach / 2 ^ 53) + 4 * (h.step / 2 ^ 53) ≤ h.margin * h.step := by
  have hd := mul_nonneg h.distance_nonneg hn.step_pos.le
  unfold margin
  linarith [hn.reach_le]

/-- An integer lies between the ends of its bucket, but for a margin. -/
theorem offset_bounds (hn : h.Near) (hv : h.Covers v) :
    -h.margin ≤ h.offset (h.bucketOf v) v ∧ h.offset (h.bucketOf v) v ≤ 1 + h.margin := by
  have hw := hn.step_pos
  have hoffset := abs_le.mp (hn.abs_offset_mul_sub_le hv)
  have hlow := hn.bucket_mul_step_le hv
  have hhigh := hn.rise_le_bucket hv
  have hmargin := hn.error_le_margin
  constructor
  · refine le_of_mul_le_mul_right ?_ hw
    linarith
  · refine le_of_mul_le_mul_right ?_ hw
    linarith

/-- An integer at the start of its bucket is found there, but for a margin. -/
theorem abs_offset_le_margin (hn : h.Near) (hv : h.Covers v)
    (hstart : h.rise v * h.counts.size = (h.bucketOf v : ℕ) * h.span) :
    |h.offset (h.bucketOf v) v| ≤ h.margin := by
  have hw := hn.step_pos
  have hb := h.size_pos
  have hoffset := abs_le.mp (hn.abs_offset_mul_sub_le hv)
  have hmargin := hn.error_le_margin
  have hrise := rise_le_reach hv
  have hstart' : (h.rise v : ℚ) * h.counts.size = (h.bucketOf v : ℕ) * h.span := by exact_mod_cast hstart
  -- the start differs from the exact one as the width does from the exact width
  have hdiff : |h.rise v - (h.bucketOf v : ℕ) * h.step| ≤ 6 * (h.reach / 2 ^ 53) := by
    refine le_of_mul_le_mul_right ?_ hb
    calc |h.rise v - (h.bucketOf v : ℕ) * h.step| * h.counts.size
        = |(h.rise v : ℚ) * h.counts.size - (h.bucketOf v : ℕ) * h.step * h.counts.size| := by
          rw [← sub_mul, abs_mul, abs_of_pos hb]
      _ = |(h.bucketOf v : ℕ) * (h.step * h.counts.size - h.span)| := by
          rw [hstart', abs_sub_comm]
          ring_nf
      _ = (h.bucketOf v : ℕ) * |h.step * h.counts.size - h.span| := by
          rw [abs_mul, Nat.abs_cast]
      _ ≤ (h.bucketOf v : ℕ) * (3 * (h.span / 2 ^ 53)) :=
          mul_le_mul_of_nonneg_left (abs_step_mul_sub_le hn.size_le) (by positivity)
      _ = 3 * (h.rise v / 2 ^ 53) * h.counts.size := by linarith
      _ ≤ 6 * (h.reach / 2 ^ 53) * h.counts.size := mul_le_mul_of_nonneg_right (by linarith) hb.le
  rw [abs_le] at hdiff ⊢
  constructor
  · refine le_of_mul_le_mul_right ?_ hw
    linarith
  · refine le_of_mul_le_mul_right ?_ hw
    linarith

end Near

/-! ## From the place to the fraction -/

section Fraction

variable {before count total : ℕ} {offset : ℚ}

theorem abs_round_natCast_sub_le {n : ℕ} (hn : n ≤ total) (hone : 1 ≤ total) :
    |Binary64.round n - n| ≤ total / 2 ^ 53 := by
  have hn : (n : ℚ) ≤ total := by exact_mod_cast hn
  have hone : (1 : ℚ) ≤ total := by exact_mod_cast hone
  exact abs_round_sub_self_le (by rwa [Nat.abs_cast]) (by linarith)

/-- A part of a bucket does not weigh more than twice what the bucket does. -/
theorem abs_weight_le (hsum : before + count ≤ total) (hoffset : |offset| ≤ 2) :
    |(before : ℚ) + count * offset| ≤ 2 * total := by
  have hsum : (before : ℚ) + count ≤ total := by exact_mod_cast hsum
  have hbefore : (0 : ℚ) ≤ before := by positivity
  have hpart : |(count : ℚ) * offset| ≤ count * 2 := by
    rw [abs_mul, Nat.abs_cast]
    exact mul_le_mul_of_nonneg_left hoffset (by positivity)
  rw [abs_le] at hpart ⊢
  constructor <;> linarith

theorem abs_round_weight_sub_le (hone : 1 ≤ total) (hsum : before + count ≤ total) (hoffset : |offset| ≤ 2) :
    |Binary64.round (Binary64.round before + Binary64.round (Binary64.round count * offset)) -
      (before + count * offset)| ≤ 15 / 2 * (total / 2 ^ 53) := by
  have hone' : (1 : ℚ) ≤ total := by exact_mod_cast hone
  have herrorBefore := abs_round_natCast_sub_le (n := before) (by omega) hone
  have herrorCount := abs_round_natCast_sub_le (n := count) (by omega) hone
  have hpart : |(count : ℚ) * offset| ≤ 2 * total := by
    have hle : |((0 : ℕ) : ℚ) + count * offset| ≤ 2 * total := abs_weight_le (by omega) hoffset
    rwa [Nat.cast_zero, zero_add] at hle
  have herrorMul : |Binary64.round count * offset - count * offset| ≤ 2 * (total / 2 ^ 53) := by
    rw [← sub_mul, abs_mul, mul_comm]
    exact mul_le_mul hoffset herrorCount (abs_nonneg _) zero_le_two
  have hroundMul := abs_le_of_abs_sub_le (c := 17 / 8 * total) herrorMul hpart (by linarith)
  have herrorPart := abs_round_sub_le_add hroundMul (by linarith) herrorMul
  have herrorSum : |Binary64.round before + Binary64.round (Binary64.round count * offset) - (before + count * offset)| ≤
      41 / 8 * (total / 2 ^ 53) := by
    rw [abs_le] at herrorBefore herrorPart ⊢
    constructor <;> linarith
  have hroundSum := abs_le_of_abs_sub_le (c := 17 / 8 * total) herrorSum (abs_weight_le hsum hoffset) (by linarith)
  have herror := abs_round_sub_le_add hroundSum (by linarith) herrorSum
  linarith

theorem abs_round_share_sub_le {weight exact : ℚ} (hone : 1 ≤ total) (hexact : |exact| ≤ 2 * total)
    (herror : |weight - exact| ≤ 15 / 2 * (total / 2 ^ 53)) :
    |Binary64.round (weight / Binary64.round total) - exact / total| ≤ 12 / 2 ^ 53 := by
  have hone' : (1 : ℚ) ≤ total := by exact_mod_cast hone
  have herrorTotal := abs_round_natCast_sub_le le_rfl hone
  have htotal := abs_le.mp herrorTotal
  have hpos : 0 < Binary64.round total := by linarith
  have hweight := abs_le_of_abs_sub_le (c := 17 / 8 * total) herror hexact (by linarith)
  have hshare := abs_round_div_mul_sub_le hpos hweight (by linarith) herror
  set share := Binary64.round (weight / Binary64.round total)
  have hsize : |share| ≤ 19 / 8 := by
    have hmul := abs_le_of_abs_sub_le (c := 9 / 4 * total) hshare hexact (by linarith)
    rw [abs_mul, abs_of_pos hpos] at hmul
    exact le_of_mul_le_mul_right (hmul.trans (by linarith)) hpos
  -- the share is of the rounded total
  have hrest : |share * (Binary64.round total - total)| ≤ 19 / 8 * (total / 2 ^ 53) := by
    rw [abs_mul]
    exact mul_le_mul hsize herrorTotal (abs_nonneg _) (by norm_num)
  have hmul : |share * total - exact| ≤ 12 / 2 ^ 53 * total := by
    rw [abs_le] at hshare hrest ⊢
    constructor <;> linarith
  rw [abs_mul_sub_eq (by linarith)] at hmul
  exact le_of_mul_le_mul_right hmul (by linarith)

/-- Of a bucket with the others before it, a part gives the fraction that it should, but for twelve roundings. -/
theorem abs_fraction_sub_le (hone : 1 ≤ h.observations) (hsum : before + count ≤ h.observations)
    (hoffset : |offset| ≤ 2) :
    |h.fraction before count offset - (before + count * offset) / h.observations| ≤ 12 / 2 ^ 53 :=
  abs_round_share_sub_le hone (abs_weight_le hsum hoffset) (abs_round_weight_sub_le hone hsum hoffset)

end Fraction

end Rollup.Histogram
