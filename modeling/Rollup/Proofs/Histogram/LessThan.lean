import Rollup.Proofs.Histogram.Accuracy

/-!
# Estimates below a constant

The estimate for integers below a constant denotes a fraction (`Sized.lessThan_denotes`). But for the `drift` of the
histogram it is at least the fraction in the buckets before the one of the constant, and at most the fraction in these
and in that one (`Sized.le_below`, `Sized.below_le`). So it grows with the constant (`Sized.below_mono`,
`estimate_less_mono`).
-/

namespace Rollup.Histogram

open Binary64 (Denotes round_mono round_nonneg)

variable {h h₀ : Histogram} {v v' : Int64} {values : List Int64}

/-! ## Estimates as fractions -/

/-- The estimate for integers below a constant. -/
def below (h : Histogram) (v : Int64) : ℚ :=
  if v ≤ h.lower then 0
  else if h.upper ≤ v then 1
  else if h.observations = 0 then 0
  else max 0 (min (h.interpolation (h.bucketOf v) v) 1)

theorem Sized.lessThan_denotes (hs : h.Sized) (v : Int64) : (h.lessThan v).Denotes (h.below v) := by
  unfold lessThan below
  split
  · exact .zero
  · split
    · exact .one
    · split
      · exact .zero
      · exact hs.interpolated_denotes ‹_› v

theorem below_nonneg (h : Histogram) (v : Int64) : 0 ≤ h.below v := by
  unfold below
  split_ifs
  · exact le_rfl
  · exact zero_le_one
  · exact le_rfl
  · exact le_max_left _ _

theorem below_le_one (h : Histogram) (v : Int64) : h.below v ≤ 1 := by
  unfold below
  split_ifs
  · exact zero_le_one
  · exact le_rfl
  · exact zero_le_one
  · exact max_le zero_le_one (min_le_right _ _)

/-- A constant between the bounds. -/
structure Inside (h : Histogram) (v : Int64) : Prop where
  lower_lt : h.lower < v
  lt_upper : v < h.upper

theorem Inside.covers (hv : h.Inside v) : h.Covers v :=
  ⟨Int64.le_of_lt hv.lower_lt, Int64.le_of_lt hv.lt_upper⟩

theorem Inside.one_le_reach (hv : h.Inside v) : 1 ≤ h.reach := by
  have hlo := Int64.lt_iff_toInt_lt.mp hv.lower_lt
  have hhi := Int64.lt_iff_toInt_lt.mp hv.lt_upper
  unfold reach
  omega

theorem Inside.below_eq (hv : h.Inside v) (h0 : h.observations ≠ 0) :
    h.below v = max 0 (min (h.interpolation (h.bucketOf v) v) 1) := by
  rw [below, if_neg (Int64.not_le.mpr hv.lower_lt), if_neg (Int64.not_le.mpr hv.lt_upper), if_neg h0]

/-! ## Parts of buckets -/

theorem share_mono (h : Histogram) (i : Fin h.counts.size) {x y : ℚ} (hxy : x ≤ y) : h.share i x ≤ h.share i y := by
  unfold share
  gcongr

theorem share_zero_nonneg (h : Histogram) (i : Fin h.counts.size) : 0 ≤ h.share i 0 := by
  unfold share
  positivity

theorem Sized.share_one_le (hs : h.Sized) (i : Fin h.counts.size) : h.share i 1 ≤ 1 := by
  refine div_le_one_of_le₀ ?_ (by positivity)
  rw [mul_one]
  exact_mod_cast hs.before_add_le i i.isLt

/-- What is wrong with a part counts for no more in the fraction. -/
theorem Sized.abs_share_sub_le (hs : h.Sized) (i : Fin h.counts.size) (x y : ℚ) :
    |h.share i x - h.share i y| ≤ |x - y| := by
  have hcount : (h.counts[i] : ℚ) / h.observations ≤ 1 := by
    refine div_le_one_of_le₀ ?_ (by positivity)
    exact_mod_cast (Nat.le_add_left _ _).trans (hs.before_add_le i i.isLt)
  calc |h.share i x - h.share i y| = |h.counts[i] / h.observations * (x - y)| := by
        unfold share
        ring_nf
    _ = h.counts[i] / h.observations * |x - y| := by rw [abs_mul, abs_of_nonneg (by positivity)]
    _ ≤ |x - y| := mul_le_of_le_one_left (abs_nonneg _) hcount

/-- Moving a number into the unit interval brings it no farther from the numbers there. -/
theorem abs_clamp_sub_le {x y : ℚ} (hy0 : 0 ≤ y) (hy1 : y ≤ 1) : |max 0 (min x 1) - y| ≤ |x - y| := by
  calc |max 0 (min x 1) - y| = |max (min x 1) 0 - max (min y 1) 0| := by
        rw [max_comm, min_eq_left hy1, max_eq_left hy0]
    _ ≤ |min x 1 - min y 1| := abs_max_sub_max_le_abs _ _ _
    _ ≤ |x - y| := abs_inf_sub_inf_le_abs x y 1

/-- A number that is not far from the unit interval is not moved far into it. -/
theorem abs_sub_clamp_le {x m : ℚ} (hlo : -m ≤ x) (hhi : x ≤ 1 + m) (hm : 0 ≤ m) : |x - max 0 (min x 1)| ≤ m := by
  rcases le_total x 0 with h0 | h0
  · rw [max_eq_left (min_le_of_left_le h0), sub_zero, abs_of_nonpos h0]
    linarith
  · rcases le_total x 1 with h1 | h1
    · rwa [min_eq_left h1, max_eq_right h0, sub_self, abs_zero]
    · rw [min_eq_right h1, max_eq_right zero_le_one, abs_of_nonneg (by linarith)]
      linarith

namespace Near

/-- The estimate is the fraction up to the place of the constant in its bucket, but for half of the drift. -/
theorem abs_below_sub_share_le (hn : h.Near) (hv : h.Inside v) (h0 : h.observations ≠ 0) {x : ℚ} (hx0 : 0 ≤ x)
    (hx1 : x ≤ 1) (hx : |h.offset (h.bucketOf v) v - x| ≤ h.margin) :
    |h.below v - h.share (h.bucketOf v) x| ≤ h.drift / 2 := by
  have hmargin := h.margin_add_le
  have hoffset : |h.offset (h.bucketOf v) v| ≤ 2 :=
    Binary64.abs_le_of_abs_sub_le hx (abs_le.mpr ⟨by linarith, hx1⟩) (by linarith [hn.drift_lt_two])
  have hfraction := abs_fraction_sub_le (Nat.one_le_iff_ne_zero.mpr h0)
    (hn.before_add_le _ (h.bucketOf v).isLt) hoffset
  rw [hv.below_eq h0]
  calc _ ≤ |h.interpolation (h.bucketOf v) v - h.share (h.bucketOf v) x| :=
        abs_clamp_sub_le ((h.share_zero_nonneg _).trans (h.share_mono _ hx0))
          ((h.share_mono _ hx1).trans (hn.share_one_le _))
    _ ≤ 12 / 2 ^ 53 + h.margin :=
        (abs_sub_le _ (h.share (h.bucketOf v) (h.offset (h.bucketOf v) v)) _).trans
          (add_le_add hfraction ((hn.abs_share_sub_le _ _ _).trans hx))
    _ ≤ h.drift / 2 := by linarith

end Near

/-- Where the bounds are too far from zero, the drift is all that there is to estimate. -/
theorem Sized.near_or_far (hs : h.Sized) (hv : h.Inside v) : h.Near ∨ 1 ≤ h.drift / 2 := by
  rcases lt_or_ge h.drift 2 with hnear | hfar
  · exact .inl ⟨hs, hv.one_le_reach, hnear⟩
  · exact .inr (by linarith)

theorem abs_sub_le_one {x y : ℚ} (hx0 : 0 ≤ x) (hx1 : x ≤ 1) (hy0 : 0 ≤ y) (hy1 : y ≤ 1) : |x - y| ≤ 1 := by
  rw [abs_le]
  constructor <;> linarith

section Whole

variable (hs : h.Sized) (hv : h.Inside v) (h0 : h.observations ≠ 0)

include hs hv h0

/-- The estimate is the fraction up to some place in the bucket of the constant. -/
theorem Sized.exists_abs_below_sub_share_le :
    ∃ x, 0 ≤ x ∧ x ≤ 1 ∧ |h.below v - h.share (h.bucketOf v) x| ≤ h.drift / 2 := by
  rcases hs.near_or_far hv with hn | hfar
  · obtain ⟨hlo, hhi⟩ := hn.offset_bounds hv.covers
    have hx1 : max 0 (min (h.offset (h.bucketOf v) v) 1) ≤ 1 := max_le zero_le_one (min_le_right _ _)
    exact ⟨_, le_max_left _ _, hx1, hn.abs_below_sub_share_le hv h0 (le_max_left _ _) hx1
      (abs_sub_clamp_le hlo hhi h.margin_nonneg)⟩
  · exact ⟨0, le_rfl, zero_le_one, (abs_sub_le_one (h.below_nonneg v) (h.below_le_one v) (h.share_zero_nonneg _)
      ((h.share_mono _ zero_le_one).trans (hs.share_one_le _))).trans hfar⟩

theorem Sized.le_below : h.share (h.bucketOf v) 0 - h.drift / 2 ≤ h.below v := by
  obtain ⟨x, hx0, _, hx⟩ := hs.exists_abs_below_sub_share_le hv h0
  linarith [h.share_mono (h.bucketOf v) hx0, (abs_le.mp hx).1]

theorem Sized.below_le : h.below v ≤ h.share (h.bucketOf v) 1 + h.drift / 2 := by
  obtain ⟨x, _, hx1, hx⟩ := hs.exists_abs_below_sub_share_le hv h0
  linarith [h.share_mono (h.bucketOf v) hx1, (abs_le.mp hx).2]

/-- At the start of a bucket the estimate is the fraction in the buckets before it. -/
theorem Sized.abs_below_sub_le (hstart : h.rise v * h.counts.size = (h.bucketOf v : ℕ) * h.span) :
    |h.below v - h.share (h.bucketOf v) 0| ≤ h.drift / 2 := by
  rcases hs.near_or_far hv with hn | hfar
  · refine hn.abs_below_sub_share_le hv h0 le_rfl zero_le_one ?_
    rw [sub_zero]
    exact hn.abs_offset_le_margin hv.covers hstart
  · exact (abs_sub_le_one (h.below_nonneg v) (h.below_le_one v) (h.share_zero_nonneg _)
      ((h.share_mono _ zero_le_one).trans (hs.share_one_le _))).trans hfar

end Whole

/-! ## Order -/

theorem Sized.offset_mono (hs : h.Sized) (i : ℕ) (hle : v ≤ v') : h.offset i v ≤ h.offset i v' := by
  have hint : (v.toInt : ℚ) ≤ v'.toInt := by exact_mod_cast Int64.le_iff_toInt_le.mp hle
  exact round_mono (div_le_div_of_nonneg_right (round_mono (sub_le_sub_right (round_mono hint) _)) hs.step_pos.le)

theorem fraction_mono (h : Histogram) (before count : ℕ) {x y : ℚ} (hxy : x ≤ y) :
    h.fraction before count x ≤ h.fraction before count y := by
  have hcount : 0 ≤ Binary64.round count := round_nonneg (by positivity)
  have htotal : 0 ≤ Binary64.round h.observations := round_nonneg (by positivity)
  refine round_mono (div_le_div_of_nonneg_right (round_mono ?_) htotal)
  exact add_le_add_right (round_mono (mul_le_mul_of_nonneg_left hxy hcount)) _

/-- Inside one bucket the estimate keeps the order of the constants. -/
theorem Sized.below_le_below_of_bucketOf_eq (hs : h.Sized) (hv : h.Inside v) (hv' : h.Inside v') (hle : v ≤ v')
    (h0 : h.observations ≠ 0) (hb : h.bucketOf v = h.bucketOf v') : h.below v ≤ h.below v' := by
  rw [hv.below_eq h0, hv'.below_eq h0, hb]
  exact max_le_max_left _ (min_le_min_right _ (h.fraction_mono _ _ (hs.offset_mono _ hle)))

/-- Of two constants in different buckets the lesser one has no more below it, but for the drift. -/
theorem Sized.below_le_below_of_bucketOf_lt (hs : h.Sized) (hv : h.Inside v) (hv' : h.Inside v')
    (h0 : h.observations ≠ 0) (hb : h.bucketOf v < h.bucketOf v') : h.below v ≤ h.below v' + h.drift := by
  have hwhole : h.share (h.bucketOf v) 1 ≤ h.share (h.bucketOf v') 0 := by
    unfold share
    rw [mul_one, mul_zero, add_zero]
    refine div_le_div_of_nonneg_right ?_ (by positivity)
    exact_mod_cast before_add_le_before hb (h.bucketOf v').isLt.le
  linarith [hs.below_le hv h0, hs.le_below hv' h0]

/-- The estimate does not fall by more than the drift. -/
theorem Sized.below_mono (hs : h.Sized) (hle : v ≤ v') : h.below v ≤ h.below v' + h.drift := by
  have hdrift := h.drift_nonneg
  have hnonneg := h.below_nonneg v'
  by_cases hlo : v ≤ h.lower
  · have hzero : h.below v = 0 := if_pos hlo
    linarith
  by_cases hhi : h.upper ≤ v'
  · have hone : h.below v' = 1 := by
      rw [below, if_neg fun hlo' => hlo (Int64.le_trans hle hlo'), if_pos hhi]
    linarith [h.below_le_one v]
  by_cases h0 : h.observations = 0
  · have hzero : h.below v = 0 := by
      rw [below, if_neg hlo, if_neg fun hhi' => hhi (Int64.le_trans hhi' hle), if_pos h0]
    linarith
  have hv : h.Inside v := ⟨Int64.not_le.mp hlo, Int64.lt_of_le_of_lt hle (Int64.not_le.mp hhi)⟩
  have hv' : h.Inside v' := ⟨Int64.lt_of_lt_of_le hv.lower_lt hle, Int64.not_le.mp hhi⟩
  rcases (hs.bucketOf_mono hv.covers hv'.covers hle).lt_or_eq with hb | hb
  · exact hs.below_le_below_of_bucketOf_lt hv hv' h0 hb
  · linarith [hs.below_le_below_of_bucketOf_eq hv hv' hle h0 (Fin.ext hb)]

/-- **Estimates below greater constants.** A greater constant has no smaller estimate, but for the tolerance; that is
nine places unless the bounds are many buckets from zero. -/
theorem estimate_less_mono {buckets : ℕ} {lower upper : Int64} (hnew : ofBounds buckets lower upper = .ok h₀)
    (hrun : h₀.addAll values = ⟨.ok (), h⟩) (hbuckets : buckets < 2 ^ 64) (hvalues : values.length < 2 ^ 64)
    (hle : v ≤ v') :
    (∃ p p', (h.estimate .less v).Denotes p ∧ (h.estimate .less v').Denotes p' ∧ p ≤ p' + h.tolerance) ∧
      (h.reach * buckets ≤ 250000 * h.span → h.tolerance = 1 / 10 ^ 9) := by
  have hs := sized_addAll hnew hrun hbuckets hvalues
  obtain ⟨-, -, hsize⟩ := shape_addAll hnew hrun
  refine ⟨⟨h.below v, h.below v', hs.lessThan_denotes v, hs.lessThan_denotes v', ?_⟩, ?_⟩
  · linarith [hs.below_mono hle, h.drift_le_tolerance]
  · rw [← hsize]
    exact tolerance_eq

/-- Of these two constants, the second one is the first in its bucket. -/
theorem estimate_less_mono_seven_buckets :
    ∃ h₀ h, ofBounds 7 (-50) 83 = .ok h₀ ∧ h₀.addAll [-50, -12, 0, 0, 26, 83] = ⟨.ok (), h⟩ ∧
      h.reach * 7 ≤ 250000 * h.span ∧
      ∃ p p', (h.estimate .less (-12)).Denotes p ∧ (h.estimate .less (-11)).Denotes p' ∧ p ≤ p' + 1 / 10 ^ 9 := by
  obtain ⟨h₀, h, hnew, hrun, hnear⟩ : ∃ h₀ h, ofBounds 7 (-50) 83 = .ok h₀ ∧
      h₀.addAll [-50, -12, 0, 0, 26, 83] = ⟨.ok (), h⟩ ∧ h.reach * 7 ≤ 250000 * h.span :=
    ⟨_, _, rfl, rfl, by decide +kernel⟩
  have hle : (-12 : Int64) ≤ -11 := by decide
  obtain ⟨hmono, htolerance⟩ := estimate_less_mono hnew hrun (by decide) (by decide) hle
  rw [htolerance hnear] at hmono
  exact ⟨h₀, h, hnew, hrun, hnear, hmono⟩

/-- Far from zero the estimate can fall: a constant that lies two integers above another has half of its estimate. -/
theorem estimate_less_falls :
    ∃ h₀ h, ofBounds 10 9007199254740993 9007199254741002 = .ok h₀ ∧
      h₀.addAll [9007199254740994, 9007199254740998] = ⟨.ok (), h⟩ ∧
      (h.estimate .less 9007199254740994).Denotes 1 ∧ (h.estimate .less 9007199254740996).Denotes (1 / 2) ∧
      ¬(1 : ℚ) ≤ 1 / 2 + 1 / 10 ^ 9 :=
  ⟨_, _, rfl, rfl, by decide +kernel, by decide +kernel, by norm_num⟩

end Rollup.Histogram
