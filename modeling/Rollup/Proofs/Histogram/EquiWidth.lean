import Rollup.Proofs.Histogram.LessThan
import Rollup.Proofs.Histogram.Placement

/-!
# Estimates and exact buckets

Of the integers in exact buckets, those of earlier buckets lie below an integer, and those of later ones above it, so the
fraction below it lies between what the buckets before its own hold and what they hold together with that
(`brackets_truth`); a constant at the start of a bucket has the first of the two below it (`countP_lt_eq_of_start`).

Whether the histogram counts in the exact buckets or not, the estimate lies where the buckets that it counts in say
(`estimate_less_accurate`).
-/

namespace Rollup.Histogram

open Binary64 (Denotes)

variable {h h₀ : Histogram} {u v : Int64} {values : List Int64} {bucket : Int64 → ℕ}

/-! ## Counting by buckets -/

/-- A number lies between the fraction in the buckets before the one of `v` and the fraction in these and that one, but
for a tolerance. -/
def Brackets (bucket : Int64 → ℕ) (values : List Int64) (v : Int64) (x ε : ℚ) : Prop :=
  (values.countP fun u => bucket u < bucket v : ℕ) / (values.length : ℚ) - ε ≤ x ∧
    x ≤ ((values.countP fun u => bucket u < bucket v : ℕ) + (values.countP fun u => bucket u = bucket v : ℕ)) /
      (values.length : ℚ) + ε

/-- The fraction of the integers that lie below `v`. -/
def truth (values : List Int64) (v : Int64) : ℚ :=
  (values.countP fun u => u < v : ℕ) / (values.length : ℚ)

/-- Buckets in order bracket the true fraction. -/
theorem brackets_truth (hmono : ∀ u ∈ values, (u ≤ v → bucket u ≤ bucket v) ∧ (v ≤ u → bucket v ≤ bucket u)) :
    Brackets bucket values v (truth values v) 0 := by
  have hlow := countP_bucket_lt_le fun u hu => (hmono u hu).2
  have hhigh := countP_lt_le_bucket fun u hu => (hmono u hu).1
  unfold Brackets truth
  rw [sub_zero, add_zero]
  exact ⟨div_le_div_of_nonneg_right (by exact_mod_cast hlow) (by positivity),
    div_le_div_of_nonneg_right (by exact_mod_cast hhigh) (by positivity)⟩

section Congr

variable {bucket' : Int64 → ℕ} (heq : ∀ u ∈ v :: values, bucket u = bucket' u)

include heq

theorem countP_lt_congr :
    (values.countP fun u => bucket u < bucket v) = values.countP fun u => bucket' u < bucket' v :=
  List.countP_congr fun u hu => by rw [heq v List.mem_cons_self, heq u (List.mem_cons_of_mem _ hu)]

theorem countP_eq_congr :
    (values.countP fun u => bucket u = bucket v) = values.countP fun u => bucket' u = bucket' v :=
  List.countP_congr fun u hu => by rw [heq v List.mem_cons_self, heq u (List.mem_cons_of_mem _ hu)]

/-- Where two ways to cut a range agree, they bracket the same numbers. -/
theorem Brackets.congr {x ε : ℚ} (hb : Brackets bucket values v x ε) : Brackets bucket' values v x ε := by
  unfold Brackets at hb ⊢
  rwa [countP_lt_congr heq, countP_eq_congr heq] at hb

end Congr

theorem countP_lt_eq_of_start (hcovers : ∀ u ∈ values, h.Covers u) (hv : h.Covers v)
    (hstart : h.span ∣ h.rise v * h.counts.size) :
    (values.countP fun u => u < v) = values.countP fun u => h.exactBucket u < h.exactBucket v := by
  refine List.countP_congr fun u hu => ?_
  rw [decide_eq_true_eq, decide_eq_true_eq]
  exact ⟨exactBucket_lt_of_start (hcovers u hu) hv hstart,
    fun hlt => Int64.not_le.mp fun hle => hlt.not_ge (h.exactBucket_mono hle)⟩

/-! ## The estimate -/

theorem Tallies.observations_ne_zero (ht : h.Tallies values) (hne : values ≠ []) : h.observations ≠ 0 := by
  rw [ht.observations]
  exact fun hlength => hne (List.eq_nil_of_length_eq_zero hlength)

theorem Tallies.share_zero (ht : h.Tallies values) (i : Fin h.counts.size) :
    h.share i 0 = (values.countP fun u => (h.bucketOf u : ℕ) < i : ℕ) / (values.length : ℚ) := by
  rw [share, mul_zero, add_zero, ht.before_eq i.isLt.le, ht.observations]

theorem Tallies.share_one (ht : h.Tallies values) (i : Fin h.counts.size) :
    h.share i 1 = ((values.countP fun u => (h.bucketOf u : ℕ) < i : ℕ) +
      (values.countP fun u => (h.bucketOf u : ℕ) = i : ℕ)) / (values.length : ℚ) := by
  rw [share, mul_one, ht.before_eq i.isLt.le, ht.observations]
  congr 3
  exact ht.counts i i.isLt

section Tallied

variable (hs : h.Sized) (ht : h.Tallies values)

include hs ht

theorem brackets_below (hv : h.Inside v) (hne : values ≠ []) :
    Brackets (fun u => h.bucketOf u) values v (h.below v) h.tolerance := by
  have h0 := ht.observations_ne_zero hne
  have hdrift : h.drift / 2 ≤ h.tolerance := by linarith [h.drift_nonneg, h.drift_le_tolerance]
  unfold Brackets
  rw [← ht.share_zero, ← ht.share_one]
  constructor
  · linarith [hs.le_below hv h0]
  · linarith [hs.below_le hv h0]

theorem abs_below_sub_truth_le (hv : h.Inside v) (hne : values ≠ []) (hexact : h.CountsExactly (v :: values))
    (hstart : h.span ∣ h.rise v * h.counts.size) : |h.below v - truth values v| ≤ h.tolerance := by
  have hstart' : h.rise v * h.counts.size = (h.bucketOf v : ℕ) * h.span := by
    rw [hexact v List.mem_cons_self, exactBucket_mul_span hv.covers hstart]
  have hshare := hs.abs_below_sub_le hv (ht.observations_ne_zero hne) hstart'
  rw [ht.share_zero, countP_lt_congr hexact, ← countP_lt_eq_of_start ht.covers hv.covers hstart] at hshare
  refine hshare.trans ?_
  linarith [h.drift_nonneg, h.drift_le_tolerance]

theorem countsExactly_of_small (hv : h.Covers v) (hstep : h.step * h.counts.size ≤ h.span)
    (hsmall : h.counts.size * h.span ≤ 2 ^ 50) : h.CountsExactly (v :: values) := by
  have hgrid : h.grid ≤ 2 ^ 50 := by exact_mod_cast h.grid_le_mul.trans hsmall
  exact hs.countsExactly_of_grid hgrid hstep (List.forall_mem_cons.mpr ⟨hv, ht.covers⟩)

end Tallied

/-- **Estimates are as accurate as the buckets.** Between the bounds, the estimate lies where the buckets of the
histogram say that the true fraction lies, but for the tolerance; that is nine places unless the bounds are many buckets
from zero. So it does for exact buckets, if the histogram counts in these, and at the start of such a bucket it is the
true fraction. It counts in these if a width is not rounded up and the range is small enough. -/
theorem estimate_less_accurate {buckets : ℕ} {lower upper : Int64} (hnew : ofBounds buckets lower upper = .ok h₀)
    (hrun : h₀.addAll values = ⟨.ok (), h⟩) (hbuckets : buckets < 2 ^ 64) (hvalues : values.length < 2 ^ 64)
    (hne : values ≠ []) (hlower : lower < v) (hupper : v < upper) :
    Brackets h.exactBucket values v (truth values v) 0 ∧
      (∃ p, (h.estimate .less v).Denotes p ∧ Brackets (fun u => h.bucketOf u) values v p h.tolerance ∧
        (h.CountsExactly (v :: values) →
          Brackets h.exactBucket values v p h.tolerance ∧
            (h.span ∣ h.rise v * h.counts.size →
              truth values v =
                (values.countP fun u => h.exactBucket u < h.exactBucket v : ℕ) / (values.length : ℚ) ∧
              |p - truth values v| ≤ h.tolerance))) ∧
      (h.step * buckets ≤ h.span → buckets * h.span ≤ 2 ^ 50 → h.CountsExactly (v :: values)) ∧
      (h.reach * buckets ≤ 250000 * h.span → h.tolerance = 1 / 10 ^ 9) := by
  have hs := sized_addAll hnew hrun hbuckets hvalues
  have ht := tallies_addAll hnew hrun
  obtain ⟨rfl, rfl, rfl⟩ := shape_addAll hnew hrun
  have hv : h.Inside v := ⟨hlower, hupper⟩
  have hbelow := brackets_below hs ht hv hne
  refine ⟨brackets_truth fun u _ => ⟨h.exactBucket_mono, h.exactBucket_mono⟩,
    ⟨h.below v, hs.lessThan_denotes v, hbelow, fun hexact => ⟨hbelow.congr hexact, fun hstart => ⟨?_, ?_⟩⟩⟩,
    countsExactly_of_small hs ht hv.covers, tolerance_eq⟩
  · rw [truth, countP_lt_eq_of_start ht.covers hv.covers hstart]
  · exact abs_below_sub_truth_le hs ht hv hne hexact hstart

/-- Buckets of one and a half integers each, and the start of the third one. -/
theorem estimate_less_accurate_twelve_buckets :
    ∃ h₀ h, ofBounds 12 (-9) 8 = .ok h₀ ∧ h₀.addAll [-8, -7, -5, -5, 8] = ⟨.ok (), h⟩ ∧
      h.span ∣ h.rise (-6) * h.counts.size ∧ h.CountsExactly [-6, -8, -7, -5, -5, 8] ∧
      ∃ p, (h.estimate .less (-6)).Denotes p ∧ Brackets h.exactBucket [-8, -7, -5, -5, 8] (-6) p (1 / 10 ^ 9) ∧
        |p - truth [-8, -7, -5, -5, 8] (-6)| ≤ 1 / 10 ^ 9 := by
  obtain ⟨h₀, h, hnew, hrun, hstart, hstep, hsmall, hnear⟩ : ∃ h₀ h, ofBounds 12 (-9) 8 = .ok h₀ ∧
      h₀.addAll [-8, -7, -5, -5, 8] = ⟨.ok (), h⟩ ∧ h.span ∣ h.rise (-6) * h.counts.size ∧
      h.step * (12 : ℕ) ≤ h.span ∧ (12 : ℕ) * h.span ≤ 2 ^ 50 ∧ h.reach * (12 : ℕ) ≤ 250000 * h.span :=
    ⟨_, _, rfl, rfl, by decide +kernel, by decide +kernel, by decide +kernel, by decide +kernel⟩
  have hlower : (-9 : Int64) < -6 := by decide
  have hupper : (-6 : Int64) < 8 := by decide
  obtain ⟨-, ⟨p, hp, -, haccurate⟩, hcounts, htolerance⟩ :=
    estimate_less_accurate hnew hrun (by decide) (by decide) (by decide) hlower hupper
  have hexact := hcounts hstep hsmall
  rw [htolerance hnear] at haccurate
  obtain ⟨hbrackets, hequal⟩ := haccurate hexact
  exact ⟨h₀, h, hnew, hrun, hstart, hexact, p, hp, hbrackets, (hequal hstart).2⟩

/-- Nine is the start of the eighth of fourteen buckets from 0 to 17, and is counted in the seventh: by the estimate
nearly all lies below it where nothing does. -/
theorem estimate_less_wrong_at_start :
    ∃ h₀ h, ofBounds 14 0 17 = .ok h₀ ∧ h₀.addAll [9] = ⟨.ok (), h⟩ ∧ h.span ∣ h.rise 9 * h.counts.size ∧
      ([9].countP fun u => h.exactBucket u < h.exactBucket 9) = 0 ∧ truth [9] 9 = 0 ∧
      (h.estimate .less 9).Denotes (1125899906842623 / 1125899906842624) ∧
      ¬|(1125899906842623 / 1125899906842624 : ℚ) - truth [9] 9| ≤ 1 / 10 ^ 9 :=
  ⟨_, _, rfl, rfl, by decide +kernel, by decide +kernel, by decide +kernel, by decide +kernel, by decide +kernel⟩

end Rollup.Histogram
