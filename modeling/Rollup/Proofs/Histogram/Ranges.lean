import Rollup.Proofs.Histogram.Fractions

/-!
# Comparisons and ranges

A comparison with a constant is a range with one end or two. Both are estimated from the estimate below a constant, but
not by the same formula: only a range is moved into the unit interval in the end. That changes nothing there, and taking
away nothing changes nothing either, so the two estimates are one number (`comparisons_are_ranges`).

- `clamp_lessThan`, `clamp_one_sub_lessThan`: the estimate below a constant and its complement stay what they are;
- `belowLower_excluded`, `belowUpper_included`: an end with the integer and the other kind of end at the next one cut off
  the same, unless the integer is the greatest;
- `nothing_above_upper`: a constant at the upper bound or over it leaves nothing above it. The greatest integer has no
  next one, so a range that holds it alone is the exception.
-/

namespace Rollup

open Binary64 (Denotes round_sub_neg)

namespace Binary64

variable {x : Binary64}

/-! ## Fractions that stay what they are -/

theorem IsFraction.clamp_eq (hx : x.IsFraction) : x.clamp 0 1 = x := by
  obtain ⟨q, hq, h0, h1⟩ := hx
  rw [clamp, if_neg (mt (hq.lt_iff .zero).mp h0.not_gt), if_neg (mt (Denotes.one.lt_iff hq).mp h1.not_gt)]

/-- What is no number is moved nowhere, and anything else into the unit interval. -/
theorem clamp_cases (x : Binary64) : x.clamp 0 1 = nan ∨ (x.clamp 0 1).IsFraction := by
  have hfinite : ∀ {q : ℚ}, x.Denotes q → (x.clamp 0 1).IsFraction := fun hx =>
    ⟨_, hx.clamp, le_max_left _ _, max_le zero_le_one (min_le_right _ _)⟩
  cases x with
  | nan => exact .inl rfl
  | infinite negative =>
    right
    cases negative
    · exact .one
    · exact .zero
  | negativeZero => exact .inr (hfinite .negativeZero)
  | finite v h => exact .inr (hfinite (.finite v h))

/-- Taking away zero leaves every number as it is, also the zero below zero. -/
theorem sub_zero_eq (x : Binary64) : x - 0 = x := by
  cases x with
  | nan | infinite negative | negativeZero => rfl
  | finite v h =>
    show (if (0 : ℚ) = 0 ∧ v ≠ 0 then finite v h else if v = 0 ∧ (0 : ℚ) ≠ 0 then negativeZero else ofRat (v + 0)) = _
    by_cases hv : v = 0
    · subst hv
      have hzero : ofRat 0 = finite 0 h := ofRat_zero
      simpa using hzero
    · simp [hv]

/-- Nothing is left of a fraction from which all is taken away. -/
theorem IsFraction.clamp_sub_one (hx : x.IsFraction) : (x - 1).clamp 0 1 = 0 := by
  obtain ⟨q, hq, h0, h1⟩ := hx
  rcases h1.lt_or_eq with hlt | rfl
  · have habs : |q - 1| ≤ 2 ^ 0 := by
      rw [pow_zero, abs_le]
      constructor <;> linarith
    have hsub := hq.sub Denotes.one (le_maxExact habs (by decide))
    exact if_pos ((hsub.lt_iff .zero).mpr (round_sub_neg hq.round_eq Denotes.one.round_eq hlt))
  · cases hq with
    | finite _ h =>
      show ((1 : Binary64) - 1).clamp 0 1 = 0
      rw [Histogram.one_sub_one]
      exact IsFraction.zero.clamp_eq

end Binary64

namespace Histogram

variable {h h₀ : Histogram} {v : Int64}

theorem lessThan_cases (h : Histogram) (v : Int64) : h.lessThan v = .nan ∨ (h.lessThan v).IsFraction := by
  unfold lessThan
  split
  · exact .inr .zero
  · split
    · exact .inr .one
    · split
      · exact .inr .zero
      · exact Binary64.clamp_cases _

theorem clamp_lessThan (h : Histogram) (v : Int64) : (h.lessThan v).clamp 0 1 = h.lessThan v := by
  rcases h.lessThan_cases v with hnan | hfraction
  · rw [hnan]
    rfl
  · exact hfraction.clamp_eq

theorem clamp_one_sub_lessThan (h : Histogram) (v : Int64) : (1 - h.lessThan v).clamp 0 1 = 1 - h.lessThan v := by
  rcases h.lessThan_cases v with hnan | hfraction
  · rw [hnan]
    rfl
  · exact hfraction.one_sub.clamp_eq

/-! ## Ranges with one end -/

theorem estimateRange_excluded_upper (h : Histogram) (v : Int64) :
    h.estimateRange .unbounded (.excluded v) = h.lessThan v := by
  rw [estimateRange, belowUpper, belowLower, Binary64.sub_zero_eq, clamp_lessThan]

theorem estimateRange_included_upper (h : Histogram) (v : Int64) :
    h.estimateRange .unbounded (.included v) = h.atMost v :=
  h.estimateRange_excluded_upper (Exact.succClamped v)

theorem estimateRange_included_lower (h : Histogram) (v : Int64) :
    h.estimateRange (.included v) .unbounded = 1 - h.lessThan v := by
  rw [estimateRange, belowUpper, belowLower, clamp_one_sub_lessThan]

theorem estimateRange_excluded_lower (h : Histogram) (v : Int64) :
    h.estimateRange (.excluded v) .unbounded = 1 - h.atMost v :=
  h.estimateRange_included_lower (Exact.succClamped v)

/-! ## Ends at the next integer -/

theorem succClamped_of_lt (hv : v < Int64.maxValue) : Exact.succClamped v = v + 1 := by
  have hlo := v.minValue_le_toInt
  have hhi := Int64.lt_iff_toInt_lt.mp hv
  have hone : (1 : Int64).toInt = 1 := by decide
  rw [Int64.toInt_minValue] at hlo
  rw [Int64.toInt_maxValue] at hhi
  rw [← Int64.toInt_inj, Exact.toInt_succClamped, Int64.toInt_add, hone, Int64.toInt_maxValue,
    Int.bmod_eq_of_le (by omega) (by omega)]
  omega

theorem belowLower_excluded (h : Histogram) (hv : v < Int64.maxValue) :
    h.belowLower (.excluded v) = h.belowLower (.included (v + 1)) := by
  rw [belowLower, belowLower, atMost, succClamped_of_lt hv]

theorem belowUpper_included (h : Histogram) (hv : v < Int64.maxValue) :
    h.belowUpper (.included v) = h.belowUpper (.excluded (v + 1)) := by
  rw [belowUpper, belowUpper, atMost, succClamped_of_lt hv]

/-- **Comparisons are ranges.** Whatever has been counted, the estimate for a comparison and that for the range of the
integers that stand in it are the same number, the sign of a zero included. An end with its integer can be given as the
other kind of end at the next integer. -/
theorem comparisons_are_ranges (h : Histogram) :
    (∀ v, h.estimate .equal v = h.estimateRange (.included v) (.included v) ∧
      h.estimate .less v = h.estimateRange .unbounded (.excluded v) ∧
      h.estimate .lessOrEqual v = h.estimateRange .unbounded (.included v) ∧
      h.estimate .greaterOrEqual v = h.estimateRange (.included v) .unbounded ∧
      h.estimate .greater v = h.estimateRange (.excluded v) .unbounded) ∧
    ∀ a, a < Int64.maxValue →
      (∀ upper, h.estimateRange (.excluded a) upper = h.estimateRange (.included (a + 1)) upper) ∧
      ∀ lower, h.estimateRange lower (.included a) = h.estimateRange lower (.excluded (a + 1)) := by
  refine ⟨fun v => ⟨rfl, (h.estimateRange_excluded_upper v).symm, (h.estimateRange_included_upper v).symm,
    (h.estimateRange_included_lower v).symm, (h.estimateRange_excluded_lower v).symm⟩, fun a ha => ⟨fun upper => ?_,
    fun lower => ?_⟩⟩
  · rw [estimateRange, estimateRange, h.belowLower_excluded ha]
  · rw [estimateRange, estimateRange, h.belowUpper_included ha]

/-- The next integer is the greatest one, and the upper bound. -/
theorem comparisons_are_ranges_greatest :
    ∃ h₀ h, ofBounds 2 Int64.minValue Int64.maxValue = .ok h₀ ∧ h₀.takeAll [.several [-3, 3, 3]] = h ∧
      h.estimate .greater (-3) = h.estimateRange (.excluded (-3)) .unbounded ∧
      Int64.maxValue - 1 < Int64.maxValue ∧
      h.estimateRange (.included (-3)) (.included (Int64.maxValue - 1)) =
        h.estimateRange (.included (-3)) (.excluded (Int64.maxValue - 1 + 1)) := by
  obtain ⟨h₀, h, hnew, hrun⟩ : ∃ h₀ h, ofBounds 2 Int64.minValue Int64.maxValue = .ok h₀ ∧
      h₀.takeAll [.several [-3, 3, 3]] = h := ⟨_, _, rfl, rfl⟩
  obtain ⟨hcomparisons, hends⟩ := comparisons_are_ranges h
  have hlt : Int64.maxValue - 1 < Int64.maxValue := by decide
  exact ⟨h₀, h, hnew, hrun, (hcomparisons (-3)).2.2.2.2, hlt, (hends _ hlt).2 _⟩

/-! ## At the upper bound and over it -/

/-- All is estimated up to a constant that is not below the upper bound, for the next integer lies above the lower one
unless there is no next one. -/
theorem atMost_of_ge (hv : h.upper ≤ v) (hlower : h.lower < Int64.maxValue) : h.atMost v = 1 := by
  refine lessThan_eq_one (Int64.le_trans hv (le_succClamped v)) ?_
  have hbounds := Int64.le_iff_toInt_le.mp (Int64.le_trans h.lower_le_upper hv)
  rw [Int64.lt_iff_toInt_lt] at hlower ⊢
  rw [Exact.toInt_succClamped]
  omega

/-- Where the greatest integer is the lower bound, nothing is estimated up to any constant. -/
theorem atMost_of_greatest (hlower : h.lower = Int64.maxValue) (v : Int64) : h.atMost v = 0 := by
  refine lessThan_of_le ?_
  rw [hlower]
  exact Int64.le_maxValue _

/-- **Nothing lies above the upper bound.** After any run, a constant at the upper bound or over it leaves nothing above
it: all is estimated up to it, and nothing for a range that begins after it; as the upper end of a range it is no end.
Only where the greatest integer is both bounds it is the other way round, for it is its own next integer. -/
theorem nothing_above_upper {buckets : ℕ} {lower upper : Int64} {calls : List Intake}
    (hnew : ofBounds buckets lower upper = .ok h₀) (hrun : h₀.takeAll calls = h) (hbuckets : buckets < 2 ^ 64)
    (hobservations : h.observations < 2 ^ 64) (hv : upper ≤ v) :
    (lower < Int64.maxValue →
      h.estimate .lessOrEqual v = 1 ∧ h.estimate .greater v = 0 ∧
      (∀ upperEnd, h.estimateRange (.excluded v) upperEnd = 0) ∧
      ∀ lowerEnd, h.estimateRange lowerEnd (.included v) = h.estimateRange lowerEnd .unbounded) ∧
    (lower = Int64.maxValue →
      h.estimate .lessOrEqual v = 0 ∧ h.estimate .greater v = 1 ∧ h.estimateRange (.excluded v) .unbounded = 1 ∧
      h.estimateRange .unbounded (.included v) = 0 ∧ h.estimateRange .unbounded .unbounded = 1) := by
  have hs := sized_takeAll hnew hrun hbuckets hobservations
  obtain ⟨rfl, rfl, -⟩ := shape_takeAll hnew hrun
  refine ⟨fun hlower => ?_, fun hlower => ?_⟩
  · have hone := atMost_of_ge hv hlower
    refine ⟨hone, by rw [estimate, hone, one_sub_one], fun upperEnd => ?_, fun lowerEnd => ?_⟩
    · rw [estimateRange, belowLower, hone]
      exact (hs.belowUpper_isFraction upperEnd).clamp_sub_one
    · rw [estimateRange, estimateRange, belowUpper, belowUpper, hone]
  · have hzero := atMost_of_greatest hlower v
    refine ⟨hzero, by rw [estimate, hzero, one_sub_zero], ?_, ?_, ?_⟩
    · rw [estimateRange_excluded_lower, hzero, one_sub_zero]
    · rw [estimateRange_included_upper, hzero]
    · rw [estimateRange, belowUpper, belowLower, one_sub_zero, Binary64.IsFraction.one.clamp_eq]

/-- The greatest integer is the upper bound, and the lower bound is the one before it. -/
theorem nothing_above_upper_two_integers :
    ∃ h₀ h, ofBounds 1 (Int64.maxValue - 1) Int64.maxValue = .ok h₀ ∧
      h₀.takeAll [.several [Int64.maxValue - 1, Int64.maxValue]] = h ∧ Int64.maxValue - 1 < Int64.maxValue ∧
      h.estimate .lessOrEqual Int64.maxValue = 1 ∧ h.estimateRange (.excluded Int64.maxValue) .unbounded = 0 ∧
      h.estimateRange (.included Int64.maxValue) (.included Int64.maxValue) =
        h.estimateRange (.included Int64.maxValue) .unbounded := by
  obtain ⟨h₀, h, hnew, hrun, hobservations⟩ : ∃ h₀ h, ofBounds 1 (Int64.maxValue - 1) Int64.maxValue = .ok h₀ ∧
      h₀.takeAll [.several [Int64.maxValue - 1, Int64.maxValue]] = h ∧ h.observations < 2 ^ 64 :=
    ⟨_, _, rfl, rfl, by decide +kernel⟩
  have hlower : Int64.maxValue - 1 < Int64.maxValue := by decide
  obtain ⟨hlessOrEqual, -, hexcluded, hincluded⟩ :=
    (nothing_above_upper hnew hrun (by decide) hobservations (Int64.le_refl _)).1 hlower
  exact ⟨h₀, h, hnew, hrun, hlower, hlessOrEqual, hexcluded _, hincluded _⟩

/-- The only integer that a histogram can count is the greatest one: by the estimates all lies above it. -/
theorem all_above_greatest :
    ∃ h₀ h, ofBounds 1 Int64.maxValue Int64.maxValue = .ok h₀ ∧ h₀.takeAll [.one Int64.maxValue] = h ∧
      h.estimate .lessOrEqual Int64.maxValue ≠ 1 ∧ h.estimate .greater Int64.maxValue ≠ 0 ∧
      h.estimateRange (.excluded Int64.maxValue) .unbounded ≠ 0 ∧
      h.estimateRange .unbounded (.included Int64.maxValue) ≠ h.estimateRange .unbounded .unbounded :=
  ⟨_, _, rfl, rfl, by decide +kernel, by decide +kernel, by decide +kernel, by decide +kernel⟩

end Histogram

end Rollup
