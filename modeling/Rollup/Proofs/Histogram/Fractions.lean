import Rollup.Proofs.Histogram.Intake
import Rollup.Proofs.Histogram.LessThan

/-!
# Estimates are fractions

Every estimate is finite and lies in the unit interval (`estimate_isFraction`, `estimateRange_isFraction`): the estimate
below a constant does, and complements and differences that are rounded do not leave it.

At the bounds and outside of them an estimate is exactly zero or one. It follows from the estimates below the constant
and below the next integer, which are both zero or both one there (`estimate_of_zero`, `estimate_of_one`). The next
integer is not above the lower bound if the constant is below it, and the greatest integer is its own successor, so the
ends of the 64-bit integers need no special care.
-/

namespace Rollup

open Binary64 (Denotes le_maxExact le_round round_le round_zero)

/-! ## Fractions -/

/-- A finite number of the unit interval. -/
def Binary64.IsFraction (x : Binary64) : Prop :=
  ∃ q, x.Denotes q ∧ 0 ≤ q ∧ q ≤ 1

namespace Binary64.IsFraction

variable {x y : Binary64}

theorem zero : IsFraction 0 :=
  ⟨0, .zero, le_rfl, zero_le_one⟩

theorem one : IsFraction 1 :=
  ⟨1, .one, zero_le_one, le_rfl⟩

/-- The complement of a fraction, rounded. -/
theorem one_sub (hx : x.IsFraction) : (1 - x).IsFraction := by
  obtain ⟨q, hq, h0, h1⟩ := hx
  have habs : |1 - q| ≤ 2 ^ 0 := by
    rw [pow_zero, abs_le]
    constructor <;> linarith
  exact ⟨round (1 - q), Denotes.one.sub hq (le_maxExact habs (by decide)), le_round round_zero (by linarith),
    round_le Denotes.one.round_eq (by linarith)⟩

/-- The difference of two fractions, rounded and moved into the unit interval. -/
theorem clamp_sub (hx : x.IsFraction) (hy : y.IsFraction) : ((x - y).clamp 0 1).IsFraction := by
  obtain ⟨p, hp, hp0, hp1⟩ := hx
  obtain ⟨q, hq, hq0, hq1⟩ := hy
  have habs : |p - q| ≤ 2 ^ 0 := by
    rw [pow_zero, abs_le]
    constructor <;> linarith
  exact ⟨_, (hp.sub hq (le_maxExact habs (by decide))).clamp, le_max_left _ _, max_le zero_le_one (min_le_right _ _)⟩

end Binary64.IsFraction

/-! ## One-sided comparisons -/

/-- The fraction that stands in a comparison with a constant that all integers lie below. -/
def Comparison.whenBelow : Comparison → Binary64
  | .less | .lessOrEqual | .notEqual => 1
  | .equal | .greater | .greaterOrEqual => 0

/-- The fraction that stands in a comparison with a constant that all integers lie above. -/
def Comparison.whenAbove : Comparison → Binary64
  | .greater | .greaterOrEqual | .notEqual => 1
  | .equal | .less | .lessOrEqual => 0

namespace Histogram

variable {h h₀ : Histogram} {v : Int64}

/-! ## Every estimate is a fraction -/

theorem Sized.lessThan_isFraction (hs : h.Sized) (v : Int64) : (h.lessThan v).IsFraction :=
  ⟨h.below v, hs.lessThan_denotes v, h.below_nonneg v, h.below_le_one v⟩

theorem Sized.atMost_isFraction (hs : h.Sized) (v : Int64) : (h.atMost v).IsFraction :=
  hs.lessThan_isFraction _

theorem Sized.equalTo_isFraction (hs : h.Sized) (v : Int64) : (h.equalTo v).IsFraction :=
  (hs.atMost_isFraction v).clamp_sub (hs.lessThan_isFraction v)

theorem Sized.estimate_isFraction (hs : h.Sized) (c : Comparison) (v : Int64) : (h.estimate c v).IsFraction := by
  cases c with
  | less => exact hs.lessThan_isFraction v
  | lessOrEqual => exact hs.atMost_isFraction v
  | greater => exact (hs.atMost_isFraction v).one_sub
  | greaterOrEqual => exact (hs.lessThan_isFraction v).one_sub
  | equal => exact hs.equalTo_isFraction v
  | notEqual => exact (hs.equalTo_isFraction v).one_sub

theorem Sized.belowUpper_isFraction (hs : h.Sized) (b : Bound) : (h.belowUpper b).IsFraction := by
  cases b with
  | included v => exact hs.atMost_isFraction v
  | excluded v => exact hs.lessThan_isFraction v
  | unbounded => exact .one

theorem Sized.belowLower_isFraction (hs : h.Sized) (b : Bound) : (h.belowLower b).IsFraction := by
  cases b with
  | included v => exact hs.lessThan_isFraction v
  | excluded v => exact hs.atMost_isFraction v
  | unbounded => exact .zero

theorem Sized.estimateRange_isFraction (hs : h.Sized) (lower upper : Bound) :
    (h.estimateRange lower upper).IsFraction :=
  (hs.belowUpper_isFraction upper).clamp_sub (hs.belowLower_isFraction lower)

/-! ## At the bounds and outside of them -/

theorem one_sub_zero : (1 : Binary64) - 0 = 1 := by
  decide +kernel

theorem one_sub_one : (1 : Binary64) - 1 = 0 := by
  decide +kernel

/-- A constant that is not below the upper bound, and not at the only integer of the range. -/
theorem lessThan_eq_one (hupper : h.upper ≤ v) (hlower : h.lower < v) : h.lessThan v = 1 :=
  lessThan_of_ge (Int64.not_le.mpr hlower) hupper

theorem le_succClamped (v : Int64) : v ≤ Exact.succClamped v := by
  have hv := v.toInt_le
  rw [Int64.le_iff_toInt_le, Exact.toInt_succClamped]
  omega

/-- The estimate up to a constant, where all integers lie below it. -/
theorem atMost_eq_one (hupper : h.upper ≤ v) (hlower : h.lower < v) : h.atMost v = 1 :=
  lessThan_eq_one (Int64.le_trans hupper (le_succClamped v)) (Int64.lt_of_lt_of_le hlower (le_succClamped v))

theorem atMost_eq_zero (hv : v < h.lower) : h.atMost v = 0 := by
  refine lessThan_of_le ?_
  rw [Int64.lt_iff_toInt_lt] at hv
  rw [Int64.le_iff_toInt_le, Exact.toInt_succClamped]
  omega

/-- The integer before the upper bound leaves nothing above it. -/
theorem atMost_eq_one_of_succ (hv : v.toInt + 1 = h.upper.toInt) (hlower : h.lower ≤ v) : h.atMost v = 1 := by
  have hle := h.upper.toInt_le
  have hsucc : (Exact.succClamped v).toInt = h.upper.toInt := by
    rw [Exact.toInt_succClamped]
    omega
  rw [Int64.le_iff_toInt_le] at hlower
  refine lessThan_eq_one ?_ ?_
  · rw [Int64.le_iff_toInt_le]
    omega
  · rw [Int64.lt_iff_toInt_lt]
    omega

theorem estimate_of_one (hless : h.lessThan v = 1) (hatMost : h.atMost v = 1) (c : Comparison) :
    h.estimate c v = c.whenBelow := by
  have hequal : h.equalTo v = 0 := by
    rw [equalTo, hless, hatMost, one_sub_one]
    decide +kernel
  cases c <;> simp only [estimate, Comparison.whenBelow, hless, hatMost, hequal, one_sub_one, one_sub_zero]

theorem estimate_of_zero (hless : h.lessThan v = 0) (hatMost : h.atMost v = 0) (c : Comparison) :
    h.estimate c v = c.whenAbove := by
  have hequal : h.equalTo v = 0 := by
    rw [equalTo, hless, hatMost]
    decide +kernel
  cases c <;> simp only [estimate, Comparison.whenAbove, hless, hatMost, hequal, one_sub_zero]

/-- **Estimates are fractions, and exact at the bounds.** After any run, every estimate is a number of the unit interval.
Above the upper bound, and at it unless it is the only integer of the range, all integers are taken to lie below the
constant; below the lower bound, all lie above it. Nothing lies below the lower bound, and nothing above the integer
before the upper one. -/
theorem estimates_are_fractions {buckets : ℕ} {lower upper : Int64} {calls : List Intake}
    (hnew : ofBounds buckets lower upper = .ok h₀) (hrun : h₀.takeAll calls = h) (hbuckets : buckets < 2 ^ 64)
    (hobservations : h.observations < 2 ^ 64) :
    (∀ c v, (h.estimate c v).IsFraction) ∧
      (∀ lowerEnd upperEnd, (h.estimateRange lowerEnd upperEnd).IsFraction) ∧
      (∀ v, upper < v ∨ v = upper ∧ lower < upper → ∀ c, h.estimate c v = c.whenBelow) ∧
      (∀ v, v < lower → ∀ c, h.estimate c v = c.whenAbove) ∧
      (h.estimate .less lower = 0 ∧ h.estimate .greaterOrEqual lower = 1) ∧
      (∀ v, v.toInt + 1 = upper.toInt → lower ≤ v →
        h.estimate .lessOrEqual v = 1 ∧ h.estimate .greater v = 0) := by
  have hs := sized_takeAll hnew hrun hbuckets hobservations
  obtain ⟨rfl, rfl, -⟩ := shape_takeAll hnew hrun
  have hbounds := h.lower_le_upper
  have hleast : h.lessThan h.lower = 0 := lessThan_of_le (Int64.le_refl _)
  refine ⟨hs.estimate_isFraction, hs.estimateRange_isFraction, fun v hv c => ?_,
    fun v hv c => estimate_of_zero (lessThan_of_le (Int64.le_of_lt hv)) (atMost_eq_zero hv) c, ⟨hleast, ?_⟩,
    fun v hv hlower => ?_⟩
  · have hle : h.upper ≤ v ∧ h.lower < v := by
      rcases hv with hv | ⟨rfl, hv⟩
      · exact ⟨Int64.le_of_lt hv, Int64.lt_of_le_of_lt hbounds hv⟩
      · exact ⟨Int64.le_refl _, hv⟩
    exact estimate_of_one (lessThan_eq_one hle.1 hle.2) (atMost_eq_one hle.1 hle.2) c
  · rw [estimate, hleast, one_sub_zero]
  · have hone := atMost_eq_one_of_succ hv hlower
    exact ⟨hone, by rw [estimate, hone, one_sub_one]⟩

/-- The bounds are the ends of the 64-bit integers. -/
theorem estimates_are_fractions_whole_range :
    ∃ h₀ h, ofBounds 3 Int64.minValue Int64.maxValue = .ok h₀ ∧ h₀.takeAll [.several [5, -7], .one Int64.maxValue] = h ∧
      (h.estimate .equal 5).IsFraction ∧ (h.estimateRange (.excluded (-7)) (.included Int64.maxValue)).IsFraction ∧
      h.estimate .notEqual Int64.maxValue = 1 ∧ h.estimate .greaterOrEqual Int64.minValue = 1 ∧
      h.estimate .greater (Int64.maxValue - 1) = 0 := by
  obtain ⟨h₀, h, hnew, hrun, hobservations⟩ : ∃ h₀ h, ofBounds 3 Int64.minValue Int64.maxValue = .ok h₀ ∧
      h₀.takeAll [.several [5, -7], .one Int64.maxValue] = h ∧ h.observations < 2 ^ 64 :=
    ⟨_, _, rfl, rfl, by decide +kernel⟩
  obtain ⟨hestimate, hrange, hupper, -, hlower, hbefore⟩ :=
    estimates_are_fractions hnew hrun (by decide) hobservations
  exact ⟨h₀, h, hnew, hrun, hestimate _ _, hrange _ _, hupper _ (.inr ⟨rfl, by decide⟩) .notEqual, hlower.2,
    (hbefore _ (by decide) (by decide)).2⟩

end Histogram

end Rollup
