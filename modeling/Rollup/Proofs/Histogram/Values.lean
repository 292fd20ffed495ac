import Rollup.Proofs.Binary64.Denotation
import Rollup.Proofs.Histogram.Tally

/-!
# Estimates as rationals

Everything that a histogram computes is finite, as long as it has fewer than `2 ^ 64` buckets and has counted fewer than
`2 ^ 64` integers (`Histogram.Sized`), and can be read off in rationals: the width of a bucket (`width_denotes`), the
bucket of an integer (`bucketOf_eq`) and the estimate between the bounds (`interpolated_denotes`). Of two integers the
greater one never lies in an earlier bucket (`bucketOf_mono`).
-/

namespace Rollup.Histogram

open Binary64 (Denotes maxExact abs_round_le le_maxExact abs_add_le_pow abs_sub_le_pow abs_mul_le_pow abs_div_le_pow
  round_mono round_nonneg le_round round_le round_pow)

variable {h : Histogram} {u v : Int64}

/-- The numbers of buckets and of integers are ones of 64 bits. -/
structure Sized (h : Histogram) : Prop where
  buckets : h.counts.size < 2 ^ 64
  observations : h.observations < 2 ^ 64
  /-- No bucket has more integers than are left by those before it. -/
  before_add_le : ∀ (i : Nat) (hi : i < h.counts.size), h.before i + h.counts[i] ≤ h.observations

theorem Tallies.sized {values : List Int64} (ht : h.Tallies values) (hb : h.counts.size < 2 ^ 64)
    (hn : values.length < 2 ^ 64) : h.Sized :=
  ⟨hb, by rwa [ht.observations], fun _ hi => ht.before_add_le hi⟩

/-- A histogram that was made and filled. -/
theorem sized_addAll {h₀ : Histogram} {values : List Int64} {buckets : ℕ} {lower upper : Int64}
    (hnew : ofBounds buckets lower upper = .ok h₀) (hrun : h₀.addAll values = ⟨.ok (), h⟩) (hb : buckets < 2 ^ 64)
    (hn : values.length < 2 ^ 64) : h.Sized :=
  (tallies_addAll hnew hrun).sized ((shape_addAll hnew hrun).2.2 ▸ hb) hn

/-! ## Integers -/

theorem abs_toInt_le (v : Int64) : |(v.toInt : ℚ)| ≤ 2 ^ 63 := by
  rw [abs_le]
  have hlo : (-2 ^ 63 : ℤ) ≤ v.toInt := v.minValue_le_toInt
  have hhi : v.toInt ≤ (2 ^ 63 : ℤ) := by have := v.toInt_lt; omega
  exact_mod_cast And.intro hlo hhi

theorem one_le_span (h : Histogram) : 1 ≤ h.span := by
  have hle := Int64.le_iff_toInt_le.mp h.lower_le_upper
  unfold span
  omega

theorem span_le (h : Histogram) : h.span ≤ 2 ^ 64 := by
  have hlo := h.lower.minValue_le_toInt
  have hhi := h.upper.toInt_lt
  rw [Int64.toInt_minValue] at hlo
  unfold span
  omega

/-- How far an integer lies above the lower bound. -/
def rise (h : Histogram) (v : Int64) : ℤ :=
  v.toInt - h.lower.toInt

theorem rise_nonneg (hv : h.Covers v) : 0 ≤ h.rise v := by
  have hle := Int64.le_iff_toInt_le.mp hv.1
  unfold rise
  omega

theorem rise_le_rise (h : Histogram) (huv : u ≤ v) : h.rise u ≤ h.rise v :=
  Int.sub_le_sub_right (Int64.le_iff_toInt_le.mp huv) _

theorem rise_lt_rise (h : Histogram) (huv : u < v) : h.rise u < h.rise v :=
  Int.sub_lt_sub_right (Int64.lt_iff_toInt_lt.mp huv) _

theorem rise_lt_span (hv : h.Covers v) : h.rise v < h.span := by
  have hle := Int64.le_iff_toInt_le.mp hv.2
  unfold rise span
  omega

/-! ## The width of a bucket -/

/-- The width of a bucket as a rational. -/
def step (h : Histogram) : ℚ :=
  Binary64.round (Binary64.round h.span / Binary64.round h.counts.size)

/-- Rounding keeps a positive integer between one and a power of two. -/
theorem round_bounds {n : ℚ} {a : ℕ} (hone : 1 ≤ n) (hn : n ≤ 2 ^ a) :
    1 ≤ Binary64.round n ∧ Binary64.round n ≤ 2 ^ a := by
  have hpow : Binary64.round (2 ^ a) = 2 ^ a := by
    rw [← zpow_natCast]
    exact round_pow (by omega)
  exact ⟨le_round (Denotes.one.round_eq) hone, round_le hpow hn⟩

theorem span_bounds (h : Histogram) : 1 ≤ Binary64.round h.span ∧ Binary64.round h.span ≤ 2 ^ 64 :=
  round_bounds (by exact_mod_cast h.one_le_span) (by exact_mod_cast h.span_le)

theorem Sized.buckets_bounds (hs : h.Sized) :
    1 ≤ Binary64.round h.counts.size ∧ Binary64.round h.counts.size ≤ 2 ^ 64 :=
  round_bounds (by exact_mod_cast h.counts_pos) (by exact_mod_cast hs.buckets.le)

theorem Sized.step_bounds (hs : h.Sized) : 1 / 2 ^ 64 ≤ h.step ∧ h.step ≤ 2 ^ 64 := by
  obtain ⟨hs1, hs2⟩ := h.span_bounds
  obtain ⟨hb1, hb2⟩ := hs.buckets_bounds
  have hlo : Binary64.round (1 / 2 ^ 64) = 1 / 2 ^ 64 := by
    have hpow := round_pow (k := -64) (by decide)
    rwa [zpow_neg, ← one_div] at hpow
  have hhi : Binary64.round (2 ^ 64) = 2 ^ 64 := round_pow (k := 64) (by decide)
  constructor
  · exact le_round hlo (div_le_div₀ (by positivity) hs1 (by positivity) hb2)
  · refine round_le hhi ((div_le_self (by positivity) hb1).trans hs2)

theorem Sized.step_pos (hs : h.Sized) : 0 < h.step :=
  lt_of_lt_of_le (by positivity) hs.step_bounds.1

theorem Sized.abs_step_le (hs : h.Sized) : |h.step| ≤ 2 ^ 64 := by
  rw [abs_of_pos hs.step_pos]
  exact hs.step_bounds.2

theorem Sized.width_denotes (hs : h.Sized) : h.width.Denotes h.step := by
  obtain ⟨hs1, hs2⟩ := h.span_bounds
  obtain ⟨hb1, hb2⟩ := hs.buckets_bounds
  have hspan : (Binary64.ofInt h.span).Denotes (Binary64.round h.span) := by
    refine .ofInt (le_maxExact (a := 64) ?_ (by decide))
    rw [abs_of_nonneg (by exact_mod_cast h.one_le_span.trans' zero_le_one)]
    exact_mod_cast h.span_le
  have hbuckets : (Binary64.ofNat h.counts.size).Denotes (Binary64.round h.counts.size) := by
    refine .ofNat ((le_abs_self _).trans (le_maxExact (a := 64) ?_ (by decide)))
    rw [Nat.abs_cast]
    exact_mod_cast hs.buckets.le
  rw [h.width_eq]
  refine hspan.div hbuckets (by linarith) (le_maxExact (a := 64) ?_ (by decide))
  rw [abs_of_nonneg (div_nonneg (by linarith) (by linarith))]
  exact (div_le_self (by linarith) hb1).trans hs2

/-! ## Buckets -/

/-- The quotient from which the bucket of an integer is taken. -/
def position (h : Histogram) (v : Int64) : ℚ :=
  Binary64.round (Binary64.round (h.rise v) / h.step)

theorem abs_round_rise_le (hv : h.Covers v) : |Binary64.round (h.rise v)| ≤ 2 ^ 64 := by
  apply abs_round_le
  rw [abs_of_nonneg (by exact_mod_cast rise_nonneg hv)]
  exact_mod_cast (rise_lt_span hv).le.trans h.span_le

theorem Sized.position_nonneg (hs : h.Sized) (hv : h.Covers v) : 0 ≤ h.position v :=
  round_nonneg (div_nonneg (round_nonneg (by exact_mod_cast rise_nonneg hv)) hs.step_pos.le)

theorem Sized.abs_position_le (hs : h.Sized) (hv : h.Covers v) : |h.position v| ≤ 2 ^ 128 :=
  abs_round_le (abs_div_le_pow (abs_round_rise_le hv) hs.step_bounds.1)

theorem Sized.quotient_denotes (hs : h.Sized) (hv : h.Covers v) : (h.quotient v).Denotes (h.position v) := by
  have hrise : (Binary64.ofInt (h.rise v)).Denotes (Binary64.round (h.rise v)) := by
    refine .ofInt (le_maxExact (a := 64) ?_ (by decide))
    rw [abs_of_nonneg (by exact_mod_cast rise_nonneg hv)]
    exact_mod_cast (rise_lt_span hv).le.trans h.span_le
  exact hrise.div hs.width_denotes hs.step_pos.ne'
    (le_maxExact (abs_div_le_pow (abs_round_rise_le hv) hs.step_bounds.1) (by decide))

/-- The bucket of an integer is the floor of its position, or the last bucket. -/
theorem Sized.bucketOf_eq (hs : h.Sized) (hv : h.Covers v) :
    (h.bucketOf v : ℕ) = min (h.position v).floor.toNat (h.counts.size - 1) := by
  have hnonneg := hs.position_nonneg hv
  have hfloor : |((h.position v).floor : ℚ)| ≤ maxExact := by
    refine le_trans ?_ (le_maxExact (hs.abs_position_le hv) (by decide))
    rw [abs_of_nonneg (by exact_mod_cast Int.floor_nonneg.mpr hnonneg), abs_of_nonneg hnonneg]
    exact Int.floor_le _
  have hsize := hs.buckets
  show min (h.quotient v).floor.toUnsigned (h.counts.size - 1) = _
  rw [((hs.quotient_denotes hv).floor hfloor).toUnsigned_eq, Rat.floor_intCast]
  have hmax : UInt64.size - 1 = 2 ^ 64 - 1 := rfl
  omega

/-- Of two integers the greater one never lies in an earlier bucket. -/
theorem Sized.bucketOf_mono (hs : h.Sized) (hu : h.Covers u) (hv : h.Covers v) (huv : u ≤ v) :
    (h.bucketOf u : ℕ) ≤ h.bucketOf v := by
  have hrise : (h.rise u : ℚ) ≤ h.rise v := by exact_mod_cast h.rise_le_rise huv
  have hposition : h.position u ≤ h.position v :=
    round_mono (div_le_div_of_nonneg_right (round_mono hrise) hs.step_pos.le)
  rw [hs.bucketOf_eq hu, hs.bucketOf_eq hv]
  exact min_le_min_right _ (Int.toNat_le_toNat (Int.floor_le_floor hposition))

/-! ## Interpolation -/

/-- The lower end of a bucket as a rational. -/
def start (h : Histogram) (i : ℕ) : ℚ :=
  Binary64.round (Binary64.round h.lower.toInt + Binary64.round (Binary64.round i * h.step))

/-- The part of a bucket that lies below an integer. -/
def offset (h : Histogram) (i : ℕ) (v : Int64) : ℚ :=
  Binary64.round (Binary64.round (Binary64.round v.toInt - h.start i) / h.step)

/-- The fraction that lies below a part of a bucket. -/
def fraction (h : Histogram) (before count : ℕ) (offset : ℚ) : ℚ :=
  Binary64.round
    (Binary64.round (Binary64.round before + Binary64.round (Binary64.round count * offset)) /
      Binary64.round h.observations)

/-- What interpolation in a bucket gives, before it is moved into the unit interval. -/
def interpolation (h : Histogram) (i : Fin h.counts.size) (v : Int64) : ℚ :=
  h.fraction (h.before i) h.counts[i] (h.offset i v)

/-- The fraction in the buckets before one and in a part of that one, without any rounding. -/
def share (h : Histogram) (i : Fin h.counts.size) (part : ℚ) : ℚ :=
  (h.before i + h.counts[i] * part) / h.observations

theorem abs_round_toInt_le (v : Int64) : |Binary64.round v.toInt| ≤ 2 ^ 63 :=
  abs_round_le (abs_toInt_le v)

theorem abs_round_natCast_le {n : ℕ} (hn : n < 2 ^ 64) : |Binary64.round n| ≤ 2 ^ 64 := by
  apply abs_round_le
  rw [Nat.abs_cast]
  exact_mod_cast hn.le

theorem ofInt_toInt_denotes (v : Int64) : (Binary64.ofInt v.toInt).Denotes (Binary64.round v.toInt) :=
  .ofInt (le_maxExact (abs_toInt_le v) (by decide))

theorem ofNat_denotes {n : ℕ} (hn : n < 2 ^ 64) : (Binary64.ofNat n).Denotes (Binary64.round n) := by
  refine .ofNat ((le_abs_self _).trans (le_maxExact (a := 64) ?_ (by decide)))
  rw [Nat.abs_cast]
  exact_mod_cast hn.le

theorem Sized.bucketStart_denotes (hs : h.Sized) {i : ℕ} (hi : i < 2 ^ 64) :
    (h.bucketStart i).Denotes (h.start i) ∧ |h.start i| ≤ 2 ^ 129 := by
  have hmul : |Binary64.round i * h.step| ≤ 2 ^ 128 := abs_mul_le_pow (abs_round_natCast_le hi) hs.abs_step_le
  have hlower : |Binary64.round h.lower.toInt| ≤ 2 ^ 128 := (abs_round_toInt_le _).trans (by norm_num)
  have hadd := abs_add_le_pow hlower (abs_round_le hmul)
  exact ⟨(ofInt_toInt_denotes _).add ((ofNat_denotes hi).mul hs.width_denotes (le_maxExact hmul (by decide)))
    (le_maxExact hadd (by decide)), abs_round_le hadd⟩

theorem Sized.offset_denotes (hs : h.Sized) {i : ℕ} (hi : i < 2 ^ 64) (v : Int64) :
    ((Binary64.ofInt v.toInt - h.bucketStart i) / h.width).Denotes (h.offset i v) ∧ |h.offset i v| ≤ 2 ^ 194 := by
  obtain ⟨hstart, hstart'⟩ := hs.bucketStart_denotes hi
  have hsub : |Binary64.round v.toInt - h.start i| ≤ 2 ^ 130 :=
    abs_sub_le_pow ((abs_round_toInt_le v).trans (by norm_num)) hstart'
  have hdiv := abs_div_le_pow (abs_round_le hsub) hs.step_bounds.1
  exact ⟨((ofInt_toInt_denotes v).sub hstart (le_maxExact hsub (by decide))).div hs.width_denotes hs.step_pos.ne'
    (le_maxExact hdiv (by decide)), abs_round_le hdiv⟩

/-- The estimate for an integer between the bounds. -/
theorem Sized.interpolated_denotes (hs : h.Sized) (h0 : h.observations ≠ 0) (v : Int64) :
    (h.interpolated v).Denotes (max 0 (min (h.interpolation (h.bucketOf v) v) 1)) := by
  have hsize := hs.buckets
  have hobs := hs.observations
  have hi := (h.bucketOf v).isLt
  have hsum := hs.before_add_le _ hi
  obtain ⟨hoffset, hoffset'⟩ := hs.offset_denotes (i := h.bucketOf v) (by omega) v
  have hbefore : h.before (h.bucketOf v) < 2 ^ 64 := by omega
  have hcount : h.counts[h.bucketOf v] < 2 ^ 64 := by
    show h.counts[(h.bucketOf v : ℕ)] < _
    omega
  have hmul := abs_mul_le_pow (abs_round_natCast_le hcount) hoffset'
  have hadd := abs_add_le_pow ((abs_round_natCast_le hbefore).trans
    (pow_le_pow_right₀ one_le_two (by decide))) (abs_round_le hmul)
  have hone : (1 : ℚ) / 2 ^ 0 ≤ Binary64.round h.observations := by
    rw [pow_zero, div_one]
    exact (round_bounds (a := 64) (by exact_mod_cast Nat.one_le_iff_ne_zero.mpr h0) (by exact_mod_cast hobs.le)).1
  have hdiv := abs_div_le_pow (abs_round_le hadd) hone
  have hsumD := (ofNat_denotes hbefore).add
    ((ofNat_denotes hcount).mul hoffset (le_maxExact hmul (by decide))) (le_maxExact hadd (by decide))
  have hpos : Binary64.round h.observations ≠ 0 := by
    rw [pow_zero, div_one] at hone
    linarith
  exact (hsumD.div (ofNat_denotes hobs) hpos (le_maxExact hdiv (by decide))).clamp

end Rollup.Histogram
