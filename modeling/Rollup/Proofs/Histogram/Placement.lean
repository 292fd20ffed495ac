import Rollup.Proofs.Histogram.Intake
import Rollup.Proofs.Histogram.Position

/-!
# Placement in buckets

Cut into buckets of exactly the same width, the range of a histogram has an integer in its `exactBucket`. The bucket that
the histogram counts the integer in comes from a computed position, so it can be another one.

- `Sized.abs_bucketOf_sub_lt`: it is not far away, whatever the shape;
- `Sized.bucketOf_eq_of_interior`: it is the exact one for an integer that is not too near to the ends of its bucket;
- `Sized.bucketOf_eq_or`: the ends of the buckets and the integers lie on a common `grid`. If that is not too fine, only
  an integer at the start of a bucket can be counted elsewhere, and then it is in the bucket before;
- `Sized.bucketOf_eq_exactBucket`: nor can that one, unless the width of a bucket has been rounded up;
- `counts_near_equi_width`: what this means for the counts after a run.
-/

namespace Rollup.Histogram

open Binary64 (round_intCast le_round)

variable {h h₀ : Histogram} {u v : Int64} {values : List Int64}

/-! ## Exact buckets -/

/-- The bucket of an integer, for buckets of exactly the same width. -/
def exactBucket (h : Histogram) (v : Int64) : ℕ :=
  (h.rise v * h.counts.size / h.span).toNat

/-- Integers that the histogram counts in their exact buckets. -/
def CountsExactly (h : Histogram) (values : List Int64) : Prop :=
  ∀ v ∈ values, (h.bucketOf v : ℕ) = h.exactBucket v

instance (h : Histogram) (values : List Int64) : Decidable (h.CountsExactly values) :=
  List.decidableBAll _ values

theorem exactBucket_mono (h : Histogram) (huv : u ≤ v) : h.exactBucket u ≤ h.exactBucket v := by
  have hspan := h.one_le_span
  exact Int.toNat_le_toNat
    (Int.ediv_le_ediv (by omega) (Int.mul_le_mul_of_nonneg_right (h.rise_le_rise huv) (by omega)))

theorem natCast_exactBucket (hv : h.Covers v) : (h.exactBucket v : ℤ) = h.rise v * h.counts.size / h.span := by
  have hrise := rise_nonneg hv
  have hspan := h.one_le_span
  exact Int.toNat_of_nonneg (by positivity)

theorem exactBucket_mul_span (hv : h.Covers v) (hstart : h.span ∣ h.rise v * h.counts.size) :
    h.exactBucket v * h.span = h.rise v * h.counts.size := by
  rw [natCast_exactBucket hv, Int.ediv_mul_cancel hstart]

/-- An integer lies between the ends of its bucket. -/
theorem exactBucket_bounds (hv : h.Covers v) :
    h.exactBucket v * h.span ≤ h.rise v * h.counts.size ∧
      h.rise v * h.counts.size < (h.exactBucket v + 1) * h.span := by
  have hspan := h.one_le_span
  rw [natCast_exactBucket hv]
  exact ⟨Int.ediv_mul_le _ (by omega), Int.lt_ediv_add_one_mul_self _ (by omega)⟩

theorem exactBucket_lt_size (hv : h.Covers v) : h.exactBucket v < h.counts.size := by
  have hspan := h.one_le_span
  have hsize := h.counts_pos
  have hmul : h.exactBucket v * h.span < h.counts.size * h.span := by
    calc h.exactBucket v * h.span ≤ h.rise v * h.counts.size := (exactBucket_bounds hv).1
      _ < h.span * h.counts.size := Int.mul_lt_mul_of_pos_right (rise_lt_span hv) (by omega)
      _ = h.counts.size * h.span := Int.mul_comm _ _
  exact_mod_cast lt_of_mul_lt_mul_right hmul (by omega)

/-- What lies below the start of a bucket is in an earlier bucket. -/
theorem exactBucket_lt_of_start (hu : h.Covers u) (hv : h.Covers v) (hstart : h.span ∣ h.rise v * h.counts.size)
    (huv : u < v) : h.exactBucket u < h.exactBucket v := by
  have hsize := h.counts_pos
  have hspan := h.one_le_span
  have hmul : h.rise u * h.counts.size < h.exactBucket v * h.span := by
    rw [exactBucket_mul_span hv hstart]
    exact Int.mul_lt_mul_of_pos_right (h.rise_lt_rise huv) (by omega)
  have hle := (exactBucket_bounds hu).1
  exact_mod_cast lt_of_mul_lt_mul_right (hle.trans_lt hmul) (by omega)

/-! ## Places and exact buckets -/

theorem exactBucket_le_place (hv : h.Covers v) : (h.exactBucket v : ℚ) ≤ h.place v := by
  rw [place, le_div_iff₀ h.span_pos]
  exact_mod_cast (exactBucket_bounds hv).1

theorem place_lt (hv : h.Covers v) : h.place v < h.exactBucket v + 1 := by
  rw [place, div_lt_iff₀ h.span_pos]
  exact_mod_cast (exactBucket_bounds hv).2

/-! ## Any shape -/

section Sized

variable (hs : h.Sized) (hv : h.Covers v)

include hs hv

theorem Sized.natCast_bucketOf : ((h.bucketOf v : ℕ) : ℤ) = min ⌊h.position v⌋ (h.counts.size - 1) := by
  have hfloor : 0 ≤ (h.position v).floor := Int.floor_nonneg.mpr (hs.position_nonneg hv)
  have hsize := h.counts_pos
  rw [hs.bucketOf_eq hv]
  show _ = min (h.position v).floor _
  omega

/-- The bucket of a position. -/
theorem Sized.bucketOf_eq_of_position {i : ℕ} (hi : i < h.counts.size) (hlo : i ≤ h.position v)
    (hhi : h.position v < i + 1) : (h.bucketOf v : ℕ) = i := by
  have hbucket := hs.natCast_bucketOf hv
  rw [Int.floor_eq_iff.mpr ⟨(by exact_mod_cast hlo : ((i : ℤ) : ℚ) ≤ _), by exact_mod_cast hhi⟩] at hbucket
  omega

/-- The bucket is not farther from the exact one than the next, but for a small part of the number of buckets. -/
theorem Sized.abs_bucketOf_sub_lt :
    |((h.bucketOf v : ℕ) : ℚ) - h.exactBucket v| < 1 + h.counts.size / 2 ^ 50 := by
  have hposition := abs_lt.mp (hs.abs_position_sub_place_lt hv)
  have hbucket := hs.natCast_bucketOf hv
  have hexact := exactBucket_lt_size hv
  have hle : ((h.bucketOf v : ℕ) : ℚ) ≤ ⌊h.position v⌋ := by
    have hle : ((h.bucketOf v : ℕ) : ℤ) ≤ ⌊h.position v⌋ := by omega
    exact_mod_cast hle
  rw [abs_lt]
  constructor
  · -- the last bucket is not before the exact one
    rcases min_choice ⌊h.position v⌋ (h.counts.size - 1 : ℤ) with hmin | hmin
    · have heq : ((h.bucketOf v : ℕ) : ℚ) = ⌊h.position v⌋ := by
        rw [hmin] at hbucket
        exact_mod_cast hbucket
      linarith [exactBucket_le_place hv, Int.lt_floor_add_one (h.position v)]
    · have hge : (h.exactBucket v : ℚ) ≤ (h.bucketOf v : ℕ) := by
        have hge : h.exactBucket v ≤ (h.bucketOf v : ℕ) := by omega
        exact_mod_cast hge
      have hpos : 0 < (h.counts.size : ℚ) / 2 ^ 50 := div_pos h.size_pos (by positivity)
      linarith
  · linarith [place_lt hv, Int.floor_le (h.position v)]

/-- An integer that is not too near to the ends of its bucket is counted in it. -/
theorem Sized.bucketOf_eq_of_interior (hlo : h.exactBucket v + h.counts.size / 2 ^ 50 ≤ h.place v)
    (hhi : h.place v + h.counts.size / 2 ^ 50 ≤ h.exactBucket v + 1) : (h.bucketOf v : ℕ) = h.exactBucket v := by
  have hposition := abs_lt.mp (hs.abs_position_sub_place_lt hv)
  exact hs.bucketOf_eq_of_position hv (exactBucket_lt_size hv) (by linarith) (by linarith)

end Sized

/-! ## Coarse grids -/

/-- The number of cells of the coarsest grid on the range that both the integers and the ends of the buckets lie on. -/
def grid (h : Histogram) : ℕ :=
  Int.lcm h.counts.size h.span

theorem grid_pos (h : Histogram) : 0 < h.grid := by
  have hspan := h.one_le_span
  have hsize := h.counts_pos
  exact Int.lcm_pos (by omega) (by omega)

theorem size_le_grid (h : Histogram) : h.counts.size ≤ h.grid := by
  have hle := Int.le_of_dvd (by exact_mod_cast h.grid_pos) (Int.dvd_lcm_left (h.counts.size : ℤ) h.span)
  exact_mod_cast hle

theorem span_le_grid (h : Histogram) : h.span ≤ h.grid :=
  Int.le_of_dvd (by exact_mod_cast h.grid_pos) (Int.dvd_lcm_right (h.counts.size : ℤ) h.span)

/-- A grid is not finer than the product of the two. -/
theorem grid_le_mul (h : Histogram) : (h.grid : ℤ) ≤ h.counts.size * h.span := by
  have hspan := h.one_le_span
  have hsize := h.counts_pos
  exact Int.le_of_dvd (by positivity) (Int.lcm_dvd_mul (h.counts.size : ℤ) h.span)

/-- Where the buckets hold the same number of integers each, the grid is that of the integers. -/
theorem grid_eq_of_dvd (hdvd : (h.counts.size : ℤ) ∣ h.span) : (h.grid : ℤ) = h.span := by
  have hspan := h.one_le_span
  exact Int.lcm_eq_right (by omega) hdvd

theorem gcd_mul_grid (h : Histogram) : (Int.gcd h.counts.size h.span : ℤ) * h.grid = h.counts.size * h.span := by
  have hmul := Int.gcd_mul_lcm (h.counts.size : ℤ) h.span
  have hspan := h.one_le_span
  rw [← Int.natCast_inj, Int.natCast_mul, Int.natCast_mul, Int.natCast_natAbs, Int.natCast_natAbs,
    abs_of_nonneg (by omega), abs_of_nonneg (by omega)] at hmul
  exact hmul

section Coarse

variable (hs : h.Sized) (hgrid : h.grid ≤ 2 ^ 50) (hv : h.Covers v)

include hgrid in
/-- Places that are not the same are at least a cell apart. -/
theorem add_le_of_mul_lt {m n : ℤ} (hm : (Int.gcd h.counts.size h.span : ℤ) ∣ m)
    (hn : (Int.gcd h.counts.size h.span : ℤ) ∣ n) (hlt : m < n) :
    (m : ℚ) / h.span + h.counts.size / 2 ^ 50 ≤ n / h.span := by
  have hgcd : (Int.gcd h.counts.size h.span : ℤ) ≤ n - m := Int.le_of_dvd (by omega) (Int.dvd_sub hn hm)
  have hcell : (h.counts.size : ℤ) * h.span ≤ (n - m) * 2 ^ 50 := by
    rw [← h.gcd_mul_grid]
    exact mul_le_mul hgcd (by exact_mod_cast hgrid) (by positivity) (by omega)
  have hcell' : (h.counts.size : ℚ) * h.span ≤ (n - m) * 2 ^ 50 := by exact_mod_cast hcell
  rw [div_add' _ _ _ h.span_pos.ne', div_le_div_iff_of_pos_right h.span_pos]
  linarith

theorem gcd_dvd_rise (h : Histogram) (v : Int64) :
    (Int.gcd h.counts.size h.span : ℤ) ∣ h.rise v * h.counts.size :=
  (Int.gcd_dvd_left _ _).mul_left _

theorem gcd_dvd_start (h : Histogram) (i : ℤ) : (Int.gcd h.counts.size h.span : ℤ) ∣ i * h.span :=
  (Int.gcd_dvd_right _ _).mul_left _

include hgrid hv

/-- An integer lies at least a cell below the end of its bucket. -/
theorem place_add_le : h.place v + h.counts.size / 2 ^ 50 ≤ h.exactBucket v + 1 := by
  have hcell := add_le_of_mul_lt hgrid (h.gcd_dvd_rise v) (h.gcd_dvd_start _) (exactBucket_bounds hv).2
  push_cast at hcell
  rwa [mul_div_cancel_right₀ _ h.span_pos.ne'] at hcell

/-- An integer lies at least a cell above the start of its bucket, if it is not that start. -/
theorem exactBucket_add_le (hstart : ¬h.span ∣ h.rise v * h.counts.size) :
    h.exactBucket v + h.counts.size / 2 ^ 50 ≤ h.place v := by
  have hlt : h.exactBucket v * h.span < h.rise v * h.counts.size :=
    lt_of_le_of_ne (exactBucket_bounds hv).1 fun heq => hstart (Dvd.intro_left _ heq)
  have hcell := add_le_of_mul_lt hgrid (h.gcd_dvd_start _) (h.gcd_dvd_rise v) hlt
  push_cast at hcell
  rwa [mul_div_cancel_right₀ _ h.span_pos.ne'] at hcell

include hs

/-- From above, the next bucket is farther away than all that rounding changes. -/
theorem Sized.position_lt : h.position v < h.exactBucket v + 1 := by
  linarith [(abs_lt.mp (hs.abs_position_sub_place_lt hv)).2, place_add_le hgrid hv]

/-- From below, rounding leads up to the exact bucket at most, which is a number of binary64 precision. -/
theorem Sized.exactBucket_le_position (hstep : h.step * h.counts.size ≤ h.span) :
    (h.exactBucket v : ℚ) ≤ h.position v := by
  have hsize : h.counts.size ≤ 2 ^ 51 := h.size_le_grid.trans (hgrid.trans (by decide))
  have hexact := round_natCast hsize (exactBucket_lt_size hv).le
  have hrise : Binary64.round (h.rise v) = h.rise v := by
    have hlt := rise_lt_span hv
    have hnonneg := rise_nonneg hv
    have hspan := h.span_le_grid
    exact round_intCast (by unfold Binary64.maxSignificand; omega)
  have hlow : (h.exactBucket v : ℚ) * h.span ≤ h.rise v * h.counts.size := by exact_mod_cast (exactBucket_bounds hv).1
  have hmul : (h.exactBucket v : ℚ) * h.step * h.counts.size ≤ h.rise v * h.counts.size := by
    rw [mul_assoc]
    exact (mul_le_mul_of_nonneg_left hstep (by positivity)).trans hlow
  rw [position, hrise]
  exact le_round hexact ((le_div_iff₀ hs.step_pos).mpr (le_of_mul_le_mul_right hmul h.size_pos))

/-- The bucket of an integer is the exact one if the width is not rounded up and the grid is not too fine. -/
theorem Sized.bucketOf_eq_exactBucket (hstep : h.step * h.counts.size ≤ h.span) :
    (h.bucketOf v : ℕ) = h.exactBucket v :=
  hs.bucketOf_eq_of_position hv (exactBucket_lt_size hv) (hs.exactBucket_le_position hgrid hv hstep)
    (hs.position_lt hgrid hv)

/-- Only the start of a bucket can be counted elsewhere: in the bucket before, where the width is rounded up. -/
theorem Sized.bucketOf_eq_or :
    (h.bucketOf v : ℕ) = h.exactBucket v ∨
      h.span ∣ h.rise v * h.counts.size ∧ h.span < h.step * h.counts.size ∧
        (h.bucketOf v : ℕ) + 1 = h.exactBucket v := by
  by_cases hstart : h.span ∣ h.rise v * h.counts.size
  swap
  · exact .inl (hs.bucketOf_eq_of_interior hv (exactBucket_add_le hgrid hv hstart) (place_add_le hgrid hv))
  rcases le_or_gt (h.step * h.counts.size) h.span with hstep | hstep
  · exact .inl (hs.bucketOf_eq_exactBucket hgrid hv hstep)
  rcases le_or_gt (h.exactBucket v : ℚ) (h.position v) with hle | hlt
  · exact .inl (hs.bucketOf_eq_of_position hv (exactBucket_lt_size hv) hle (hs.position_lt hgrid hv))
  · -- the position has come out too small, but not by a bucket
    refine .inr ⟨hstart, hstep, ?_⟩
    obtain ⟨i, hi⟩ : ∃ i, h.exactBucket v = i + 1 := by
      refine Nat.exists_eq_add_one_of_ne_zero fun hzero => ?_
      rw [hzero, Nat.cast_zero] at hlt
      exact hlt.not_ge (hs.position_nonneg hv)
    have hexact := exactBucket_lt_size hv
    have hplace := exactBucket_le_place hv
    have hposition := (abs_lt.mp (hs.abs_position_sub_place_lt hv)).1
    have hcell : (h.counts.size : ℚ) / 2 ^ 50 ≤ 1 := by
      rw [div_le_one (by positivity)]
      exact_mod_cast h.size_le_grid.trans hgrid
    rw [hi, Nat.cast_add, Nat.cast_one] at hlt hplace
    rw [hi, hs.bucketOf_eq_of_position hv (i := i) (by omega) (by linarith) hlt]

end Coarse

/-- A width that is an integer is not rounded. -/
theorem step_mul_size_of_dvd (hspan : h.span ≤ 2 ^ 50) (hdvd : (h.counts.size : ℤ) ∣ h.span) :
    h.step * h.counts.size = h.span := by
  have hone := h.one_le_span
  have hsize : (h.counts.size : ℤ) ≤ h.span := Int.le_of_dvd (by omega) hdvd
  obtain ⟨n, hn⟩ := hdvd
  have hround : ∀ m : ℤ, 0 ≤ m → m ≤ h.span → Binary64.round m = m := fun m hlo hhi =>
    round_intCast (by unfold Binary64.maxSignificand; omega)
  have hn0 : 0 ≤ n := by nlinarith [h.counts_pos]
  have hquotient : (h.span : ℚ) / h.counts.size = n := by
    rw [div_eq_iff h.size_pos.ne', mul_comm]
    exact_mod_cast hn
  rw [step, hround _ (by omega) le_rfl, round_natCast (by omega) le_rfl, hquotient,
    hround n hn0 (by nlinarith [h.counts_pos]), ← hquotient, div_mul_cancel₀ _ h.size_pos.ne']

theorem Sized.countsExactly_of_grid (hs : h.Sized) (hgrid : h.grid ≤ 2 ^ 50) (hstep : h.step * h.counts.size ≤ h.span)
    (hcovers : ∀ v ∈ values, h.Covers v) : h.CountsExactly values :=
  fun v hv => hs.bucketOf_eq_exactBucket hgrid (hcovers v hv) hstep

/-! ## Runs -/

theorem Tallies.counts_eq_of_countsExactly (ht : h.Tallies values) (hexact : h.CountsExactly values) {i : ℕ}
    (hi : i < h.counts.size) : h.counts[i] = values.countP fun v => h.exactBucket v = i := by
  rw [ht.counts i hi]
  exact List.countP_congr fun v hv => by rw [hexact v hv]

theorem countP_le_add {α : Type} {p q r : α → Bool} {xs : List α} (hpqr : ∀ x ∈ xs, p x → q x ∨ r x) :
    xs.countP p ≤ xs.countP q + xs.countP r := by
  induction xs with
  | nil => simp
  | cons x xs ih =>
    rw [List.forall_mem_cons] at hpqr
    have hrest := ih hpqr.2
    simp only [List.countP_cons]
    by_cases hp : p x
    · rcases hpqr.1 hp with hx | hx <;> simp only [hp, hx, if_true] <;> omega
    · rw [if_neg hp]
      omega

/-- What has been counted before a bucket is what lies before the exact one, and some of the integers at its start. -/
theorem Tallies.before_bounds (ht : h.Tallies values) (hs : h.Sized) (hgrid : h.grid ≤ 2 ^ 50) {i : ℕ}
    (hi : i ≤ h.counts.size) :
    (values.countP fun v => h.exactBucket v < i) ≤ h.before i ∧
      h.before i ≤ (values.countP fun v => h.exactBucket v < i) +
        values.countP fun v => h.exactBucket v = i ∧ h.span ∣ h.rise v * h.counts.size := by
  rw [ht.before_eq hi]
  constructor
  · refine List.countP_mono_left fun v hv hlt => ?_
    rw [decide_eq_true_eq] at hlt ⊢
    rcases hs.bucketOf_eq_or hgrid (ht.covers v hv) with heq | ⟨-, -, heq⟩ <;> omega
  · refine countP_le_add fun v hv hlt => ?_
    rw [decide_eq_true_eq] at hlt ⊢
    rw [decide_eq_true_eq]
    rcases hs.bucketOf_eq_or hgrid (ht.covers v hv) with heq | ⟨hstart, -, heq⟩
    · exact .inl (by omega)
    · rcases Nat.lt_or_ge (h.exactBucket v) i with hlt' | hge
      · exact .inl hlt'
      · exact .inr ⟨by omega, hstart⟩

/-- **The counts are near to those of exact buckets.** After any run, each integer has a bucket that is not farther from
the exact one than the next, but for a small part of the number of buckets. If the integers and the ends of the buckets
lie on a grid that is not too fine, the bucket is the exact one but for integers at the start of a bucket: where the width
is rounded up, they can be in the bucket before, and only by them do sums of counts differ from those of exact buckets.
Where it is not, which is so if the buckets hold the same number of integers each, every count is the one of the exact
bucket. -/
theorem counts_near_equi_width {buckets : ℕ} {lower upper : Int64} {calls : List Intake}
    (hnew : ofBounds buckets lower upper = .ok h₀) (hrun : h₀.takeAll calls = h) (hbuckets : buckets < 2 ^ 64)
    (hobservations : h.observations < 2 ^ 64) :
    (∀ v, lower ≤ v → v ≤ upper →
      (h.exactBucket v : ℤ) = (v.toInt - lower.toInt) * buckets / (upper.toInt - lower.toInt + 1) ∧
        |((h.bucketOf v : ℕ) : ℚ) - h.exactBucket v| < 1 + buckets / 2 ^ 50) ∧
      (Int.lcm buckets h.span ≤ 2 ^ 50 →
        (∀ v, lower ≤ v → v ≤ upper → (h.bucketOf v : ℕ) = h.exactBucket v ∨
          h.span ∣ h.rise v * buckets ∧ h.span < h.step * buckets ∧ (h.bucketOf v : ℕ) + 1 = h.exactBucket v) ∧
        (∀ i ≤ buckets, ((h₀.acceptedOf calls).countP fun v => h.exactBucket v < i) ≤ h.before i ∧
          h.before i ≤ ((h₀.acceptedOf calls).countP fun v => h.exactBucket v < i) +
            (h₀.acceptedOf calls).countP fun v => h.exactBucket v = i ∧ h.span ∣ h.rise v * buckets) ∧
        (h.step * buckets ≤ h.span → ∀ (i : ℕ) (hi : i < h.counts.size),
          h.counts[i] = (h₀.acceptedOf calls).countP fun v => h.exactBucket v = i)) ∧
      ((buckets : ℤ) ∣ h.span → h.span ≤ 2 ^ 50 → Int.lcm buckets h.span ≤ 2 ^ 50 ∧ h.step * buckets ≤ h.span) := by
  have ht := tallies_takeAll hnew hrun
  have hs := sized_takeAll hnew hrun hbuckets hobservations
  obtain ⟨rfl, rfl, rfl⟩ := shape_takeAll hnew hrun
  refine ⟨fun v hlo hhi => ⟨natCast_exactBucket ⟨hlo, hhi⟩, hs.abs_bucketOf_sub_lt ⟨hlo, hhi⟩⟩,
    fun hgrid => ⟨fun v hlo hhi => hs.bucketOf_eq_or hgrid ⟨hlo, hhi⟩, fun i hi => ht.before_bounds hs hgrid hi,
      fun hstep i hi => ht.counts_eq_of_countsExactly (hs.countsExactly_of_grid hgrid hstep ht.covers) hi⟩,
    fun hdvd hspan => ⟨?_, (step_mul_size_of_dvd hspan hdvd).le⟩⟩
  have hgrid := (grid_eq_of_dvd hdvd).trans_le hspan
  exact_mod_cast hgrid

/-- Buckets of one and a half integers each. -/
theorem counts_near_equi_width_twelve_buckets :
    ∃ h₀ h, ofBounds 12 (-9) 8 = .ok h₀ ∧ h₀.takeAll [.several [-8, 9, 3], .one (-6), .one 8] = h ∧
      h.observations < 2 ^ 64 ∧
      ∀ (i : ℕ) (hi : i < h.counts.size), h.counts[i] = [-8, -6, 8].countP fun v => h.exactBucket v = i := by
  obtain ⟨h₀, h, hnew, hrun, haccepted, hobservations, hgrid, hstep⟩ : ∃ h₀ h, ofBounds 12 (-9) 8 = .ok h₀ ∧
      h₀.takeAll [.several [-8, 9, 3], .one (-6), .one 8] = h ∧
      h₀.acceptedOf [.several [-8, 9, 3], .one (-6), .one 8] = [-8, -6, 8] ∧ h.observations < 2 ^ 64 ∧
      Int.lcm (12 : ℕ) h.span ≤ 2 ^ 50 ∧ h.step * (12 : ℕ) ≤ h.span :=
    ⟨_, _, rfl, rfl, by decide +kernel, by decide +kernel, by decide +kernel, by decide +kernel⟩
  obtain ⟨-, hcounts, -⟩ := counts_near_equi_width hnew hrun (by decide) hobservations
  rw [haccepted] at hcounts
  exact ⟨h₀, h, hnew, hrun, hobservations, (hcounts hgrid).2.2 hstep⟩

/-- Nine is the start of the eighth of fourteen buckets from 0 to 17, and is counted in the seventh. -/
theorem counted_before_its_bucket :
    ∃ h₀ h, ofBounds 14 0 17 = .ok h₀ ∧ h₀.take (.one 9) = ⟨.ok (), h⟩ ∧ h.exactBucket 9 = 7 ∧
      h.counts.toList = [0, 0, 0, 0, 0, 0, 1, 0, 0, 0, 0, 0, 0, 0] :=
  ⟨_, _, rfl, rfl, by decide +kernel, by decide +kernel⟩

/-- Where there are too many integers, a rise is rounded up into the next bucket: -1 is the last of its half. -/
example :
    ∃ h₀, ofBounds 2 Int64.minValue Int64.maxValue = .ok h₀ ∧ h₀.exactBucket (-1) = 0 ∧ (h₀.bucketOf (-1) : ℕ) = 1 :=
  ⟨_, rfl, by decide +kernel, by decide +kernel⟩

end Rollup.Histogram
