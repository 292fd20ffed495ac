import Rollup.Proofs.Histogram.Intake

/-!
# Buckets as intervals

The bucket of an integer is computed with rounded numbers, but rounding keeps the order, and so do the division by the
width, the floor and the cap. So the buckets cut the range into intervals that follow one another
(`Sized.bucketOf_mono`), the first of which begins at the lower bound (`Sized.bucketOf_lower`). This is the same for
every histogram of one shape, whatever it has counted (`SameShape.bucketOf_eq`).

What has been counted below an integer is then all that is in the buckets before its own, and some of what is in that
one (`buckets_in_order`).
-/

namespace Rollup.Histogram

variable {h h₀ h' : Histogram} {v : Int64}

/-! ## Positions and shape -/

theorem SameShape.position_eq (hs : h.SameShape h') (v : Int64) : h'.position v = h.position v := by
  simp only [position, rise, step, span, hs.lower, hs.upper, hs.size]

/-- A histogram that was just made has counted nothing, so only its buckets have to be few enough. -/
theorem sized_ofBounds {buckets : ℕ} {lower upper : Int64} (hnew : ofBounds buckets lower upper = .ok h₀)
    (hbuckets : buckets < 2 ^ 64) : h₀.Sized :=
  (tallies_ofBounds hnew).sized ((shape_ofBounds hnew).2.2 ▸ hbuckets) (by decide)

/-- The lower bound is at position zero, and in the first bucket. -/
theorem Sized.bucketOf_lower (hs : h.Sized) : (h.bucketOf h.lower : ℕ) = 0 := by
  have hrise : h.rise h.lower = 0 := sub_self _
  have hposition : h.position h.lower = 0 := by
    rw [position, hrise, Int.cast_zero, Binary64.round_zero, zero_div, Binary64.round_zero]
  have hfloor : (0 : ℚ).floor = 0 := rfl
  rw [hs.bucketOf_eq ⟨Int64.le_refl _, h.lower_le_upper⟩, hposition, hfloor, Int.toNat_zero, Nat.zero_min]

/-! ## Runs -/

/-- **Buckets are intervals in order.** Whatever a run has counted, the bucket of an integer in the range is the floor of
its rounded position, or the last one. Of two integers the greater one never has an earlier bucket, so all integers
between two of one bucket are in it; the lower bound is in the first bucket. Of the accepted integers, as many lie below
an integer as there are in the buckets before its own, and at most as many more as there are in that one. -/
theorem buckets_in_order {buckets : ℕ} {lower upper : Int64} {calls : List Intake}
    (hnew : ofBounds buckets lower upper = .ok h₀) (hrun : h₀.takeAll calls = h) (hbuckets : buckets < 2 ^ 64) :
    (∀ v, lower ≤ v → v ≤ upper → (h.bucketOf v : ℕ) = min (h.position v).floor.toNat (buckets - 1)) ∧
      (∀ u v, lower ≤ u → u ≤ v → v ≤ upper → (h.bucketOf u : ℕ) ≤ h.bucketOf v) ∧
      (∀ u v w, lower ≤ u → u ≤ v → v ≤ w → w ≤ upper → (h.bucketOf u : ℕ) = h.bucketOf w →
        (h.bucketOf v : ℕ) = h.bucketOf u) ∧
      (h.bucketOf lower : ℕ) = 0 ∧
      ∀ (v : Int64) (i : ℕ) (hi : i < h.counts.size), lower ≤ v → v ≤ upper → (h.bucketOf v : ℕ) = i →
        h.before i ≤ ((h₀.acceptedOf calls).countP fun u => u < v) ∧
          ((h₀.acceptedOf calls).countP fun u => u < v) ≤ h.before i + h.counts[i] := by
  have ht := tallies_takeAll hnew hrun
  have hs := sized_ofBounds hnew hbuckets
  have hsame := sameShape_takeAll hrun
  obtain ⟨rfl, rfl, rfl⟩ := shape_ofBounds hnew
  have hmono : ∀ u v, h₀.lower ≤ u → u ≤ v → v ≤ h₀.upper → (h.bucketOf u : ℕ) ≤ h.bucketOf v := by
    intro u v hlo huv hhi
    rw [hsame.bucketOf_eq, hsame.bucketOf_eq]
    exact hs.bucketOf_mono ⟨hlo, Int64.le_trans huv hhi⟩ ⟨Int64.le_trans hlo huv, hhi⟩ huv
  refine ⟨fun v hlo hhi => ?_, hmono, fun u v w hlo huv hvw hhi heq => ?_, ?_, ?_⟩
  · rw [hsame.bucketOf_eq, hsame.position_eq, hs.bucketOf_eq ⟨hlo, hhi⟩]
  · have huv' := hmono u v hlo huv (Int64.le_trans hvw hhi)
    have hvw' := hmono v w (Int64.le_trans hlo huv) hvw hhi
    omega
  · rw [hsame.bucketOf_eq, hs.bucketOf_lower]
  · rintro v i hi hlo hhi rfl
    rw [ht.before_eq hi.le, ht.counts _ hi]
    exact ⟨countP_bucket_lt_le fun u hu huv => hmono v u hlo huv (covers_of_mem_acceptedOf hu).2,
      countP_lt_le_bucket fun u hu huv => hmono u v (covers_of_mem_acceptedOf hu).1 huv hhi⟩

/-- Over all integers, -3 and -1 are rounded up into the upper one of two buckets, and the order is kept. -/
theorem buckets_in_order_all_integers :
    ∃ h₀ h, ofBounds 2 Int64.minValue Int64.maxValue = .ok h₀ ∧
      h₀.takeAll [.several [3, -1, -2000], .one (-3)] = h ∧ (h.bucketOf (-2000) : ℕ) ≤ h.bucketOf (-3) ∧
      (h.bucketOf (-3) : ℕ) = 1 ∧ (h.bucketOf (-2) : ℕ) = h.bucketOf (-3) ∧ (h.bucketOf Int64.minValue : ℕ) = 0 ∧
      h.before 1 ≤ ([3, -1, -2000, -3].countP fun u : Int64 => u < -1) ∧
      ∃ hi : 1 < h.counts.size, ([3, -1, -2000, -3].countP fun u : Int64 => u < -1) ≤ h.before 1 + h.counts[1] := by
  obtain ⟨h₀, h, hnew, hrun, haccepted, hthree, hone, hi⟩ :
      ∃ h₀ h, ofBounds 2 Int64.minValue Int64.maxValue = .ok h₀ ∧
        h₀.takeAll [.several [3, -1, -2000], .one (-3)] = h ∧
        h₀.acceptedOf [.several [3, -1, -2000], .one (-3)] = [3, -1, -2000, -3] ∧
        (h.bucketOf (-3) : ℕ) = 1 ∧ (h.bucketOf (-1) : ℕ) = 1 ∧ 1 < h.counts.size :=
    ⟨_, _, rfl, rfl, by decide +kernel, by decide +kernel, by decide +kernel, by decide +kernel⟩
  obtain ⟨-, hmono, hinterval, hlower, hbelow⟩ := buckets_in_order hnew hrun (by decide)
  rw [haccepted] at hbelow
  obtain ⟨hlow, hhigh⟩ := hbelow (-1) 1 hi (by decide) (by decide) hone
  exact ⟨h₀, h, hnew, hrun, hmono (-2000) (-3) (by decide) (by decide) (by decide), hthree,
    (hinterval (-3) (-2) (-1) (by decide) (by decide) (by decide) (by decide) (hthree.trans hone.symm)), hlower, hlow, hi,
    hhigh⟩

end Rollup.Histogram
