import Mathlib.Algebra.GroupWithZero.Nat
import Rollup.Histogram.Estimate

/-!
# What the counts of a histogram count

A histogram `Tallies` a list of integers if they are the ones that it has counted: every one lies in its range, and the
count of a bucket is the number of those that fall into it. Counting one more integer keeps this (`Tallies.count`), so it
holds after every run that meets no refusal (`tallies_addAll`).

The counts of the buckets before one are then the number of integers in these buckets (`Tallies.before_eq`). If buckets
are in order, then these integers lie below those of the bucket (`countP_bucket_lt_le`, `countP_lt_le_bucket`).
-/

namespace Rollup.Histogram

variable {h h₀ h' : Histogram} {values : List Int64} {v : Int64}

/-- The bucket of an integer does not depend on what has been counted. -/
@[simp] theorem bucketOf_count (h : Histogram) (bucket : Nat) (v : Int64) :
    ((h.count bucket).bucketOf v : Nat) = h.bucketOf v := by
  simp only [bucketOf, size_counts_count]
  rfl

theorem getElem_counts_count (h : Histogram) (bucket : Nat) {i : Nat} (hi : i < h.counts.size)
    (hi' : i < (h.count bucket).counts.size) :
    (h.count bucket).counts[i] = if bucket = i then h.counts[i] + 1 else h.counts[i] :=
  Array.getElem_modify hi'

theorem covers_count (h : Histogram) (bucket : Nat) (v : Int64) : (h.count bucket).Covers v ↔ h.Covers v :=
  Iff.rfl

/-- The integers that a histogram has counted. -/
structure Tallies (h : Histogram) (values : List Int64) : Prop where
  covers : ∀ v ∈ values, h.Covers v
  observations : h.observations = values.length
  counts : ∀ (i : Nat) (hi : i < h.counts.size), h.counts[i] = values.countP fun v => (h.bucketOf v : Nat) = i

/-- A histogram that was just made has counted nothing. -/
theorem tallies_ofBounds {buckets : Nat} {lower upper : Int64} (h : ofBounds buckets lower upper = .ok h₀) :
    h₀.Tallies [] := by
  unfold ofBounds at h
  split at h
  · cases h
  · split at h
    · cases h
    · cases h
      exact ⟨nofun, rfl, by simp⟩

/-- Counting an integer of the range. -/
theorem Tallies.count (ht : h.Tallies values) (hv : h.Covers v) :
    (h.count (h.bucketOf v)).Tallies (values ++ [v]) where
  covers := by
    intro u hu
    rw [covers_count]
    rcases List.mem_append.mp hu with hu | hu
    · exact ht.covers u hu
    · rw [List.mem_singleton.mp hu]
      exact hv
  observations := by rw [observations_count, ht.observations, List.length_append, List.length_singleton]
  counts := by
    intro i hi
    have hi' : i < h.counts.size := by rwa [size_counts_count] at hi
    rw [getElem_counts_count h _ hi']
    simp only [bucketOf_count, List.countP_append, List.countP_singleton, ← ht.counts i hi', decide_eq_true_eq]
    split <;> rfl

/-- Integers that are counted on top of others. -/
theorem Tallies.addAll {before : List Int64} (ht : h₀.Tallies before) (h' : h₀.addAll values = ⟨.ok (), h⟩) :
    h.Tallies (before ++ values) := by
  induction values generalizing h₀ before with
  | nil =>
    cases h'
    rwa [List.append_nil]
  | cons v values ih =>
    cases hv : h₀.add v with
    | error e =>
      rw [Histogram.addAll, absorb_cons_error _ hv] at h'
      cases h'
    | ok h₁ =>
      rw [Histogram.addAll, absorb_cons_ok _ hv] at h'
      obtain ⟨hcovers, rfl⟩ := add_eq_ok_iff.mp hv
      have hrest := ih (ht.count hcovers) h'
      rwa [List.append_assoc, List.singleton_append] at hrest

/-- The integers of a run that meets no refusal are what the histogram has counted. -/
theorem tallies_addAll {buckets : Nat} {lower upper : Int64} (hnew : ofBounds buckets lower upper = .ok h₀)
    (hrun : h₀.addAll values = ⟨.ok (), h⟩) : h.Tallies values :=
  (tallies_ofBounds hnew).addAll hrun

/-! ## What counting leaves alone -/

/-- Two histograms with the same range and as many buckets. -/
structure SameShape (h h' : Histogram) : Prop where
  lower : h'.lower = h.lower
  upper : h'.upper = h.upper
  size : h'.counts.size = h.counts.size

theorem SameShape.trans {h₁ : Histogram} (hs : h.SameShape h₁) (hs' : h₁.SameShape h') : h.SameShape h' :=
  ⟨hs'.lower.trans hs.lower, hs'.upper.trans hs.upper, hs'.size.trans hs.size⟩

theorem sameShape_count (h : Histogram) (bucket : Nat) : h.SameShape (h.count bucket) :=
  ⟨rfl, rfl, size_counts_count h bucket⟩

/-- A run keeps the range and the number of buckets, also if it ends with a refusal. -/
theorem sameShape_addAll (h : Histogram) (values : List Int64) : h.SameShape (h.addAll values).state := by
  induction values generalizing h with
  | nil => exact ⟨rfl, rfl, rfl⟩
  | cons v values ih =>
    cases hv : h.add v with
    | error e =>
      rw [addAll, absorb_cons_error _ hv]
      exact ⟨rfl, rfl, rfl⟩
    | ok h₁ =>
      rw [addAll, absorb_cons_ok _ hv]
      obtain ⟨_, rfl⟩ := add_eq_ok_iff.mp hv
      exact (sameShape_count h _).trans (ih _)

/-- The range and the number of buckets of a histogram that was just made. -/
theorem shape_ofBounds {buckets : Nat} {lower upper : Int64} (h : ofBounds buckets lower upper = .ok h₀) :
    h₀.lower = lower ∧ h₀.upper = upper ∧ h₀.counts.size = buckets := by
  unfold ofBounds at h
  split at h
  · cases h
  · split at h
    · cases h
    · cases h
      exact ⟨rfl, rfl, Array.size_replicate⟩

/-- The range and the number of buckets of a histogram after a run. -/
theorem shape_addAll {buckets : Nat} {lower upper : Int64} (hnew : ofBounds buckets lower upper = .ok h₀)
    (hrun : h₀.addAll values = ⟨.ok (), h⟩) : h.lower = lower ∧ h.upper = upper ∧ h.counts.size = buckets := by
  have hs := sameShape_addAll h₀ values
  rw [hrun] at hs
  obtain ⟨hlower, hupper, hsize⟩ := shape_ofBounds hnew
  exact ⟨hs.lower.trans hlower, hs.upper.trans hupper, hs.size.trans hsize⟩

/-! ## Sums of counts -/

theorem before_eq_sum (h : Histogram) (i : Nat) : h.before i = (h.counts.toList.take i).sum := rfl

theorem before_succ {i : Nat} (hi : i < h.counts.size) : h.before (i + 1) = h.before i + h.counts[i] := by
  have hi' : i < h.counts.toList.length := hi
  simp only [before_eq_sum, List.take_add_one, List.getElem?_eq_getElem hi', Option.toList_some, List.sum_append,
    List.sum_singleton, Array.getElem_toList]

theorem countP_lt_add_one {α : Type} (f : α → Nat) (xs : List α) (i : Nat) :
    (xs.countP fun x => f x < i + 1) = (xs.countP fun x => f x < i) + xs.countP fun x => f x = i := by
  induction xs with
  | nil => rfl
  | cons x xs ih =>
    simp only [List.countP_cons, decide_eq_true_eq, ih]
    split <;> split <;> split <;> omega

/-- The buckets before one hold the integers that fall into them. -/
theorem Tallies.before_eq (ht : h.Tallies values) {i : Nat} (hi : i ≤ h.counts.size) :
    h.before i = values.countP fun v => (h.bucketOf v : Nat) < i := by
  induction i with
  | zero => simp [before_eq_sum]
  | succ i ih =>
    rw [before_succ (by omega), ih (by omega), ht.counts i (by omega)]
    exact (countP_lt_add_one _ values i).symm

/-- The integers of a bucket and of those before it are some of all that were counted. -/
theorem Tallies.before_add_le (ht : h.Tallies values) {i : Nat} (hi : i < h.counts.size) :
    h.before i + h.counts[i] ≤ h.observations := by
  rw [← before_succ hi, ht.before_eq (by omega), ht.observations]
  exact List.countP_le_length

/-- Whole buckets lie before a later one. -/
theorem before_add_le_before {i j : Nat} (hij : i < j) (hj : j ≤ h.counts.size) :
    h.before i + h.counts[i] ≤ h.before j := by
  rw [← before_succ (by omega)]
  induction j with
  | zero => omega
  | succ j ih =>
    rcases Nat.lt_or_eq_of_le (Nat.le_of_lt_succ hij) with hlt | rfl
    · rw [before_succ (i := j) (by omega)]
      exact Nat.le_add_right_of_le (ih hlt (by omega))
    · exact Nat.le_refl _

/-! ## Buckets in order -/

section Order

variable {bucket : Int64 → Nat}

/-- What is in the buckets before that of `v` lies below `v`, unless a greater integer has an earlier bucket. -/
theorem countP_bucket_lt_le (hmono : ∀ u ∈ values, v ≤ u → bucket v ≤ bucket u) :
    (values.countP fun u => bucket u < bucket v) ≤ values.countP fun u => u < v := by
  refine List.countP_mono_left fun u hu hlt => ?_
  rw [decide_eq_true_eq] at hlt ⊢
  exact Int64.not_le.mp fun hle => Nat.not_le.mpr hlt (hmono u hu hle)

/-- What lies below `v` is in these buckets or in that of `v`, unless a smaller integer has a later bucket. -/
theorem countP_lt_le_bucket (hmono : ∀ u ∈ values, u ≤ v → bucket u ≤ bucket v) :
    (values.countP fun u => u < v) ≤
      (values.countP fun u => bucket u < bucket v) + values.countP fun u => bucket u = bucket v := by
  rw [← countP_lt_add_one]
  refine List.countP_mono_left fun u hu hlt => ?_
  rw [decide_eq_true_eq] at hlt ⊢
  exact Nat.lt_succ_of_le (hmono u hu (Int64.le_of_lt hlt))

end Order

end Rollup.Histogram
