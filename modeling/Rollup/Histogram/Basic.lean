import Rollup.Binary64.Arithmetic
import Rollup.Exact
import Rollup.Reply

/-!
# Histograms

A `Histogram` counts the integers of a range in buckets of one width. `Histogram.add` counts an integer or refuses it;
`Histogram.addAll` counts integers up to the first one that is refused.

Which bucket an integer falls into is worked out in binary64 numbers (`quotient`), and the last bucket takes all that
would come after it (`bucketOf`); so the bucket exists whatever the quotient is.
-/

namespace Rollup

/-- Counts of the integers from `lower` to `upper`, by bucket. Counts are natural numbers and cannot overflow; counters
of 64 bits hold the same numbers as long as fewer than `2 ^ 64` integers have been counted. -/
structure Histogram where
  lower : Int64
  upper : Int64
  counts : Array Nat
  /-- The number of integers counted. -/
  observations : Nat
  /-- The width of a bucket. It is below one if there are more buckets than integers. -/
  width : Binary64
  counts_pos : 0 < counts.size
  lower_le_upper : lower ≤ upper
  width_eq : width = .ofInt (upper.toInt - lower.toInt + 1) / .ofNat counts.size

namespace Histogram

/-- The number of buckets for those who know no better one. -/
def defaultBuckets : Nat :=
  100

/-- An empty histogram. The number of buckets is checked first. -/
def ofBounds (buckets : Nat) (lower upper : Int64) : Except Error Histogram :=
  if hb : buckets = 0 then
    .error (.configuration .noBuckets)
  else if hl : upper < lower then
    .error (.configuration (.reversedBounds lower upper))
  else
    .ok {
      lower
      upper
      counts := Array.replicate buckets 0
      observations := 0
      width := .ofInt (upper.toInt - lower.toInt + 1) / .ofNat buckets
      counts_pos := by rw [Array.size_replicate]; omega
      lower_le_upper := Int64.not_lt.mp hl
      width_eq := by rw [Array.size_replicate] }

/-- The number of integers in the range. -/
def span (h : Histogram) : Int :=
  h.upper.toInt - h.lower.toInt + 1

/-- How many widths an integer lies above the lower bound. -/
def quotient (h : Histogram) (v : Int64) : Binary64 :=
  .ofInt (v.toInt - h.lower.toInt) / h.width

/-- The bucket of an integer in the range. -/
def bucketOf (h : Histogram) (v : Int64) : Fin h.counts.size :=
  ⟨min (h.quotient v).floor.toUnsigned (h.counts.size - 1), by have := h.counts_pos; omega⟩

/-- Whether an integer lies in the range. -/
def Covers (h : Histogram) (v : Int64) : Prop :=
  h.lower ≤ v ∧ v ≤ h.upper

instance (h : Histogram) (v : Int64) : Decidable (h.Covers v) :=
  inferInstanceAs (Decidable (_ ∧ _))

/-- The histogram with one more integer in a bucket. -/
def count (h : Histogram) (bucket : Nat) : Histogram :=
  { h with
    counts := h.counts.modify bucket (· + 1)
    observations := h.observations + 1
    counts_pos := by rw [Array.size_modify]; exact h.counts_pos
    width_eq := by rw [Array.size_modify]; exact h.width_eq }

/-- The histogram with one more integer in a bucket, and no more observations. -/
def enter (h : Histogram) (bucket : Nat) : Histogram :=
  { h with
    counts := h.counts.modify bucket (· + 1)
    counts_pos := by rw [Array.size_modify]; exact h.counts_pos
    width_eq := by rw [Array.size_modify]; exact h.width_eq }

/-- The histogram with one more observation, and no more in any bucket. -/
def observe (h : Histogram) : Histogram :=
  { h with observations := h.observations + 1 }

/-- Count an integer, which must lie in the range. -/
@[inline] def add (h : Histogram) (v : Int64) : Except Error Histogram :=
  if h.Covers v then .ok (h.count (h.bucketOf v)) else .error (.outOfRange v h.lower h.upper)

/-- Count integers up to the first one that is refused. -/
def addAll (h : Histogram) (values : List Int64) : Reply Histogram Unit :=
  absorb add h values

/-- A histogram as it is shown. -/
def display (h : Histogram) : String :=
  s!"SelectivityHistogram(buckets={h.counts.size}, min={h.lower}, max={h.upper}, observations={h.observations})"

/-! ## What counting changes -/

theorem observe_enter (h : Histogram) (bucket : Nat) : (h.enter bucket).observe = h.count bucket := rfl

@[simp] theorem lower_count (h : Histogram) (bucket : Nat) : (h.count bucket).lower = h.lower := rfl

@[simp] theorem upper_count (h : Histogram) (bucket : Nat) : (h.count bucket).upper = h.upper := rfl

@[simp] theorem observations_count (h : Histogram) (bucket : Nat) :
    (h.count bucket).observations = h.observations + 1 := rfl

@[simp] theorem size_counts_count (h : Histogram) (bucket : Nat) : (h.count bucket).counts.size = h.counts.size :=
  Array.size_modify

@[simp] theorem span_count (h : Histogram) (bucket : Nat) : (h.count bucket).span = h.span := rfl

@[simp] theorem width_count (h : Histogram) (bucket : Nat) : (h.count bucket).width = h.width := rfl

/-- An integer is counted in its bucket exactly if it lies in the range. -/
theorem add_eq_ok_iff {h h' : Histogram} {v : Int64} :
    h.add v = .ok h' ↔ h.Covers v ∧ h' = h.count (h.bucketOf v) := by
  unfold add
  split <;> simp_all [eq_comm]

end Histogram

end Rollup
