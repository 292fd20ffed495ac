import Rollup.Comparison
import Rollup.Histogram.Basic

/-!
# Selectivity estimates

`Histogram.estimate` and `Histogram.estimateRange` estimate which fraction of the integers counted stands in a
comparison with a constant or lies in a range. Both rest on `Histogram.lessThan`, which adds up whole buckets and
interpolates inside the one of the constant. Constants at or past a bound give zero or one.

`Histogram.averageSelectivity` is the fraction to expect for equality with a constant drawn from the integers counted.
Its formula is `meanShare`, which can be read in any arithmetic.
-/

namespace Rollup

/-- An end of a range. -/
inductive Bound where
  | included (v : Int64)
  | excluded (v : Int64)
  | unbounded
  deriving DecidableEq, Repr

/-- The mean over all counted items of the share of their bucket, spread over the `width` of the bucket; a bucket
narrower than one holds one item alone. -/
def meanShare {K : Type} [Zero K] [One K] [Add K] [Mul K] [Div K] [Max K] (counts : List K) (total width : K) : K :=
  counts.foldl (fun sum count =>
    let share := count / total
    sum + share * share) 0 / max width 1

namespace Histogram

/-! ## Below a constant -/

/-- The lower end of a bucket. -/
def bucketStart (h : Histogram) (i : Nat) : Binary64 :=
  .ofInt h.lower.toInt + .ofNat i * h.width

/-- The number of integers counted in the buckets before one. -/
def before (h : Histogram) (i : Nat) : Nat :=
  (h.counts.toList.take i).foldr (· + ·) 0

/-- The estimate for integers inside the range: all buckets before the one of `v`, and of that one the part below
`v`. -/
def interpolated (h : Histogram) (v : Int64) : Binary64 :=
  let i := h.bucketOf v
  let offset := (.ofInt v.toInt - h.bucketStart i) / h.width
  let part := .ofNat h.counts[i] * offset
  ((.ofNat (h.before i) + part) / .ofNat h.observations).clamp 0 1

/-- The fraction below `v`. The lower bound is looked at first. -/
def lessThan (h : Histogram) (v : Int64) : Binary64 :=
  if v ≤ h.lower then 0
  else if h.upper ≤ v then 1
  else if h.observations = 0 then 0
  else h.interpolated v

/-- The fraction up to `v`: the fraction below the next integer. -/
def atMost (h : Histogram) (v : Int64) : Binary64 :=
  h.lessThan (Exact.succClamped v)

/-- The fraction equal to `v`. -/
def equalTo (h : Histogram) (v : Int64) : Binary64 :=
  (h.atMost v - h.lessThan v).clamp 0 1

/-! ## Estimates -/

/-- The fraction that stands in a comparison with `v`. -/
def estimate (h : Histogram) (c : Comparison) (v : Int64) : Binary64 :=
  match c with
  | .less => h.lessThan v
  | .lessOrEqual => h.atMost v
  | .greater => 1 - h.atMost v
  | .greaterOrEqual => 1 - h.lessThan v
  | .equal => h.equalTo v
  | .notEqual => 1 - h.equalTo v

/-- The fraction that an upper end leaves below it. -/
def belowUpper (h : Histogram) : Bound → Binary64
  | .included v => h.atMost v
  | .excluded v => h.lessThan v
  | .unbounded => 1

/-- The fraction that a lower end cuts off. -/
def belowLower (h : Histogram) : Bound → Binary64
  | .included v => h.lessThan v
  | .excluded v => h.atMost v
  | .unbounded => 0

/-- The fraction inside a range. -/
def estimateRange (h : Histogram) (lower upper : Bound) : Binary64 :=
  (h.belowUpper upper - h.belowLower lower).clamp 0 1

/-- The fraction to expect for equality with an integer drawn from those counted. -/
def averageSelectivity (h : Histogram) : Binary64 :=
  if h.observations = 0 then 0
  else meanShare (h.counts.toList.map .ofNat) (.ofNat h.observations) h.width

/-! ## Constants at the bounds -/

/-- Nothing is estimated below a constant at the lower bound or under it. -/
theorem lessThan_of_le {h : Histogram} {v : Int64} (hv : v ≤ h.lower) : h.lessThan v = 0 :=
  if_pos hv

/-- All is estimated below a constant at the upper bound or over it. -/
theorem lessThan_of_ge {h : Histogram} {v : Int64} (hl : ¬v ≤ h.lower) (hv : h.upper ≤ v) : h.lessThan v = 1 :=
  (if_neg hl).trans (if_pos hv)

end Histogram

end Rollup
