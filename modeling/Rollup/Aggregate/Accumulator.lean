import Rollup.Error
import Rollup.Exact
import Rollup.Outcome

/-!
# Accumulators at work

`Accumulator.seed` starts a group from its first observation, `Accumulator.update` adds one more, and
`Accumulator.finalize` reads the result off. Sums and counts that are kept while rows arrive overflow in `update`, and
then the accumulator stays what it was; the averages over raw numbers are added up in `finalize` alone.
-/

namespace Rollup

/-- A number that fits, or the error that the quantity does not. -/
def fits (quantity : Quantity) : Option Int64 → Except Error Int64
  | some n => .ok n
  | none => .error (.overflow quantity)

theorem fits_eq_ok_iff {quantity : Quantity} {o : Option Int64} {n : Int64} :
    fits quantity o = .ok n ↔ o = some n := by
  cases o <;> simp [fits]

theorem fits_eq_error_iff {quantity : Quantity} {o : Option Int64} {e : Error} :
    fits quantity o = .error e ↔ o = none ∧ e = .overflow quantity := by
  cases o <;> simp [fits, eq_comm]

namespace Accumulator

/-- The accumulator of a group after its first observation. -/
def seed : Aggregate → Observation → Except Error Accumulator
  | .min, .number n => .ok (.min n)
  | .max, .number n => .ok (.max n)
  | .sum, .number n => .ok (.sum n)
  | .count, .row => .ok (.count 1)
  | .average, .number n => .ok (.average #[n])
  | .partialAverage, .subtotal s c => .ok (.partialAverage s c)
  | .sumAndCount, .number n => .ok (.sumAndCount #[n])
  | f, observation => .error (.internal (.cannotSeed f observation))

/-- The accumulator after one more observation. Of the two totals of a partial average the sum is checked first. -/
def update : Accumulator → Observation → Except Error Accumulator
  | .min least, .number n => .ok (.min (Min.min least n))
  | .max greatest, .number n => .ok (.max (Max.max greatest n))
  | .sum total, .number n => do
    return .sum (← fits .sum (Exact.add? total n))
  | .count rows, .row => do
    return .count (← fits .count (Exact.add? rows 1))
  | .average values, .number n => .ok (.average (values.push n))
  | .sumAndCount values, .number n => .ok (.sumAndCount (values.push n))
  | .partialAverage total rows, .subtotal s c => do
    let total ← fits .partialSum (Exact.add? total s)
    let rows ← fits .partialCount (Exact.add? rows c)
    return .partialAverage total rows
  | accumulator, observation => .error (.internal (.cannotAbsorb accumulator observation))

/-! ## Reading results -/

/-- The sum of numbers, added from zero and from the left; every intermediate sum has to fit. -/
def total (values : List Int64) : Except Error Int64 :=
  values.foldlM (fun s n => fits .averageSum (Exact.add? s n)) 0

/-- The sum and the count of numbers. -/
def totals (values : Array Int64) : Except Error (Int64 × Int64) := do
  let s ← total values.toList
  let c ← fits .averageCount (Exact.ofInt? values.size)
  return (s, c)

/-- The result of a group. Averages are truncated toward zero. -/
def finalize : Accumulator → Except Error Summary
  | .min n | .max n | .sum n | .count n => .ok (.single n)
  | .average values => do
    let (s, c) ← totals values
    return .single (← fits .average (Exact.div? s c))
  | .partialAverage s c => do
    if c = 0 then throw (.argument .zeroPartialCount)
    return .single (← fits .partialAverage (Exact.div? s c))
  | .sumAndCount values => do
    let (s, c) ← totals values
    return .sumAndCount s c

/-! ## Which aggregate an accumulator belongs to -/

/-- A group starts with an accumulator of its aggregate function. -/
theorem aggregate_of_seed {f : Aggregate} {o : Observation} {a : Accumulator} (h : seed f o = .ok a) :
    a.aggregate = f := by
  cases f <;> cases o <;> cases h <;> rfl

/-- An observation does not change which aggregate function an accumulator belongs to. -/
theorem aggregate_of_update {a a' : Accumulator} {o : Observation} (h : a.update o = .ok a') :
    a'.aggregate = a.aggregate := by
  cases a <;> cases o <;> simp only [update, Outcome.bind_eq_ok_iff, reduceCtorEq] at h
  case sum.number | count.row =>
    obtain ⟨n, -, h⟩ := h
    cases h
    rfl
  case partialAverage.subtotal =>
    obtain ⟨n, -, m, -, h⟩ := h
    cases h
    rfl
  all_goals
    cases h
    rfl

end Accumulator

/-- The values of a summary, in column order. -/
def Summary.values : Summary → List Value
  | single n => [.int n]
  | sumAndCount s c => [.int s, .int c]

end Rollup
