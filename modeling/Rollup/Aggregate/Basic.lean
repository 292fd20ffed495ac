import Rollup.Value

/-!
# Aggregate functions and their data

An `Aggregate` names what is computed per group. A row contributes an `Observation` to its group, an `Accumulator`
holds what the group has seen so far, and a `Summary` is what is read off an accumulator. The averages that are taken
over raw numbers keep all of them until they are read.
-/

namespace Rollup

/-- An aggregate function. -/
inductive Aggregate where
  | min
  | max
  | sum
  | count
  /-- The mean of numbers, truncated toward zero. -/
  | average
  /-- The mean of numbers that arrive as subtotals. -/
  | partialAverage
  /-- The sum and the count of numbers, as two columns. -/
  | sumAndCount
  deriving DecidableEq, Repr

namespace Aggregate

/-- All aggregate functions, in the order in which they are listed to users. -/
def all : List Aggregate :=
  [min, max, sum, count, average, partialAverage, sumAndCount]

/-- The name of an aggregate function. -/
def name : Aggregate → String
  | min => "min"
  | max => "max"
  | sum => "sum"
  | count => "count"
  | average => "avg"
  | partialAverage => "partial_avg"
  | sumAndCount => "sum_count"

/-- The number of columns that an aggregate fills in a result row, the group column left out. -/
def outputWidth : Aggregate → Nat
  | sumAndCount => 2
  | _ => 1

/-- Whether an aggregate can be taken over a field of the given type: texts can only be counted. -/
def supports (f : Aggregate) : ValueType → Bool
  | .int => true
  | .text => f == count

/-- The aggregate function with the given name, in lower case. A partial average has two names. -/
def ofName? : String → Option Aggregate
  | "min" => some min
  | "max" => some max
  | "sum" => some sum
  | "count" => some count
  | "avg" => some average
  | "partial_avg" | "sc_avg" => some partialAverage
  | "sum_count" => some sumAndCount
  | _ => none

/-- The name of an aggregate function reads as that function. -/
theorem ofName?_name (f : Aggregate) : ofName? f.name = some f := by
  cases f <;> rfl

/-- Counting is all that can be done with texts. -/
theorem supports_text_iff {f : Aggregate} : f.supports .text ↔ f = count := by
  simp [supports]

end Aggregate

/-- What one row contributes to its group. -/
inductive Observation where
  /-- The row is there; nothing in it matters. -/
  | row
  /-- A number. -/
  | number (n : Int64)
  /-- The sum and the count of numbers that were aggregated before. -/
  | subtotal (sum count : Int64)
  deriving DecidableEq, Repr

/-- A sum and a count as messages show them. -/
def displaySubtotal (sum count : Int64) : String :=
  "\x7b sum: " ++ toString sum ++ ", count: " ++ toString count ++ " \x7d"

/-- An observation as messages show it. -/
def Observation.display : Observation → String
  | row => "Row"
  | number n => s!"Int({n})"
  | subtotal sum count => "Partial " ++ displaySubtotal sum count

/-- What a group has seen so far. Every constructor belongs to one aggregate function. -/
inductive Accumulator where
  | min (least : Int64)
  | max (greatest : Int64)
  | sum (total : Int64)
  | count (rows : Int64)
  | average (values : Array Int64)
  | partialAverage (sum count : Int64)
  | sumAndCount (values : Array Int64)
  deriving DecidableEq, Repr

/-- The aggregate function that an accumulator belongs to. -/
def Accumulator.aggregate : Accumulator → Aggregate
  | min _ => .min
  | max _ => .max
  | sum _ => .sum
  | count _ => .count
  | average _ => .average
  | partialAverage _ _ => .partialAverage
  | sumAndCount _ => .sumAndCount

/-- Numbers as messages show them: `[1, 2]`. -/
def displayNumbers (values : Array Int64) : String :=
  "[" ++ ", ".intercalate (values.toList.map fun n => toString n) ++ "]"

/-- An accumulator as messages show it. -/
def Accumulator.display : Accumulator → String
  | min n => s!"Min({n})"
  | max n => s!"Max({n})"
  | sum n => s!"Sum({n})"
  | count n => s!"Count({n})"
  | average values => "Avg(" ++ displayNumbers values ++ ")"
  | partialAverage total rows => "PartialAvg " ++ displaySubtotal total rows
  | sumAndCount values => "SumAndCount(" ++ displayNumbers values ++ ")"

/-- What is read off an accumulator. -/
inductive Summary where
  | single (value : Int64)
  | sumAndCount (sum count : Int64)
  deriving DecidableEq, Repr

end Rollup
