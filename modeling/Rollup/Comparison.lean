import Rollup.Error

/-!
# Comparisons

The six comparisons that selectivity is asked for, with their symbols. Equality and inequality have a second spelling;
`Comparison.parse` reads both.
-/

namespace Rollup

/-- A comparison of a column with a constant. -/
inductive Comparison where
  | equal
  | notEqual
  | less
  | lessOrEqual
  | greater
  | greaterOrEqual
  deriving DecidableEq, Repr

namespace Comparison

/-- All comparisons, in the order in which they are listed to users. -/
def all : List Comparison :=
  [equal, notEqual, less, lessOrEqual, greater, greaterOrEqual]

/-- The symbol of a comparison. -/
def symbol : Comparison → String
  | equal => "="
  | notEqual => "!="
  | less => "<"
  | lessOrEqual => "<="
  | greater => ">"
  | greaterOrEqual => ">="

/-- The comparison that a symbol stands for. -/
def ofSymbol? : String → Option Comparison
  | "=" | "==" => some equal
  | "!=" | "<>" => some notEqual
  | "<" => some less
  | "<=" => some lessOrEqual
  | ">" => some greater
  | ">=" => some greaterOrEqual
  | _ => none

/-- Read the symbol of a comparison. -/
def parse (s : String) : Except Error Comparison :=
  match ofSymbol? s with
  | some c => .ok c
  | none => .error (.argument (.unknownComparison s))

/-- The symbol of a comparison stands for that comparison. -/
theorem ofSymbol?_symbol (c : Comparison) : ofSymbol? c.symbol = some c := by
  cases c <;> rfl

/-- The symbol of a comparison reads as that comparison. -/
theorem parse_symbol (c : Comparison) : parse c.symbol = .ok c := by
  simp [parse, ofSymbol?_symbol]

end Comparison

end Rollup
