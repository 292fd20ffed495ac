import Rollup.Row

/-!
# Configurations

A `Config` says what to compute: an optional field to group by, the aggregate function and the field that it is taken
over. `Config.validate` refuses the combinations that could never give a result. `Config.groupKey` and
`Config.observation` read a row under a configuration.

A partial average reads a count beside each sum, from the column in which a grouped or ungrouped aggregator of
`Aggregate.sumAndCount` writes it.

Users may write the name of an aggregate function in capitals (`Aggregate.parse`); only the letters of ASCII have two
cases here.
-/

namespace Rollup

/-- Read the name of an aggregate function, in either case. -/
def Aggregate.parse (s : String) : Except Error Aggregate :=
  match ofName? (s.map Char.toLower) with
  | some f => .ok f
  | none => .error (.argument (.unknownAggregate (s.map Char.toLower)))

/-- The field to group by, and its type. -/
structure GroupBy where
  index : Nat
  type : ValueType
  deriving DecidableEq, Repr

/-- The value that the rows of a group have in common; `none` is the one group of an ungrouped aggregator. -/
abbrev GroupKey := Option Value

/-- What to compute. -/
structure Config where
  groupBy : Option GroupBy
  field : Nat
  fieldType : ValueType
  aggregate : Aggregate
  deriving DecidableEq, Repr

namespace Config

/-- A configuration from an optional group field; the group type matters only if there is one. -/
def ofField (groupField : Option Nat) (groupType : ValueType) (field : Nat) (fieldType : ValueType)
    (aggregate : Aggregate) : Config :=
  ⟨groupField.map (⟨·, groupType⟩), field, fieldType, aggregate⟩

/-- The type of a field of the input. -/
def typeAt (input : Schema) (index : Nat) : Except Error ValueType :=
  match input.field? index with
  | some f => .ok f.type
  | none => .error (.configuration (.missingField index input))

/-- A configuration that takes its types from the schema of the input. -/
def ofSchema (input : Schema) (groupField : Option Nat) (field : Nat) (aggregate : Aggregate) :
    Except Error Config := do
  let groupBy ← groupField.mapM fun index => do
    return ⟨index, ← typeAt input index⟩
  return ⟨groupBy, field, ← typeAt input field, aggregate⟩

/-- The column of partial counts: it follows the group column, if any, and the column of sums. -/
def countColumn (c : Config) : Nat :=
  if c.groupBy.isSome then 2 else 1

/-- The column of partial counts of a configuration that reads them. -/
def partialCountIndex? (c : Config) : Option Nat :=
  if c.aggregate = .partialAverage then some c.countColumn else none

/-- Refuse a configuration that can never give a result. -/
def validate (c : Config) : Except Error Unit := do
  unless c.aggregate.supports c.fieldType do
    throw (.configuration (.unsupportedField c.aggregate c.fieldType))
  match c.partialCountIndex? with
  | none => return
  | some index =>
    if index = c.field then throw (.configuration (.countInAggregateField index))
    if c.groupBy.any (·.index == index) then throw (.configuration (.countInGroupField index))

/-- The schema of the result rows. -/
def outputSchema (c : Config) : Schema :=
  let group := c.groupBy.toList.map fun g => ⟨"groupVal", g.type⟩
  match c.aggregate with
  | .sumAndCount => ⟨group ++ [⟨"sumVal", .int⟩, ⟨"countVal", .int⟩]⟩
  | _ => ⟨group ++ [⟨"aggregateVal", .int⟩]⟩

/-! ## Reading rows -/

/-- The group of a row. -/
def groupKey (c : Config) (row : Row) : Except Error GroupKey :=
  match c.groupBy with
  | none => .ok none
  | some g => do return some (← row.getTyped g.index .groupKey g.type)

/-- The column of partial counts, for an aggregate that reads them. -/
def countField (c : Config) : Except Error Nat :=
  match c.partialCountIndex? with
  | some index => .ok index
  | none => .error (.internal .noCountField)

/-- What a row contributes to its group. -/
def observation (c : Config) (row : Row) : Except Error Observation :=
  match c.aggregate with
  | .count => do
    let _ ← row.getTyped c.field .aggregateField c.fieldType
    return .row
  | .partialAverage => do
    let index ← c.countField
    let sum ← row.getInt c.field .aggregateField
    let count ← row.getInt index .partialCountField
    return .subtotal sum count
  | .min | .max | .sum | .average | .sumAndCount => do
    return .number (← row.getInt c.field .aggregateField)

/-- A partial average finds its column of counts. -/
theorem countField_of_partialAverage {c : Config} (h : c.aggregate = .partialAverage) :
    c.countField = .ok c.countColumn := by
  simp [countField, partialCountIndex?, h]

end Config

end Rollup
