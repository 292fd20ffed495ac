import Rollup.Aggregate.Basic
import Rollup.Batch.ColumnType

/-!
# Errors

An `Error` says what went wrong; `Error.message` is its wording. The kinds of error that have several causes hold a
fault type of their own, whose last constructor takes a free text for faults found by callers.
-/

namespace Rollup

/-- What the columnar layer reports. -/
inductive ColumnarFault where
  | invalidArgument (text : String)
  | compute (text : String)
  | schema (text : String)
  deriving DecidableEq, Repr

/-- Why an aggregator or a histogram cannot be built. -/
inductive ConfigurationFault where
  /-- The aggregate cannot be taken over fields of this type. -/
  | unsupportedField (aggregate : Aggregate) (type : ValueType)
  /-- A partial average finds its counts in the field that it sums. -/
  | countInAggregateField (index : Nat)
  /-- A partial average finds its counts in the field that it groups by. -/
  | countInGroupField (index : Nat)
  /-- The input has no field at this position. -/
  | missingField (index : Nat) (input : Schema)
  | noBuckets
  | reversedBounds (lower upper : Int64)
  | other (text : String)
  deriving DecidableEq, Repr

/-- A call that the state of the called object does not allow. -/
inductive ProtocolFault where
  | alreadyOpen
  | closed (call : String)
  /-- The build phase cannot end while another producer is there. -/
  | producersAlive
  | other (text : String)
  deriving DecidableEq, Repr

/-- A quantity that has left the range of 64-bit integers. -/
inductive Quantity where
  | sum
  | count
  | partialSum
  | partialCount
  | averageSum
  | averageCount
  | average
  | partialAverage
  | other (text : String)
  deriving DecidableEq, Repr

/-- Malformed input. -/
inductive ArgumentFault where
  | fieldOutOfRange (index width : Nat)
  | overflow (quantity : Quantity)
  | zeroPartialCount
  | unknownComparison (name : String)
  | unknownAggregate (name : String)
  | unsupportedColumn (type : ForeignType)
  | nullInColumn (index : Nat)
  | other (text : String)
  deriving DecidableEq, Repr

/-- A state that no correct use reaches. -/
inductive InternalFault where
  | cannotSeed (aggregate : Aggregate) (observation : Observation)
  | cannotAbsorb (accumulator : Accumulator) (observation : Observation)
  /-- A partial average has no column to read its counts from. -/
  | noCountField
  /-- The slot of a key points past the groups. -/
  | danglingSlot (slot : Nat)
  /-- A producer panicked while it held the lock. -/
  | poisoned
  | other (text : String)
  deriving DecidableEq, Repr

/-- The places that call for a value of a known type. -/
inductive Place where
  | batchColumn
  | groupKey
  | aggregateField
  | partialCountField
  deriving DecidableEq, Repr

/-- The name of a place in messages. -/
def Place.name : Place → String
  | batchColumn => "record batch column"
  | groupKey => "group key"
  | aggregateField => "aggregate field"
  | partialCountField => "partial count field"

/-- A value has another type than its place calls for. -/
inductive TypeFault where
  | value (place : Place) (expected got : ValueType)
  | other (place expected got : String)
  deriving DecidableEq, Repr

/-- Everything that can go wrong. -/
inductive Error where
  /-- A row source could not be read. -/
  | io (text : String)
  | columnar (fault : ColumnarFault)
  | configuration (fault : ConfigurationFault)
  | typeMismatch (fault : TypeFault)
  /-- A value lies outside a histogram. -/
  | outOfRange (value lower upper : Int64)
  | protocol (fault : ProtocolFault)
  /-- A source was asked for a row after its last one. -/
  | exhausted
  | argument (fault : ArgumentFault)
  | internal (fault : InternalFault)
  deriving DecidableEq, Repr

namespace Error

/-- A value of type `got` stands where one of type `expected` is called for. -/
def mismatch (place : Place) (expected got : ValueType) : Error :=
  typeMismatch (.value place expected got)

/-- A quantity has left the range of 64-bit integers. -/
def overflow (quantity : Quantity) : Error :=
  argument (.overflow quantity)

end Error

/-! ## Wording -/

/-- The wording of a columnar fault. -/
def ColumnarFault.message : ColumnarFault → String
  | invalidArgument text => "Invalid argument error: " ++ text
  | compute text => "Compute error: " ++ text
  | schema text => "Schema error: " ++ text

/-- The wording of a configuration fault. -/
def ConfigurationFault.message : ConfigurationFault → String
  | unsupportedField aggregate type => s!"{aggregate.name} is not supported over {type.name} fields; only count is"
  | countInAggregateField index =>
    s!"partial_avg reads its partial count from field {index}, which is also the aggregate field"
  | countInGroupField index =>
    s!"partial_avg reads its partial count from field {index}, which is also the group field"
  | missingField index input => s!"field {index} does not exist in input schema {input.display}"
  | noBuckets => "histogram needs at least one bucket"
  | reversedBounds lower upper => s!"histogram lower bound {lower} exceeds upper bound {upper}"
  | other text => text

/-- The wording of a type fault. -/
def TypeFault.message : TypeFault → String
  | value place expected got => s!"{place.name}: expected {expected.name}, got {got.name}"
  | other place expected got => s!"{place}: expected {expected}, got {got}"

/-- The wording of a protocol fault. -/
def ProtocolFault.message : ProtocolFault → String
  | alreadyOpen => "open() called on an already open sequence"
  | closed call => call ++ "() called on a closed sequence"
  | producersAlive => "cannot end the build phase while other producer handles are alive"
  | other text => text

/-- The name of a quantity in messages. -/
def Quantity.name : Quantity → String
  | sum => "SUM aggregate result"
  | count => "COUNT result"
  | partialSum => "PARTIAL_AVG running sum"
  | partialCount => "PARTIAL_AVG running count"
  | averageSum => "AVG aggregate sum"
  | averageCount => "AVG aggregate count"
  | average => "AVG aggregate result"
  | partialAverage => "PARTIAL_AVG aggregate result"
  | other text => text

/-- The wording of an argument fault. -/
def ArgumentFault.message : ArgumentFault → String
  | fieldOutOfRange index width => s!"field index {index} out of range for row of width {width}"
  | overflow quantity => quantity.name ++ " exceeds i64 range"
  | zeroPartialCount => "PARTIAL_AVG group has a total partial count of zero"
  | unknownComparison name => "unknown comparison operator '" ++ name ++ "'"
  | unknownAggregate name => "unknown aggregate operator '" ++ name ++ "'"
  | unsupportedColumn type => "unsupported Arrow column type " ++ type.name
  | nullInColumn index => s!"column {index} contains NULLs, which tally values cannot represent"
  | other text => text

/-- The wording of an internal fault. -/
def InternalFault.message : InternalFault → String
  | cannotSeed aggregate observation => s!"{aggregate.name} aggregate cannot be seeded from {observation.display}"
  | cannotAbsorb accumulator observation => s!"accumulator {accumulator.display} cannot absorb {observation.display}"
  | noCountField => "partial_avg aggregator without a count field"
  | danglingSlot slot => s!"group slot {slot} is out of range"
  | poisoned => "aggregator mutex poisoned by a panicking producer"
  | other text => text

/-- The wording of an error. -/
def Error.message : Error → String
  | io text => "I/O error: " ++ text
  | columnar fault => "Arrow error: " ++ fault.message
  | configuration fault => "invalid configuration: " ++ fault.message
  | typeMismatch fault => "type mismatch in " ++ fault.message
  | outOfRange value lower upper => s!"value {value} is outside the histogram range [{lower}, {upper}]"
  | protocol fault => "sequence protocol violation: " ++ fault.message
  | exhausted => "result sequence is exhausted"
  | argument fault => "Invalid argument: " ++ fault.message
  | internal fault => "An internal operation failed: " ++ fault.message

/-- The wording of what lies behind an error, for the errors that pass on one of another layer. -/
def Error.source? : Error → Option String
  | io text => some text
  | columnar fault => some fault.message
  | _ => none

end Rollup
