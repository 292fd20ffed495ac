import Rollup.Schema

/-!
# Column types

Columnar batches know more types than values do. `ColumnType.int64` and `ColumnType.utf8` hold integers and texts
(`ValueType.column`); every other type is a `ForeignType`. Of such a type only two things matter: its name in messages,
and whether its columns mark their nulls (`ForeignType.marksNulls`). The types are too many to list, so those that are
not are given by these two things.
-/

namespace Rollup

/-- A column type whose cells are no values of this library. -/
inductive ForeignType where
  | null
  | boolean
  | int8
  | int16
  | int32
  | uint8
  | uint16
  | uint32
  | uint64
  | float16
  | float32
  | float64
  | date32
  | date64
  | time32Seconds
  | binary
  | largeBinary
  | largeUtf8
  | utf8View
  | fixedSizeBinary (width : Nat)
  /-- Any other type, such as one of timestamps, decimals, lists, structures, dictionaries or unions. -/
  | other (name : String) (marksNulls : Bool)
  deriving DecidableEq, Repr

/-- The name of a foreign type in messages. -/
def ForeignType.name : ForeignType → String
  | null => "Null"
  | boolean => "Boolean"
  | int8 => "Int8"
  | int16 => "Int16"
  | int32 => "Int32"
  | uint8 => "UInt8"
  | uint16 => "UInt16"
  | uint32 => "UInt32"
  | uint64 => "UInt64"
  | float16 => "Float16"
  | float32 => "Float32"
  | float64 => "Float64"
  | date32 => "Date32"
  | date64 => "Date64"
  | time32Seconds => "Time32(Second)"
  | binary => "Binary"
  | largeBinary => "LargeBinary"
  | largeUtf8 => "LargeUtf8"
  | utf8View => "Utf8View"
  | fixedSizeBinary width => s!"FixedSizeBinary({width})"
  | other name _ => name

/-- Whether columns of a type mark which of their cells are null. A column of nulls marks none, for it needs no marks; nor
do unions and runs of equal cells, whose nulls are those of the columns inside them. -/
def ForeignType.marksNulls : ForeignType → Bool
  | null => false
  | other _ marksNulls => marksNulls
  | _ => true

/-- The type of a column. -/
inductive ColumnType where
  | int64
  | utf8
  | foreign (type : ForeignType)
  deriving DecidableEq, Repr

/-- The name of a column type. -/
def ColumnType.name : ColumnType → String
  | int64 => "Int64"
  | utf8 => "Utf8"
  | foreign type => type.name

/-- The column type that holds values of a type. -/
def ValueType.column : ValueType → ColumnType
  | int => .int64
  | text => .utf8

end Rollup
