import Rollup.Batch.ColumnType
import Rollup.Error

/-!
# Batches

A `Batch` holds a number of rows as typed columns of cells; a cell may be null. A column of a foreign type is known by
its type and by which of its cells are null. The number of rows is kept apart, for a batch without columns has rows
too; `Batch.WellFormed` says that every column has that many cells.

Batches from elsewhere may carry `Metadata`, the batch as a whole and each of its columns. Nothing here reads any, and
what is built here has none: a flag for nulls alone stands for the marks of a column without metadata, and a number of
rows for the header of a batch without metadata.
-/

namespace Rollup

/-- The cells of a column. -/
inductive Cells where
  | int64 (cells : List (Option Int64))
  | utf8 (cells : List (Option String))
  /-- Cells of a foreign type; a cell is `false` where it is null. -/
  | foreign (type : ForeignType) (cells : List Bool)
  deriving DecidableEq, Repr

namespace Cells

/-- The type of the cells. -/
def type : Cells → ColumnType
  | int64 _ => .int64
  | utf8 _ => .utf8
  | foreign type _ => .foreign type

/-- The number of cells. -/
def length : Cells → Nat
  | int64 cells => cells.length
  | utf8 cells => cells.length
  | foreign _ cells => cells.length

/-- The number of cells that are marked as null. -/
def nullCount : Cells → Nat
  | int64 cells => cells.countP Option.isNone
  | utf8 cells => cells.countP Option.isNone
  | foreign type cells => if type.marksNulls then cells.countP (!·) else 0

/-- `length` cells from the cell at `offset` on. -/
def slice (offset length : Nat) : Cells → Cells
  | int64 cells => int64 ((cells.drop offset).take length)
  | utf8 cells => utf8 ((cells.drop offset).take length)
  | foreign type cells => foreign type ((cells.drop offset).take length)

end Cells

/-- Texts under names, attached to a batch or to a column. -/
abbrev Metadata :=
  List (String × String)

/-- What is known of a column apart from its name and its cells. -/
structure ColumnMarks where
  /-- Whether the column may hold nulls. -/
  nullable : Bool
  metadata : Metadata
  deriving DecidableEq, Repr

/-- The marks of a column without metadata. -/
instance : Coe Bool ColumnMarks :=
  ⟨fun nullable => ⟨nullable, []⟩⟩

/-- What is known of a column apart from its cells. -/
structure ColumnField where
  name : String
  type : ColumnType
  marks : ColumnMarks
  deriving DecidableEq, Repr

/-- Whether the column may hold nulls. -/
def ColumnField.nullable (f : ColumnField) : Bool :=
  f.marks.nullable

/-- A named column. -/
structure Column where
  name : String
  marks : ColumnMarks
  cells : Cells
  deriving DecidableEq, Repr

/-- A column without its cells. -/
def Column.field (c : Column) : ColumnField :=
  ⟨c.name, c.cells.type, c.marks⟩

/-- What is known of a batch apart from its columns. -/
structure BatchHeader where
  rowCount : Nat
  metadata : Metadata
  deriving DecidableEq, Repr

/-- The header of a batch without metadata. -/
instance : Coe Nat BatchHeader :=
  ⟨fun rowCount => ⟨rowCount, []⟩⟩

/-- Rows as columns. -/
structure Batch where
  columns : List Column
  header : BatchHeader
  deriving DecidableEq, Repr

namespace Batch

/-- The number of rows. -/
def rowCount (b : Batch) : Nat :=
  b.header.rowCount

/-- Every column has a cell for every row. -/
def WellFormed (b : Batch) : Prop :=
  ∀ c ∈ b.columns, c.cells.length = b.rowCount

/-- The columns without their cells. -/
def fields (b : Batch) : List ColumnField :=
  b.columns.map Column.field

/-- `length` rows from the row at `offset` on, with the same metadata. -/
def slice (b : Batch) (offset length : Nat) : Batch where
  columns := b.columns.map fun c => { c with cells := c.cells.slice offset length }
  header := { b.header with rowCount := min length (b.rowCount - offset) }

@[simp] theorem rowCount_slice (b : Batch) (offset length : Nat) :
    (b.slice offset length).rowCount = min length (b.rowCount - offset) := rfl

/-- A slice of a well-formed batch is well-formed. -/
theorem WellFormed.slice {b : Batch} (h : b.WellFormed) (offset length : Nat) : (b.slice offset length).WellFormed := by
  intro c hc
  obtain ⟨c', hc', rfl⟩ := List.mem_map.mp hc
  rw [rowCount_slice, ← h c' hc']
  cases c'.cells <;> simp [Cells.slice, Cells.length]

end Batch

/-! ## Schemas of batches -/

/-- The type of the values in a column, which must hold integers or texts. -/
def ValueType.ofColumn : ColumnType → Except Error ValueType
  | .int64 => .ok .int
  | .utf8 => .ok .text
  | .foreign type => .error (.argument (.unsupportedColumn type))

/-- The columns that hold the fields of a schema; none of them may hold nulls or has metadata. -/
def Schema.columnFields (s : Schema) : List ColumnField :=
  s.fields.map fun f => ⟨f.name, f.type.column, false⟩

/-- The schema of the rows in columns, whatever their marks. The first column of a foreign type is an error. -/
def Schema.ofColumnFields (columns : List ColumnField) : Except Error Schema := do
  return ⟨← columns.mapM fun c => return ⟨c.name, ← ValueType.ofColumn c.type⟩⟩

/-- A type comes back from its column type. -/
theorem ValueType.ofColumn_column (t : ValueType) : ofColumn t.column = .ok t := by
  cases t <;> rfl

/-- A schema comes back from its columns. -/
theorem Schema.ofColumnFields_columnFields (s : Schema) : ofColumnFields s.columnFields = .ok s := by
  obtain ⟨fields⟩ := s
  simp only [ofColumnFields, columnFields]
  have h : (fields.map fun f => (⟨f.name, f.type.column, false⟩ : ColumnField)).mapM
      (fun c => do return (⟨c.name, ← ValueType.ofColumn c.type⟩ : Field)) = .ok fields := by
    induction fields with
    | nil => rfl
    | cons f fs ih => rw [List.map_cons, List.mapM_cons, ih, ValueType.ofColumn_column]; rfl
  rw [h]
  rfl

end Rollup
