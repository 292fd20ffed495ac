import Rollup.Batch.Basic
import Rollup.Row

/-!
# Packing rows into batches

`Batch.pack` fills one column after another, each from the first row to the last; so the first cell that cannot be
filled is the first one in column order. Values past the schema are left out, and there is no metadata. `Batch.unpack`
looks at one column after another, too, and reports nulls before a foreign type; then it lays the columns side by side
(`Batch.transpose`).
-/

namespace Rollup.Batch

/-- The column of a field: one value of every row. -/
def packColumn (rows : List Row) (index : Nat) (field : Field) : Except Error Column :=
  match field.type with
  | .int => do
    let cells ← rows.mapM fun row => row.getInt index .batchColumn
    return ⟨field.name, false, .int64 (cells.map some)⟩
  | .text => do
    let cells ← rows.mapM fun row => row.getText index .batchColumn
    return ⟨field.name, false, .utf8 (cells.map some)⟩

/-- Rows as the columns of a schema. -/
def pack (schema : Schema) (rows : List Row) : Except Error Batch := do
  let columns ← schema.fields.zipIdx.mapM fun (field, index) => packColumn rows index field
  return ⟨columns, rows.length⟩

/-- The values of a column without nulls. -/
def columnValues (index : Nat) (c : Column) : Except Error (List Value) :=
  if 0 < c.cells.nullCount then
    .error (.argument (.nullInColumn index))
  else
    match c.cells with
    | .int64 cells => .ok (cells.filterMap fun cell => cell.map .int)
    | .utf8 cells => .ok (cells.filterMap fun cell => cell.map .text)
    | .foreign type _ => .error (.argument (.unsupportedColumn type))

/-- Columns of `n` values side by side, as `n` rows. -/
def transpose (n : Nat) (columns : List (List Value)) : List (List Value) :=
  columns.foldr (List.zipWith List.cons) (List.replicate n [])

/-- The rows of a batch. -/
def unpack (b : Batch) : Except Error (List Row) := do
  let columns ← b.columns.zipIdx.mapM fun (column, index) => columnValues index column
  return (transpose b.rowCount columns).map Row.mk

@[simp] theorem transpose_nil (n : Nat) : transpose n [] = List.replicate n [] := rfl

@[simp] theorem transpose_cons (n : Nat) (column : List Value) (columns : List (List Value)) :
    transpose n (column :: columns) = List.zipWith List.cons column (transpose n columns) := rfl

/-- Columns of `n` values give `n` rows. -/
theorem length_transpose (n : Nat) (columns : List (List Value)) (h : ∀ column ∈ columns, column.length = n) :
    (transpose n columns).length = n := by
  induction columns with
  | nil => simp
  | cons column columns ih =>
    have hc := h column List.mem_cons_self
    have ih := ih fun c hm => h c (List.mem_cons_of_mem _ hm)
    rw [transpose_cons, List.length_zipWith, ih, hc, Nat.min_self]

/-- A packed column has one cell for every row. -/
theorem length_of_packColumn {rows : List Row} {index : Nat} {field : Field} {c : Column}
    (h : packColumn rows index field = .ok c) : c.cells.length = rows.length := by
  unfold packColumn at h
  split at h <;>
  · obtain ⟨cells, hcells, h⟩ := Outcome.bind_eq_ok_iff.mp h
    cases h
    simp [Cells.length, Outcome.length_of_mapM hcells]

/-- Packing gives a batch whose columns have a cell for every row. -/
theorem wellFormed_of_pack {schema : Schema} {rows : List Row} {b : Batch} (h : pack schema rows = .ok b) :
    b.WellFormed := by
  obtain ⟨columns, hcolumns, h⟩ := Outcome.bind_eq_ok_iff.mp h
  cases h
  intro c hc
  have hm := List.mem_map_of_mem (f := Except.ok (ε := Error)) hc
  rw [← Outcome.mapM_eq_ok_iff.mp hcolumns] at hm
  obtain ⟨⟨field, index⟩, -, hc⟩ := List.mem_map.mp hm
  exact length_of_packColumn hc

end Rollup.Batch
