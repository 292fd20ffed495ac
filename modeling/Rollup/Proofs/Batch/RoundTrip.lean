import Rollup.Batch.Pack

/-!
# Packing and unpacking rows

Rows whose first values have the types of a schema can be packed, and the batch unpacks to these values
(`unpack_pack`); so rows that conform to the schema come back as they are. The induction is on the fields: the column
of the first field is laid before the rows that the other columns give (`pack_columns`).

A batch can be unpacked exactly if no column of it has a null or a foreign type (`unpack_isOk_iff`).
-/

namespace Rollup

/-- The first values of a row have the types of a schema, one for every field. -/
def Row.Covers (row : Row) (schema : Schema) : Prop :=
  (row.values.take schema.width).map Value.type = schema.fields.map Field.type

theorem Row.Conforms.take_eq {row : Row} {schema : Schema} (h : row.Conforms schema) :
    row.values.take schema.width = row.values := by
  have hlen := congrArg List.length h
  rw [List.length_map, List.length_map] at hlen
  exact List.take_of_length_le (Nat.le_of_eq hlen)

theorem Row.Conforms.covers {row : Row} {schema : Schema} (h : row.Conforms schema) : row.Covers schema := by
  rw [Covers, h.take_eq]
  exact h

/-- A column that holds a null or has a foreign type. -/
def Column.Unreadable (c : Column) : Prop :=
  0 < c.cells.nullCount ∨ ∃ type, c.cells.type = .foreign type

namespace Batch

variable {rows : List Row} {index : Nat}

/-! ## One column -/

/-- Reading a field of every row gives the values at its position. -/
theorem mapM_field {β : Type} (read : Row → Except Error β) (toValue : β → Value)
    (h : ∀ row ∈ rows, ∃ y, read row = .ok y ∧ row.values[index]? = some (toValue y)) :
    ∃ ys, rows.mapM read = .ok ys ∧ ys.map toValue = rows.filterMap (·.values[index]?) := by
  induction rows with
  | nil => exact ⟨[], rfl, rfl⟩
  | cons row rows ih =>
    obtain ⟨y, hy, hv⟩ := h row List.mem_cons_self
    obtain ⟨ys, hys, hvs⟩ := ih fun row' hm => h row' (List.mem_cons_of_mem row hm)
    refine ⟨y :: ys, ?_, ?_⟩
    · rw [List.mapM_cons, hy, Outcome.ok_bind, hys]
      rfl
    · rw [List.map_cons, List.filterMap_cons, hv, hvs]

theorem columnValues_int64 (j : Nat) (name : String) (marks : ColumnMarks) (cells : List Int64) :
    columnValues j ⟨name, marks, .int64 (cells.map some)⟩ = .ok (cells.map .int) := by
  have hnulls : (Cells.int64 (cells.map some)).nullCount = 0 := by simp [Cells.nullCount]
  simp only [columnValues, hnulls, Nat.lt_irrefl, if_false, List.filterMap_map]
  exact congrArg (fun f => Except.ok (f cells)) List.filterMap_eq_map

theorem columnValues_utf8 (j : Nat) (name : String) (marks : ColumnMarks) (cells : List String) :
    columnValues j ⟨name, marks, .utf8 (cells.map some)⟩ = .ok (cells.map .text) := by
  have hnulls : (Cells.utf8 (cells.map some)).nullCount = 0 := by simp [Cells.nullCount]
  simp only [columnValues, hnulls, Nat.lt_irrefl, if_false, List.filterMap_map]
  exact congrArg (fun f => Except.ok (f cells)) List.filterMap_eq_map

/-- Values of the right type are packed into a column from which they can be taken again. -/
theorem packColumn_of_typed {field : Field} (h : ∀ row ∈ rows, row.values[index]?.map Value.type = some field.type) :
    ∃ column, packColumn rows index field = .ok column ∧
      ∀ j, columnValues j column = .ok (rows.filterMap (·.values[index]?)) := by
  unfold packColumn
  cases ht : field.type with
  | int =>
    obtain ⟨cells, hcells, hvalues⟩ := mapM_field (·.getInt index .batchColumn) .int fun row hm => by
        obtain ⟨v, hv, hvt⟩ := Option.map_eq_some_iff.mp (h row hm)
        obtain ⟨n, rfl⟩ := Value.type_eq_int_iff.mp (hvt.trans ht)
        exact ⟨n, Row.getInt_eq_ok_iff.mpr hv, hv⟩
    refine ⟨⟨field.name, false, .int64 (cells.map some)⟩, ?_, fun j => ?_⟩
    · dsimp only
      rw [hcells]
      rfl
    · rw [columnValues_int64, hvalues]
  | text =>
    obtain ⟨cells, hcells, hvalues⟩ := mapM_field (·.getText index .batchColumn) .text fun row hm => by
        obtain ⟨v, hv, hvt⟩ := Option.map_eq_some_iff.mp (h row hm)
        obtain ⟨s, rfl⟩ := Value.type_eq_text_iff.mp (hvt.trans ht)
        exact ⟨s, Row.getText_eq_ok_iff.mpr hv, hv⟩
    refine ⟨⟨field.name, false, .utf8 (cells.map some)⟩, ?_, fun j => ?_⟩
    · dsimp only
      rw [hcells]
      rfl
    · rw [columnValues_utf8, hvalues]

/-! ## All columns -/

/-- Values before the rows that the other columns give. -/
theorem zipWith_cons_column (k n : Nat) (h : ∀ row ∈ rows, k < row.values.length) :
    List.zipWith List.cons (rows.filterMap (·.values[k]?)) (rows.map fun row => (row.values.drop (k + 1)).take n) =
      rows.map fun row => (row.values.drop k).take (n + 1) := by
  induction rows with
  | nil => rfl
  | cons row rows ih =>
    have hk := h row List.mem_cons_self
    rw [List.filterMap_cons, List.getElem?_eq_getElem hk, List.map_cons, List.map_cons, List.zipWith_cons_cons,
      ih fun row' hm => h row' (List.mem_cons_of_mem row hm), List.drop_eq_getElem_cons hk, List.take_succ_cons]

/-- The columns of fields from a position on, and the rows that they give side by side. -/
theorem pack_columns (fields : List Field) (k : Nat)
    (h : ∀ row ∈ rows, ((row.values.drop k).take fields.length).map Value.type = fields.map Field.type) :
    ∃ columns values, (fields.zipIdx k).mapM (fun f => packColumn rows f.2 f.1) = .ok columns ∧
      (∀ j, (columns.zipIdx j).mapM (fun c => columnValues c.2 c.1) = .ok values) ∧
      transpose rows.length values = rows.map fun row => (row.values.drop k).take fields.length := by
  induction fields generalizing k with
  | nil =>
    refine ⟨[], [], rfl, fun _ => rfl, ?_⟩
    simp [List.map_const']
  | cons field fields ih =>
    have hlt : ∀ row ∈ rows, k < row.values.length := by
      intro row hm
      have hlen := congrArg List.length (h row hm)
      simp only [List.length_map, List.length_take, List.length_drop, List.length_cons] at hlen
      omega
    have hcons : ∀ row ∈ rows, row.values[k]?.map Value.type = some field.type ∧
        ((row.values.drop (k + 1)).take fields.length).map Value.type = fields.map Field.type := by
      intro row hm
      have hrow := h row hm
      rw [List.drop_eq_getElem_cons (hlt row hm), List.length_cons, List.take_succ_cons, List.map_cons, List.map_cons,
        List.cons.injEq] at hrow
      exact ⟨by rw [List.getElem?_eq_getElem (hlt row hm), Option.map_some, hrow.1], hrow.2⟩
    obtain ⟨column, hcolumn, hvalue⟩ := packColumn_of_typed fun row hm => (hcons row hm).1
    obtain ⟨columns, values, hcolumns, hvalues, htranspose⟩ := ih (k + 1) fun row hm => (hcons row hm).2
    refine ⟨column :: columns, rows.filterMap (·.values[k]?) :: values, ?_, fun j => ?_, ?_⟩
    · rw [List.zipIdx_cons, List.mapM_cons, hcolumn, Outcome.ok_bind, hcolumns]
      rfl
    · rw [List.zipIdx_cons, List.mapM_cons, hvalue, Outcome.ok_bind, hvalues]
      rfl
    · rw [transpose_cons, htranspose]
      exact zipWith_cons_column k fields.length hlt

/-- Rows whose first values have the types of a schema can be packed, and these values come back. -/
theorem unpack_pack {schema : Schema} (h : ∀ row ∈ rows, row.Covers schema) :
    ∃ batch, pack schema rows = .ok batch ∧
      batch.unpack = .ok (rows.map fun row => ⟨row.values.take schema.width⟩) := by
  obtain ⟨columns, values, hcolumns, hvalues, htranspose⟩ := pack_columns schema.fields 0 h
  refine ⟨⟨columns, rows.length⟩, ?_, ?_⟩
  · exact Outcome.bind_eq_ok_iff.mpr ⟨columns, hcolumns, rfl⟩
  · refine Outcome.bind_eq_ok_iff.mpr ⟨values, hvalues 0, ?_⟩
    show Except.ok ((transpose rows.length values).map Row.mk) = _
    rw [htranspose, List.map_map]
    rfl

/-- Rows that conform to a schema come back as they are. -/
theorem unpack_pack_of_conforms {schema : Schema} (h : ∀ row ∈ rows, row.Conforms schema) :
    ∃ batch, pack schema rows = .ok batch ∧ batch.unpack = .ok rows := by
  obtain ⟨batch, hpack, hunpack⟩ := unpack_pack fun row hm => (h row hm).covers
  refine ⟨batch, hpack, hunpack.trans (congrArg Except.ok ?_)⟩
  exact (List.map_congr_left fun row hm => congrArg Row.mk (h row hm).take_eq).trans (List.map_id rows)

/-! ## Batches that cannot be unpacked -/

theorem columnValues_isOk_iff {column : Column} :
    (∃ values, columnValues index column = .ok values) ↔ ¬column.Unreadable := by
  obtain ⟨name, marks, cells⟩ := column
  unfold columnValues Column.Unreadable
  by_cases hn : 0 < cells.nullCount
  · simp [hn]
  · cases cells <;> simp [hn, Cells.type]

/-- A batch can be unpacked unless one of its columns cannot be read. -/
theorem unpack_isOk_iff {batch : Batch} :
    (∃ rows, batch.unpack = .ok rows) ↔ ∀ column ∈ batch.columns, ¬column.Unreadable := by
  have hcolumns : (∃ rows, batch.unpack = .ok rows) ↔
      ∃ values, batch.columns.zipIdx.mapM (fun c => columnValues c.2 c.1) = .ok values := by
    constructor
    · rintro ⟨rows, h⟩
      obtain ⟨values, hvalues, -⟩ := Outcome.bind_eq_ok_iff.mp h
      exact ⟨values, hvalues⟩
    · rintro ⟨values, h⟩
      exact ⟨_, Outcome.bind_eq_ok_iff.mpr ⟨values, h, rfl⟩⟩
  rw [hcolumns, Outcome.exists_mapM_eq_ok_iff]
  simp only [columnValues_isOk_iff]
  constructor
  · intro h column hm
    obtain ⟨i, hi, rfl⟩ := List.getElem_of_mem hm
    exact h (batch.columns[i], i) (List.mem_zipIdx_iff_getElem?.mpr (List.getElem?_eq_getElem hi))
  · rintro h ⟨column, i⟩ hm
    exact h column (List.mem_of_getElem? (List.mem_zipIdx_iff_getElem?.mp hm))

theorem unpack_isError_iff {batch : Batch} :
    (∃ e, batch.unpack = .error e) ↔ ∃ column ∈ batch.columns, column.Unreadable := by
  have hok : (∃ rows, batch.unpack = .ok rows) ↔ _ := unpack_isOk_iff
  cases h : batch.unpack with
  | ok rows =>
    rw [h] at hok
    simpa using hok
  | error e =>
    rw [h] at hok
    simpa using hok

end Batch

end Rollup
