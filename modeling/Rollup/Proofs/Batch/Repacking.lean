import Rollup.Proofs.Batch.RoundTrip

/-!
# Unpacking and packing again

A batch that can be unpacked has a schema, and its rows packed under that schema are the batch itself, except that no
column is marked as one that may hold nulls and that there is no metadata (`pack_of_unpack`). The induction lies in one
fact on tables (`column_transpose`): the rows have, at the position of a column, the values of that column. After that
the columns are packed one by one.

`packing_round_trip` states both directions together. Neither rows nor their schema have a place for metadata, so
metadata does not come back (`metadata_does_not_come_back`).
-/

namespace Rollup

/-- The batch with all columns marked as holding no nulls. -/
def Batch.nonNullable (b : Batch) : Batch :=
  { b with columns := b.columns.map fun c => { c with marks := { c.marks with nullable := false } } }

/-- The batch without metadata, with all columns marked as holding no nulls. -/
def Batch.plain (b : Batch) : Batch :=
  ⟨b.columns.map fun c => { c with marks := false }, b.rowCount⟩

namespace Batch

variable {rows : List Row} {index : Nat}

/-! ## Columns of a table -/

/-- The rows that columns give have the values of a column at its position. -/
theorem column_transpose {n : Nat} {columns : List (List Value)} {column : List Value}
    (hlen : ∀ column ∈ columns, column.length = n) (h : columns[index]? = some column) :
    (transpose n columns).map (·[index]?) = column.map some := by
  induction columns generalizing index with
  | nil => cases h
  | cons first columns ih =>
    have hfirst := hlen first List.mem_cons_self
    have hrest := fun c hm => hlen c (List.mem_cons_of_mem first hm)
    have hrows := length_transpose n columns hrest
    rw [transpose_cons]
    cases index with
    | zero =>
      cases h
      exact List.ext_getElem (by simp [hfirst, hrows]) (by simp)
    | succ index =>
      rw [← ih hrest h]
      exact List.ext_getElem (by simp [hfirst, hrows]) (by simp)

/-! ## One column -/

/-- Cells without nulls are their values. -/
theorem map_some_of_countP_isNone {α : Type} {cells : List (Option α)} (h : cells.countP Option.isNone = 0) :
    ∃ xs : List α, cells = xs.map some := by
  rw [List.countP_eq_zero] at h
  refine ⟨cells.filterMap id, ?_⟩
  induction cells with
  | nil => rfl
  | cons cell cells ih =>
    cases cell with
    | none => exact absurd rfl (h none List.mem_cons_self)
    | some x => exact congrArg (some x :: ·) (ih fun c hm => h c (List.mem_cons_of_mem _ hm))

/-- Reading a field of rows that all have it. -/
theorem mapM_of_column {β : Type} {read : Row → Except Error β} {toValue : β → Value} {xs : List β}
    (hread : ∀ row x, row.values[index]? = some (toValue x) → read row = .ok x)
    (h : rows.map (·.values[index]?) = (xs.map toValue).map some) : rows.mapM read = .ok xs := by
  rw [Outcome.mapM_eq_ok_iff]
  induction rows generalizing xs with
  | nil =>
    cases xs with
    | nil => rfl
    | cons x xs => cases h
  | cons row rows ih =>
    cases xs with
    | nil => cases h
    | cons x xs =>
      rw [List.map_cons, List.map_cons, List.map_cons, List.cons.injEq] at h
      rw [List.map_cons, List.map_cons, hread row x h.1, ih h.2]

/-- A column that can be read holds integers or texts, and the rows that have its values at a position are packed into
it. -/
theorem packColumn_of_columnValues {c : Column} {values : List Value} (h : columnValues index c = .ok values) :
    values.length = c.cells.length ∧
    ∃ type, ValueType.ofColumn c.cells.type = .ok type ∧
      ∀ rows : List Row, rows.map (·.values[index]?) = values.map some →
        packColumn rows index ⟨c.name, type⟩ = .ok { c with marks := false } := by
  have hreadable := columnValues_isOk_iff.mp ⟨values, h⟩
  obtain ⟨name, marks, cells⟩ := c
  have hnulls : cells.nullCount = 0 := Nat.eq_zero_of_not_pos fun hn => hreadable (.inl hn)
  cases cells with
  | int64 cells =>
    obtain ⟨xs, rfl⟩ := map_some_of_countP_isNone hnulls
    rw [columnValues_int64] at h
    cases h
    refine ⟨by simp [Cells.length], .int, rfl, fun rows hrows => ?_⟩
    have hcells : rows.mapM (·.getInt index .batchColumn) = .ok xs :=
      mapM_of_column (fun row x => Row.getInt_eq_ok_iff.mpr) hrows
    unfold packColumn
    dsimp only
    rw [hcells]
    rfl
  | utf8 cells =>
    obtain ⟨xs, rfl⟩ := map_some_of_countP_isNone hnulls
    rw [columnValues_utf8] at h
    cases h
    refine ⟨by simp [Cells.length], .text, rfl, fun rows hrows => ?_⟩
    have hcells : rows.mapM (·.getText index .batchColumn) = .ok xs :=
      mapM_of_column (fun row x => Row.getText_eq_ok_iff.mpr) hrows
    unfold packColumn
    dsimp only
    rw [hcells]
    rfl
  | foreign type cells => exact absurd (.inr ⟨type, rfl⟩) hreadable

/-! ## All columns -/

/-- Columns from a position on that can all be read have fields, and the rows that have their values at these positions
are packed into them. -/
theorem pack_columns_of_values {columns : List Column} {values : List (List Value)} (k : Nat)
    (h : (columns.zipIdx k).mapM (fun c => columnValues c.2 c.1) = .ok values) :
    values.map List.length = columns.map (·.cells.length) ∧
    ∃ fields, (columns.map Column.field).mapM (fun c => do return (⟨c.name, ← ValueType.ofColumn c.type⟩ : Field)) =
        .ok fields ∧
      ∀ rows : List Row, (∀ i column, values[i]? = some column → rows.map (·.values[k + i]?) = column.map some) →
        (fields.zipIdx k).mapM (fun f => packColumn rows f.2 f.1) =
          .ok (columns.map fun c => { c with marks := false }) := by
  induction columns generalizing k values with
  | nil =>
    cases h
    exact ⟨rfl, [], rfl, fun _ _ => rfl⟩
  | cons c columns ih =>
    rw [List.zipIdx_cons, List.mapM_cons] at h
    obtain ⟨column, hcolumn, h⟩ := Outcome.bind_eq_ok_iff.mp h
    obtain ⟨values, hvalues, h⟩ := Outcome.bind_eq_ok_iff.mp h
    cases h
    obtain ⟨hlen, type, htype, hpack⟩ := packColumn_of_columnValues hcolumn
    obtain ⟨hlens, fields, hfields, hpacks⟩ := ih (k + 1) hvalues
    refine ⟨by rw [List.map_cons, List.map_cons, hlen, hlens], ⟨c.name, type⟩ :: fields, ?_, fun rows hrows => ?_⟩
    · rw [List.map_cons, List.mapM_cons, hfields]
      show (ValueType.ofColumn c.cells.type >>= _) >>= _ = _
      rw [htype]
      rfl
    · have hfirst := hpack rows (hrows 0 column rfl)
      have hrest := hpacks rows fun i column hi => by
        rw [Nat.add_assoc, Nat.add_comm 1]
        exact hrows (i + 1) column hi
      rw [List.zipIdx_cons, List.mapM_cons, hfirst, Outcome.ok_bind, hrest]
      rfl

/-- The rows of a batch, packed under its schema, are the batch with no column marked as one that may hold nulls and
without metadata. -/
theorem pack_of_unpack {b : Batch} (hb : b.WellFormed) (h : b.unpack = .ok rows) :
    ∃ schema, Schema.ofColumnFields b.fields = .ok schema ∧ pack schema rows = .ok b.plain := by
  obtain ⟨values, hvalues, h⟩ := Outcome.bind_eq_ok_iff.mp h
  cases h
  obtain ⟨hlens, fields, hfields, hpack⟩ := pack_columns_of_values 0 hvalues
  have hlen : ∀ column ∈ values, column.length = b.rowCount := by
    intro column hm
    have hlength := List.mem_map_of_mem (f := List.length) hm
    rw [hlens] at hlength
    obtain ⟨c, hc, hlength⟩ := List.mem_map.mp hlength
    rw [← hlength, hb c hc]
  refine ⟨⟨fields⟩, Outcome.bind_eq_ok_iff.mpr ⟨fields, hfields, rfl⟩, ?_⟩
  refine Outcome.bind_eq_ok_iff.mpr ⟨_, hpack _ fun i column hi => ?_, ?_⟩
  · rw [List.map_map, Nat.zero_add]
    exact column_transpose hlen hi
  · rw [List.length_map, length_transpose _ _ hlen]
    rfl

/-! ## The schema of a packed batch -/

theorem field_of_packColumn {field : Field} {c : Column} (h : packColumn rows index field = .ok c) :
    c.field = ⟨field.name, field.type.column, false⟩ := by
  unfold packColumn at h
  split at h <;>
  · rename_i ht
    obtain ⟨cells, -, h⟩ := Outcome.bind_eq_ok_iff.mp h
    cases h
    rw [ht]
    rfl

theorem fields_of_packColumns {fields : List Field} {columns : List Column} (k : Nat)
    (h : (fields.zipIdx k).mapM (fun f => packColumn rows f.2 f.1) = .ok columns) :
    columns.map Column.field = fields.map fun f => ⟨f.name, f.type.column, false⟩ := by
  induction fields generalizing k columns with
  | nil =>
    cases h
    rfl
  | cons field fields ih =>
    rw [List.zipIdx_cons, List.mapM_cons] at h
    obtain ⟨column, hcolumn, h⟩ := Outcome.bind_eq_ok_iff.mp h
    obtain ⟨columns, hcolumns, h⟩ := Outcome.bind_eq_ok_iff.mp h
    cases h
    rw [List.map_cons, List.map_cons, field_of_packColumn hcolumn, ih (k + 1) hcolumns]

/-- A packed batch has a row for every row, and the columns that hold the fields of the schema. -/
theorem fields_of_pack {schema : Schema} {b : Batch} (h : pack schema rows = .ok b) :
    b.rowCount = rows.length ∧ b.fields = schema.columnFields := by
  obtain ⟨columns, hcolumns, h⟩ := Outcome.bind_eq_ok_iff.mp h
  cases h
  exact ⟨rfl, fields_of_packColumns 0 hcolumns⟩

/-- The schema that a batch was packed under comes back from it. -/
theorem shape_of_pack {schema : Schema} {b : Batch} (h : pack schema rows = .ok b) :
    b.rowCount = rows.length ∧ Schema.ofColumnFields b.fields = .ok schema := by
  obtain ⟨hcount, hfields⟩ := fields_of_pack h
  exact ⟨hcount, by rw [hfields, Schema.ofColumnFields_columnFields]⟩

/-! ## Both directions -/

/-- A batch is plain if there is nothing to take from it. -/
theorem plain_eq_self_iff {b : Batch} :
    b.plain = b ↔ b.header.metadata = [] ∧ ∀ c ∈ b.columns, c.marks = (false : ColumnMarks) := by
  obtain ⟨columns, rowCount, metadata⟩ := b
  have hcolumns : (columns.map fun c => { c with marks := (false : ColumnMarks) }) = columns ↔
      ∀ c ∈ columns, c.marks = (false : ColumnMarks) := by
    conv => lhs; rhs; rw [← List.map_id columns]
    rw [List.map_inj_left]
    exact forall₂_congr fun c _ => ⟨fun h => (congrArg Column.marks h).symm, fun h => h ▸ rfl⟩
  rw [plain, Batch.mk.injEq, hcolumns, BatchHeader.mk.injEq, and_comm]
  exact and_congr_left fun _ => ⟨fun h => h.2.symm, fun h => ⟨rfl, h.symm⟩⟩

/-- **Rows and batches come back from each other.** Rows whose first values have the types of a schema can be packed
under it: the batch is well-formed, has as many rows and the same schema, and unpacks to these values of the rows. A
well-formed batch that can be unpacked has a schema under which its rows are packed into it again, and so has every slice
of it; only the marks for nulls and the metadata are gone. So the very batch comes back exactly if it has neither. -/
theorem packing_round_trip :
    (∀ (schema : Schema) (rows : List Row), (∀ row ∈ rows, row.Covers schema) →
      ∃ b, pack schema rows = .ok b ∧ b.WellFormed ∧ b.rowCount = rows.length ∧
        Schema.ofColumnFields b.fields = .ok schema ∧
        b.unpack = .ok (rows.map fun row => ⟨row.values.take schema.width⟩) ∧
        ((∀ row ∈ rows, row.Conforms schema) → b.unpack = .ok rows) ∧
        (schema.fields = [] → b.unpack = .ok (List.replicate rows.length ⟨[]⟩))) ∧
    (∀ (b : Batch) (rows : List Row), b.WellFormed → b.unpack = .ok rows →
      ∃ schema, Schema.ofColumnFields b.fields = .ok schema ∧ pack schema rows = .ok b.plain) ∧
    (∀ (b : Batch) (offset length : Nat) (rows : List Row), b.WellFormed → (b.slice offset length).unpack = .ok rows →
      ∃ schema, Schema.ofColumnFields (b.slice offset length).fields = .ok schema ∧
        pack schema rows = .ok (b.slice offset length).plain) ∧
    ∀ b : Batch, b.plain.rowCount = b.rowCount ∧
      b.plain.columns.map (fun c => (c.name, c.cells)) = b.columns.map (fun c => (c.name, c.cells)) ∧
      (b.plain = b ↔ b.header.metadata = [] ∧ ∀ c ∈ b.columns, c.marks = (false : ColumnMarks)) := by
  refine ⟨fun schema rows h => ?_, fun b rows hb h => pack_of_unpack hb h,
    fun b offset length rows hb h => pack_of_unpack (hb.slice offset length) h,
    fun b => ⟨rfl, by rw [plain, List.map_map]; rfl, plain_eq_self_iff⟩⟩
  obtain ⟨b, hpack, hunpack⟩ := unpack_pack h
  obtain ⟨hcount, hschema⟩ := shape_of_pack hpack
  refine ⟨b, hpack, wellFormed_of_pack hpack, hcount, hschema, hunpack, fun hrows => ?_, fun hempty => ?_⟩
  · obtain ⟨b', hpack', hunpack'⟩ := unpack_pack_of_conforms hrows
    rw [hpack] at hpack'
    cases hpack'
    exact hunpack'
  · rw [hunpack, Schema.width, hempty]
    simp [List.map_const']

/-- Two rows, one of them too wide, and the second one again from a slice whose first row held a null; the metadata of the
batch and of a column are gone then. -/
theorem packing_round_trip_slice :
    let schema : Schema := ⟨[⟨"k", .text⟩, ⟨"v", .int⟩]⟩
    let rows : List Row := [⟨[.text "a", .int 1, .int 7]⟩, ⟨[.text "b", .int 2]⟩]
    let b : Batch := ⟨[⟨"k", true, .utf8 [none, some "b"]⟩, ⟨"v", ⟨false, [("unit", "ms")]⟩, .int64 [some 1, some 2]⟩],
      ⟨2, [("origin", "scan")]⟩⟩
    (∀ row ∈ rows, row.Covers schema) ∧
    (∃ packed, pack schema rows = .ok packed ∧
      packed.unpack = .ok [⟨[.text "a", .int 1]⟩, ⟨[.text "b", .int 2]⟩]) ∧
    b.WellFormed ∧ (b.slice 1 1).unpack = .ok [⟨[.text "b", .int 2]⟩] ∧
    ∃ schema, Schema.ofColumnFields (b.slice 1 1).fields = .ok schema ∧
      pack schema [⟨[.text "b", .int 2]⟩] =
        .ok ⟨[⟨"k", false, .utf8 [some "b"]⟩, ⟨"v", false, .int64 [some 2]⟩], ⟨1, []⟩⟩ := by
  intro schema rows b
  have hrows : ∀ row ∈ rows, row.Covers schema := by simp [rows, schema, Row.Covers, Schema.width, Value.type]
  have hb : b.WellFormed := by simp [b, WellFormed, rowCount, Cells.length]
  have hslice : (b.slice 1 1).unpack = .ok [⟨[.text "b", .int 2]⟩] := rfl
  obtain ⟨packed, hpack, -, -, -, hunpack, -⟩ := packing_round_trip.1 schema rows hrows
  exact ⟨hrows, ⟨packed, hpack, hunpack⟩, hb, hslice, packing_round_trip.2.2.1 b 1 1 _ hb hslice⟩

/-- A batch with metadata does not come back up to its marks for nulls. -/
theorem metadata_does_not_come_back :
    let b : Batch := ⟨[⟨"n", ⟨false, [("unit", "ms")]⟩, .int64 [some 1]⟩], ⟨1, [("origin", "scan")]⟩⟩
    b.WellFormed ∧ b.unpack = .ok [⟨[.int 1]⟩] ∧ Schema.ofColumnFields b.fields = .ok ⟨[⟨"n", .int⟩]⟩ ∧
      ∃ packed, pack ⟨[⟨"n", .int⟩]⟩ [⟨[.int 1]⟩] = .ok packed ∧ packed.nonNullable ≠ b.nonNullable := by
  intro b
  exact ⟨by simp [b, WellFormed, rowCount, Cells.length], rfl, rfl, _, rfl, by decide⟩

end Batch

end Rollup
