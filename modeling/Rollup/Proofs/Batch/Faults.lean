import Rollup.Proofs.Batch.RoundTrip

/-!
# Which fault of a table is reported

Rows under a schema have a fault wherever a row is too short or a value has the wrong type (`Schema.faultAt?`), and a
batch has one in every column with a null or a foreign type (`Column.fault?`). There may be several at once.

- `pack_eq_error_iff`: of the faults of rows the first one in column order is reported: of the leftmost column that has
  any, that of the topmost row;
- `unpack_eq_error_iff`: of the faults of a batch that of the leftmost column is reported;
- `first_fault_reported`: packing and unpacking fail with these errors and for no other reason.

A list of rows is searched in two loops, so each of these follows from the positions at which one loop fails
(`Outcome.mapM_eq_error_iff_first`).
-/

namespace Rollup

/-! ## Faults -/

/-- The fault of a row in a column of values of a type. -/
def Row.cellFault? (row : Row) (column : Nat) (type : ValueType) : Option Error :=
  match row.values[column]? with
  | none => some (.argument (.fieldOutOfRange column row.width))
  | some v => if v.type = type then none else some (.mismatch .batchColumn type v.type)

/-- The fault of rows under a schema at a column and a row. -/
def Schema.faultAt? (schema : Schema) (rows : List Row) (column row : Nat) : Option Error :=
  schema.fields[column]?.bind fun field => rows[row]?.bind fun r => r.cellFault? column field.type

/-- Whether the cell of a row is marked as null. -/
def Cells.isNull : Cells → Nat → Bool
  | int64 cells, row => cells[row]? = some none
  | utf8 cells, row => cells[row]? = some none
  | foreign type cells, row => type.marksNulls && cells[row]? = some false

/-- The fault of a column with `rowCount` cells. Nulls are looked for before the type. -/
def Column.fault? (c : Column) (rowCount index : Nat) : Option Error :=
  if ∃ row, row < rowCount ∧ c.cells.isNull row = true then some (.argument (.nullInColumn index))
  else match c.cells.type with
    | .foreign type => some (.argument (.unsupportedColumn type))
    | .int64 | .utf8 => none

namespace Outcome

variable {ε α β : Type} {x : Except ε α} {e : ε}

/-- What fails exactly with a fault succeeds without one. -/
theorem exists_ok_iff {fault? : Option ε} (h : ∀ e, x = .error e ↔ fault? = some e) :
    (∃ a, x = .ok a) ↔ fault? = none := by
  rw [Option.eq_none_iff_forall_ne_some]
  cases x with
  | ok a =>
    refine ⟨fun _ e he => ?_, fun _ => ⟨a, rfl⟩⟩
    cases (h e).mpr he
  | error e =>
    refine ⟨?_, fun hne => absurd ((h e).mp rfl) (hne e)⟩
    rintro ⟨_, ⟨⟩⟩

theorem bind_pure_eq_error_iff {f : α → β} : (x >>= fun a => pure (f a)) = .error e ↔ x = .error e := by
  cases x <;> simp

theorem exists_bind_pure_eq_ok_iff {f : α → β} : (∃ b, (x >>= fun a => pure (f a)) = .ok b) ↔ ∃ a, x = .ok a := by
  cases x <;> simp

end Outcome

namespace Row

variable {row : Row} {column : Nat} {type : ValueType} {e : Error}

theorem cellFault?_eq_some_iff :
    row.cellFault? column type = some e ↔
      row.width ≤ column ∧ e = .argument (.fieldOutOfRange column row.width) ∨
        ∃ v, row.values[column]? = some v ∧ v.type ≠ type ∧ e = .mismatch .batchColumn type v.type := by
  unfold cellFault?
  cases hv : row.values[column]? with
  | none =>
    have hle : row.width ≤ column := List.getElem?_eq_none_iff.mp hv
    simp [hle, eq_comm]
  | some v =>
    have hlt : ¬row.width ≤ column := Nat.not_le.mpr (List.getElem?_eq_some_iff.mp hv).1
    simp [hlt, eq_comm]

/-- A row has a fault under some field if it is too short or has a value of the wrong type. -/
theorem exists_cellFault?_iff {schema : Schema} :
    (∃ column field e, schema.fields[column]? = some field ∧ row.cellFault? column field.type = some e) ↔
      row.width < schema.width ∨
        ∃ (i : Nat) (field : Field) (v : Value), schema.fields[i]? = some field ∧ row.values[i]? = some v ∧
          v.type ≠ field.type := by
  simp only [cellFault?_eq_some_iff]
  constructor
  · rintro ⟨column, field, e, hf, ⟨hle, -⟩ | ⟨v, hv, hne, -⟩⟩
    · exact .inl (Nat.lt_of_le_of_lt hle (List.getElem?_eq_some_iff.mp hf).1)
    · exact .inr ⟨column, field, v, hf, hv, hne⟩
  · rintro (hlt | ⟨i, field, v, hf, hv, hne⟩)
    · exact ⟨row.width, _, _, List.getElem?_eq_getElem hlt, .inl ⟨Nat.le_refl _, rfl⟩⟩
    · exact ⟨i, field, _, hf, .inr ⟨v, hv, hne, rfl⟩⟩

theorem getInt_eq_error_iff :
    row.getInt column .batchColumn = .error e ↔ row.cellFault? column .int = some e := by
  unfold getInt get cellFault?
  cases row.values[column]? with
  | none => simp
  | some v => cases v <;> simp [Value.type, Error.mismatch]

theorem getText_eq_error_iff :
    row.getText column .batchColumn = .error e ↔ row.cellFault? column .text = some e := by
  unfold getText get cellFault?
  cases row.values[column]? with
  | none => simp
  | some v => cases v <;> simp [Value.type, Error.mismatch]

end Row

namespace Schema

variable {schema : Schema} {rows : List Row} {column row : Nat} {e : Error}

theorem faultAt?_eq_some_iff :
    schema.faultAt? rows column row = some e ↔
      ∃ field r, schema.fields[column]? = some field ∧ rows[row]? = some r ∧ r.cellFault? column field.type = some e := by
  simp only [faultAt?, Option.bind_eq_some_iff]
  constructor
  · rintro ⟨field, hf, r, hr, he⟩
    exact ⟨field, r, hf, hr, he⟩
  · rintro ⟨field, r, hf, hr, he⟩
    exact ⟨field, hf, r, hr, he⟩

theorem faultAt?_eq_none_iff :
    schema.faultAt? rows column row = none ↔
      ∀ field r, schema.fields[column]? = some field → rows[row]? = some r → r.cellFault? column field.type = none := by
  simp only [faultAt?, Option.bind_eq_none_iff]
  exact ⟨fun h field r hf hr => h field hf r hr, fun h field hf r hr => h field r hf hr⟩

end Schema

namespace Cells

theorem mem_iff_exists_lt {α : Type} {a : α} {xs : List α} : a ∈ xs ↔ ∃ i, i < xs.length ∧ xs[i]? = some a := by
  rw [List.mem_iff_getElem?]
  exact ⟨fun ⟨i, hi⟩ => ⟨i, (List.getElem?_eq_some_iff.mp hi).1, hi⟩, fun ⟨i, _, hi⟩ => ⟨i, hi⟩⟩

/-- Nulls are counted where there is one. -/
theorem nullCount_pos_iff {cells : Cells} :
    0 < cells.nullCount ↔ ∃ row, row < cells.length ∧ cells.isNull row = true := by
  cases cells with
  | int64 cells | utf8 cells => simp [nullCount, length, isNull, List.countP_pos_iff, ← mem_iff_exists_lt]
  | foreign type cells =>
    cases ht : type.marksNulls <;> simp [nullCount, length, isNull, ht, List.countP_pos_iff, ← mem_iff_exists_lt]

theorem getElem?_drop_take_eq_some_iff {α : Type} {a : α} {xs : List α} {offset length row : Nat} :
    ((xs.drop offset).take length)[row]? = some a ↔ row < length ∧ xs[offset + row]? = some a := by
  rw [List.getElem?_take, List.getElem?_drop]
  by_cases h : row < length <;> simp [h]

/-- The nulls of a slice are those of its rows. -/
theorem isNull_slice (cells : Cells) (offset length row : Nat) :
    (cells.slice offset length).isNull row = (decide (row < length) && cells.isNull (offset + row)) := by
  cases cells with
  | int64 cells | utf8 cells => simp [slice, isNull, getElem?_drop_take_eq_some_iff]
  | foreign type cells => simp [slice, isNull, getElem?_drop_take_eq_some_iff, Bool.and_left_comm]

end Cells

namespace Batch

variable {schema : Schema} {rows : List Row} {column index : Nat} {field : Field} {b : Batch} {e : Error}

/-! ## Packing -/

/-- A column is filled by reading the rows one after the other, and a row is read unless it has a fault in the column. -/
theorem exists_read (rows : List Row) (column : Nat) (field : Field) :
    ∃ (β : Type) (read : Row → Except Error β) (fill : List β → Column),
      packColumn rows column field = (rows.mapM read >>= fun cells => pure (fill cells)) ∧
        ∀ row e, read row = .error e ↔ row.cellFault? column field.type = some e := by
  unfold packColumn
  cases field.type with
  | int => exact ⟨_, _, _, rfl, fun _ _ => Row.getInt_eq_error_iff⟩
  | text => exact ⟨_, _, _, rfl, fun _ _ => Row.getText_eq_error_iff⟩

theorem packColumn_isOk_iff :
    (∃ c, packColumn rows column field = .ok c) ↔ ∀ row ∈ rows, row.cellFault? column field.type = none := by
  obtain ⟨β, read, fill, hpack, hread⟩ := exists_read rows column field
  rw [hpack, Outcome.exists_bind_pure_eq_ok_iff, Outcome.exists_mapM_eq_ok_iff]
  simp only [Outcome.exists_ok_iff (hread _)]

/-- The fault that is reported of a column is that of the topmost row. -/
theorem packColumn_eq_error_iff :
    packColumn rows column field = .error e ↔
      ∃ (i : Nat) (row : Row), rows[i]? = some row ∧ row.cellFault? column field.type = some e ∧
        ∀ (j : Nat) (row' : Row), j < i → rows[j]? = some row' → row'.cellFault? column field.type = none := by
  obtain ⟨β, read, fill, hpack, hread⟩ := exists_read rows column field
  rw [hpack, Outcome.bind_pure_eq_error_iff, Outcome.mapM_eq_error_iff_first]
  simp only [hread, Outcome.exists_ok_iff (hread _)]

/-- The fault that is reported of rows is the first one in column order. -/
theorem pack_eq_error_iff :
    pack schema rows = .error e ↔
      ∃ column row, schema.faultAt? rows column row = some e ∧
        ∀ column' row', column' < column ∨ column' = column ∧ row' < row →
          schema.faultAt? rows column' row' = none := by
  have hcolumns : pack schema rows = .error e ↔
      schema.fields.zipIdx.mapM (fun f => packColumn rows f.2 f.1) = .error e :=
    Outcome.bind_pure_eq_error_iff
  rw [hcolumns, Outcome.mapM_zipIdx_eq_error_iff (f := fun column field => packColumn rows column field)]
  simp only [packColumn_eq_error_iff, packColumn_isOk_iff]
  constructor
  · rintro ⟨column, field, hf, ⟨row, r, hr, he, habove⟩, hleft⟩
    refine ⟨column, row, Schema.faultAt?_eq_some_iff.mpr ⟨field, r, hf, hr, he⟩, fun column' row' hbefore =>
      Schema.faultAt?_eq_none_iff.mpr fun field' r' hf' hr' => ?_⟩
    rcases hbefore with hlt | ⟨rfl, hlt⟩
    · exact hleft column' field' hlt hf' r' (List.mem_of_getElem? hr')
    · cases hf.symm.trans hf'
      exact habove row' r' hlt hr'
  · rintro ⟨column, row, he, hbefore⟩
    obtain ⟨field, r, hf, hr, he⟩ := Schema.faultAt?_eq_some_iff.mp he
    refine ⟨column, field, hf, ⟨row, r, hr, he, fun row' r' hlt hr' => ?_⟩, fun column' field' hlt hf' r' hm => ?_⟩
    · exact Schema.faultAt?_eq_none_iff.mp (hbefore column row' (.inr ⟨rfl, hlt⟩)) field r' hf hr'
    · obtain ⟨row', hr'⟩ := List.mem_iff_getElem?.mp hm
      exact Schema.faultAt?_eq_none_iff.mp (hbefore column' row' (.inl hlt)) field' r' hf' hr'

theorem cellFault?_of_pack {row : Row} (h : pack schema rows = .ok b) (hf : schema.fields[column]? = some field)
    (hm : row ∈ rows) : row.cellFault? column field.type = none := by
  obtain ⟨columns, hcolumns, -⟩ := Outcome.bind_eq_ok_iff.mp h
  have hcolumn := Outcome.exists_mapM_eq_ok_iff.mp ⟨columns, hcolumns⟩ (field, column)
    (List.mem_zipIdx_iff_getElem?.mpr hf)
  exact packColumn_isOk_iff.mp hcolumn row hm

/-- Rows can be packed unless one of them is too short or has a value of the wrong type. -/
theorem pack_isError_iff :
    (∃ e, pack schema rows = .error e) ↔
      ∃ row ∈ rows, row.width < schema.width ∨
        ∃ (i : Nat) (field : Field) (v : Value), schema.fields[i]? = some field ∧ row.values[i]? = some v ∧
          v.type ≠ field.type := by
  constructor
  · rintro ⟨e, he⟩
    obtain ⟨column, row, hfault, -⟩ := pack_eq_error_iff.mp he
    obtain ⟨field, r, hf, hr, hfault⟩ := Schema.faultAt?_eq_some_iff.mp hfault
    exact ⟨r, List.mem_of_getElem? hr, Row.exists_cellFault?_iff.mp ⟨column, field, e, hf, hfault⟩⟩
  · rintro ⟨row, hm, hbad⟩
    obtain ⟨column, field, e, hf, hfault⟩ := Row.exists_cellFault?_iff.mpr hbad
    cases h : pack schema rows with
    | error e => exact ⟨e, rfl⟩
    | ok b =>
      rw [cellFault?_of_pack h hf hm] at hfault
      cases hfault

theorem exists_pack_nil (schema : Schema) : ∃ b, pack schema [] = .ok b := by
  cases h : pack schema [] with
  | ok b => exact ⟨b, rfl⟩
  | error e =>
    obtain ⟨row, hm, -⟩ := pack_isError_iff.mp ⟨e, h⟩
    cases hm

/-! ## Unpacking -/

theorem columnValues_eq_error_iff {c : Column} :
    columnValues index c = .error e ↔ c.fault? c.cells.length index = some e := by
  unfold columnValues Column.fault?
  simp only [← Cells.nullCount_pos_iff]
  split
  · simp
  · cases c.cells <;> simp [Cells.type]

/-- The fault that is reported of a batch is that of the leftmost column. -/
theorem unpack_eq_error_iff (hb : b.WellFormed) :
    b.unpack = .error e ↔
      ∃ (i : Nat) (c : Column), b.columns[i]? = some c ∧ c.fault? b.rowCount i = some e ∧
        ∀ (j : Nat) (c' : Column), j < i → b.columns[j]? = some c' → c'.fault? b.rowCount j = none := by
  have hlength : ∀ {i : Nat} {c : Column}, b.columns[i]? = some c → c.cells.length = b.rowCount := fun hc =>
    hb _ (List.mem_of_getElem? hc)
  have hcolumns : b.unpack = .error e ↔ b.columns.zipIdx.mapM (fun c => columnValues c.2 c.1) = .error e :=
    Outcome.bind_pure_eq_error_iff
  rw [hcolumns, Outcome.mapM_zipIdx_eq_error_iff]
  simp only [columnValues_eq_error_iff, Outcome.exists_ok_iff fun _ => columnValues_eq_error_iff]
  constructor
  · rintro ⟨i, c, hc, he, hleft⟩
    refine ⟨i, c, hc, hlength hc ▸ he, fun j c' hlt hc' => ?_⟩
    rw [← hlength hc']
    exact hleft j c' hlt hc'
  · rintro ⟨i, c, hc, he, hleft⟩
    refine ⟨i, c, hc, (hlength hc).symm ▸ he, fun j c' hlt hc' => ?_⟩
    rw [hlength hc']
    exact hleft j c' hlt hc'

/-- A batch can be unpacked unless one of its columns has a null in its rows or a foreign type. -/
theorem unpack_isError_iff_of_wellFormed (hb : b.WellFormed) :
    (∃ e, b.unpack = .error e) ↔
      ∃ c ∈ b.columns, (∃ row, row < b.rowCount ∧ c.cells.isNull row = true) ∨ ∃ type, c.cells.type = .foreign type := by
  rw [unpack_isError_iff]
  constructor
  · rintro ⟨c, hm, hbad⟩
    rw [Column.Unreadable, Cells.nullCount_pos_iff, hb c hm] at hbad
    exact ⟨c, hm, hbad⟩
  · rintro ⟨c, hm, hbad⟩
    refine ⟨c, hm, ?_⟩
    rwa [Column.Unreadable, Cells.nullCount_pos_iff, hb c hm]

/-- A slice can be unpacked unless a column has a null in its rows or a foreign type. -/
theorem unpack_slice_isError_iff (hb : b.WellFormed) (offset length : Nat) :
    (∃ e, (b.slice offset length).unpack = .error e) ↔
      ∃ c ∈ b.columns, (∃ row, offset ≤ row ∧ row < offset + length ∧ row < b.rowCount ∧ c.cells.isNull row = true) ∨
        ∃ type, c.cells.type = .foreign type := by
  have hnull : ∀ cells : Cells,
      (∃ row, row < (b.slice offset length).rowCount ∧ (cells.slice offset length).isNull row = true) ↔
        ∃ row, offset ≤ row ∧ row < offset + length ∧ row < b.rowCount ∧ cells.isNull row = true := by
    intro cells
    simp only [Cells.isNull_slice, Bool.and_eq_true, decide_eq_true_eq]
    constructor
    · rintro ⟨row, hrow, hlt, hn⟩
      have hcount : row < min length (b.rowCount - offset) := hrow
      exact ⟨offset + row, by omega, by omega, by omega, hn⟩
    · rintro ⟨row, hle, hlt, hrow, hn⟩
      obtain ⟨k, rfl⟩ := Nat.le.dest hle
      have hcount : k < min length (b.rowCount - offset) := by omega
      exact ⟨k, hcount, by omega, hn⟩
  have htype : ∀ cells : Cells, (cells.slice offset length).type = cells.type := fun cells => by cases cells <;> rfl
  rw [unpack_isError_iff_of_wellFormed (hb.slice offset length)]
  constructor
  · rintro ⟨_, hm, hbad⟩
    obtain ⟨c, hc, rfl⟩ := List.mem_map.mp hm
    rw [hnull, htype] at hbad
    exact ⟨c, hc, hbad⟩
  · rintro ⟨c, hm, hbad⟩
    refine ⟨_, List.mem_map_of_mem hm, ?_⟩
    rwa [hnull, htype]

/-- **The first fault is reported.** Packing fails exactly if a row is too short for the schema or has a value of the
wrong type under it, and then with the first fault in column order: none of an earlier column, and none of an earlier row
of the same column. A well-formed batch cannot be unpacked exactly if a column of it has a null in its rows or a foreign
type, and then the error is that of the leftmost such column, for its nulls if it has any; of a slice only its own rows
count. No rows can always be packed. -/
theorem first_fault_reported :
    (∀ (schema : Schema) (rows : List Row),
      ((∃ e, pack schema rows = .error e) ↔
        ∃ row ∈ rows, row.width < schema.width ∨
          ∃ (i : Nat) (field : Field) (v : Value), schema.fields[i]? = some field ∧ row.values[i]? = some v ∧
            v.type ≠ field.type) ∧
      ∀ e, pack schema rows = .error e ↔
        ∃ column row, schema.faultAt? rows column row = some e ∧
          ∀ column' row', column' < column ∨ column' = column ∧ row' < row →
            schema.faultAt? rows column' row' = none) ∧
    (∀ b : Batch, b.WellFormed →
      ((∃ e, b.unpack = .error e) ↔
        ∃ c ∈ b.columns, (∃ row, row < b.rowCount ∧ c.cells.isNull row = true) ∨
          ∃ type, c.cells.type = .foreign type) ∧
      (∀ e, b.unpack = .error e ↔
        ∃ (i : Nat) (c : Column), b.columns[i]? = some c ∧ c.fault? b.rowCount i = some e ∧
          ∀ (j : Nat) (c' : Column), j < i → b.columns[j]? = some c' → c'.fault? b.rowCount j = none) ∧
      ∀ offset length, (∃ e, (b.slice offset length).unpack = .error e) ↔
        ∃ c ∈ b.columns,
          (∃ row, offset ≤ row ∧ row < offset + length ∧ row < b.rowCount ∧ c.cells.isNull row = true) ∨
            ∃ type, c.cells.type = .foreign type) ∧
    ∀ schema : Schema, ∃ b, pack schema [] = .ok b :=
  ⟨fun _ _ => ⟨pack_isError_iff, fun _ => pack_eq_error_iff⟩,
    fun _ hb => ⟨unpack_isError_iff_of_wellFormed hb, fun _ => unpack_eq_error_iff hb, unpack_slice_isError_iff hb⟩,
    exists_pack_nil⟩

/-- A text in the first column of the last row is reported before the first row that is too short, and of a batch the
null of its second column, which is of a foreign type too; from the second row on only the type is left. -/
theorem first_fault_reported_two_at_once :
    let schema : Schema := ⟨[⟨"k", .int⟩, ⟨"v", .text⟩]⟩
    let rows : List Row := [⟨[.int 1]⟩, ⟨[.text "x", .int 2]⟩]
    let seconds : ForeignType := .other "Timestamp(Second, None)" true
    let b : Batch := ⟨[⟨"k", false, .int64 [some 1, some 2]⟩, ⟨"w", true, .foreign seconds [false, true]⟩,
      ⟨"n", true, .foreign .null [false, false]⟩], ⟨2, []⟩⟩
    pack schema rows = .error (.mismatch .batchColumn .int .text) ∧
      b.WellFormed ∧ b.unpack = .error (.argument (.nullInColumn 1)) ∧
      (b.slice 1 1).WellFormed ∧ (b.slice 1 1).unpack = .error (.argument (.unsupportedColumn seconds)) := by
  intro schema rows seconds b
  obtain ⟨hpack, hunpack, -⟩ := first_fault_reported
  have hb : b.WellFormed := by simp [b, WellFormed, rowCount, Cells.length]
  have hslice := hb.slice 1 1
  refine ⟨((hpack schema rows).2 _).mpr ⟨0, 1, rfl, ?_⟩, hb, ((hunpack b hb).2.1 _).mpr ⟨1, _, rfl, by decide, ?_⟩,
    hslice, ((hunpack _ hslice).2.1 _).mpr ⟨1, _, rfl, by decide, ?_⟩⟩
  · rintro column row (hlt | ⟨rfl, hlt⟩)
    · omega
    · obtain rfl : row = 0 := by omega
      rfl
  · intro j c hlt hc
    obtain rfl : j = 0 := by omega
    cases hc
    decide
  · intro j c hlt hc
    obtain rfl : j = 0 := by omega
    cases hc
    decide

end Batch

end Rollup
