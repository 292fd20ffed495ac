import Rollup.Proofs.Aggregate.Soundness

/-!
# Rows of the input schema

An aggregator that takes its types from a schema finds its group field and its aggregate field in every row that
conforms to the schema. Beside them a partial average reads a column of counts, and whether the schema has one is not
looked at when the aggregator is built (`Config.FindsCounts`). So a conforming row is refused for a total that does not
fit and for nothing else, exactly if the counts are found (`merges_conforming_iff`).
-/

namespace Rollup

variable {input : Schema} {row : Row} {c : Config} {index : Nat}

/-! ## Conforming rows -/

/-- The type that a schema has at a position, if it has one. -/
def Schema.typeAt (s : Schema) (index : Nat) : Option ValueType :=
  (s.field? index).map Field.type

/-- A conforming row has the types of the schema. -/
theorem Row.Conforms.typeAt (h : row.Conforms input) (index : Nat) : row.typeAt index = input.typeAt index := by
  rw [Row.typeAt, Schema.typeAt, Schema.field?_eq, ← List.getElem?_map, ← List.getElem?_map]
  exact congrArg (·[index]?) h

/-- Every schema has a row that conforms to it. -/
theorem Schema.exists_conforms (s : Schema) : ∃ row : Row, row.Conforms s := by
  have htype : ∀ t : ValueType, ∃ v : Value, v.type = t
    | .int => ⟨.int 0, rfl⟩
    | .text => ⟨.text "", rfl⟩
  choose value hvalue using htype
  refine ⟨⟨s.fields.map fun f => value f.type⟩, ?_⟩
  rw [Row.Conforms, List.map_map]
  exact List.map_congr_left fun f _ => hvalue f.type

/-- An integer is missed where a row is too short, or where it holds a text. -/
theorem Row.getInt_of_typeAt_ne (h : row.typeAt index ≠ some .int) (place : Place) :
    row.getInt index place = .error (.argument (.fieldOutOfRange index row.width)) ∨
      row.getInt index place = .error (.mismatch place .int .text) := by
  cases hv : row.values[index]? with
  | none => exact .inl (by rw [Row.getInt, Row.get, hv]; rfl)
  | some v =>
    have hget := Row.get_eq_ok_iff.mpr hv
    cases v with
    | int n => exact absurd (Row.typeAt_eq_int_iff.mpr ⟨n, hv⟩) h
    | text s => exact .inr (by rw [Row.getInt, hget]; rfl)

/-! ## Types from a schema -/

namespace Config

theorem typeAt_eq_ok_iff {t : ValueType} : typeAt input index = .ok t ↔ input.typeAt index = some t := by
  unfold typeAt Schema.typeAt
  cases input.field? index <;> simp

/-- The group field and the aggregate field have the types of the schema. -/
theorem types_ofSchema {groupField : Option Nat} {field : Nat} {aggregate : Aggregate}
    (h : ofSchema input groupField field aggregate = .ok c) :
    (∀ g ∈ c.groupBy, input.typeAt g.index = some g.type) ∧ input.typeAt c.field = some c.fieldType := by
  obtain ⟨groupBy, hgroup, h⟩ := Outcome.bind_eq_ok_iff.mp h
  obtain ⟨fieldType, hfield, h⟩ := Outcome.bind_eq_ok_iff.mp h
  cases h
  refine ⟨?_, typeAt_eq_ok_iff.mp hfield⟩
  cases groupField with
  | none =>
    cases hgroup
    nofun
  | some index =>
    obtain ⟨g, hg, hgroup⟩ := Outcome.bind_eq_ok_iff.mp hgroup
    cases hgroup
    obtain ⟨type, htype, hg⟩ := Outcome.bind_eq_ok_iff.mp hg
    cases hg
    rintro _ ⟨⟩
    exact typeAt_eq_ok_iff.mp htype

/-- A configuration that is not refused reads the type that it is told its aggregate field has. -/
theorem observedType_of_validate (h : c.validate = .ok ()) : c.observedType = c.fieldType := by
  cases ht : c.fieldType with
  | int => exact observedType_of_int ht
  | text =>
    have hsupports : c.aggregate.supports .text = true := by
      by_contra hs
      rw [validate, ht, if_neg hs] at h
      cases h
    rw [observedType, Aggregate.supports_text_iff.mp hsupports, ht]

/-- A partial average finds integers where it looks for its counts. -/
def FindsCounts (c : Config) (input : Schema) : Prop :=
  c.aggregate = .partialAverage → input.typeAt c.countColumn = some .int

/-- Of a conforming row everything but the counts is found in any case. -/
theorem readable_of_conforms {groupField : Option Nat} {field : Nat} {aggregate : Aggregate}
    (h : ofSchema input groupField field aggregate = .ok c) (hvalid : c.validate = .ok ()) (hrow : row.Conforms input) :
    c.Readable row ↔ c.FindsCounts input := by
  obtain ⟨hgroup, hfield⟩ := types_ofSchema h
  rw [Readable, hrow.typeAt, hrow.typeAt, hfield, observedType_of_validate hvalid]
  simp only [hrow.typeAt]
  exact ⟨fun hr => hr.2.2, fun hcounts => ⟨hgroup, trivial, hcounts⟩⟩

end Config

/-! ## Merging conforming rows -/

namespace Aggregator

variable {a a₀ : Aggregator}

/-- A row that can be read is merged, or a total that is kept does not fit. -/
theorem Sound.merge_of_readable (hs : a.Sound) (hr : a.config.Readable row) :
    (∃ a', a.merge row = .ok a') ∨
      ∃ quantity ∈ a.config.aggregate.keptTotals, a.merge row = .error (.overflow quantity) := by
  obtain ⟨⟨key, hkey⟩, o, ho⟩ := Config.readable_iff.mp hr
  cases h : a.merge row with
  | ok a' => exact .inl ⟨a', rfl⟩
  | error e =>
    right
    rw [Aggregator.merge, hkey, Outcome.ok_bind, ho, Outcome.ok_bind] at h
    split at h
    · rename_i slot hslot
      have hlt := hs.consistent.slot_lt hslot
      rw [updateGroup, dif_pos hlt] at h
      obtain h | ⟨_, _, ⟨⟩⟩ := Outcome.bind_eq_error_iff.mp h
      obtain ⟨quantity, hm, rfl⟩ := Accumulator.overflow_of_update ho (hs.fits _ (Array.getElem_mem hlt)).aggregate h
      exact ⟨quantity, hm, rfl⟩
    · obtain ⟨acc, hacc⟩ := Config.exists_seed ho
      rw [addGroup, hacc] at h
      cases h

/-- A row without counts is refused by a partial average, even if its group and its sum can be read. -/
theorem merge_of_no_counts (hf : a.config.aggregate = .partialAverage)
    (hgroup : ∀ g ∈ a.config.groupBy, row.typeAt g.index = some g.type)
    (hsum : row.typeAt a.config.field = some .int) (hcounts : row.typeAt a.config.countColumn ≠ some .int) :
    a.merge row = .error (.argument (.fieldOutOfRange a.config.countColumn row.width)) ∨
      a.merge row = .error (.mismatch .partialCountField .int .text) := by
  obtain ⟨key, hkey⟩ := Config.exists_groupKey_iff.mpr hgroup
  obtain ⟨s, hs⟩ := Row.typeAt_eq_int_iff.mp hsum
  have hmerge : ∀ {e}, row.getInt a.config.countColumn .partialCountField = .error e → a.merge row = .error e := by
    intro e he
    have ho : a.config.observation row = .error e := by
      rw [Config.observation, hf]
      dsimp only
      rw [Config.countField_of_partialAverage hf, Outcome.ok_bind, Row.getInt_eq_ok_iff.mpr hs, Outcome.ok_bind, he]
      rfl
    rw [merge, hkey, Outcome.ok_bind, ho]
    rfl
  exact (Row.getInt_of_typeAt_ne hcounts .partialCountField).imp hmerge hmerge

theorem ofSchema_eq_ok {groupField : Option Nat} {field : Nat} {aggregate : Aggregate}
    (h : ofSchema input groupField field aggregate = .ok a₀) :
    Config.ofSchema input groupField field aggregate = .ok a₀.config ∧ a₀.config.validate = .ok () ∧
      ofConfig a₀.config = .ok a₀ := by
  obtain ⟨c, hc, h⟩ := Outcome.bind_eq_ok_iff.mp h
  obtain ⟨_, hvalid, hempty⟩ := Outcome.bind_eq_ok_iff.mp h
  cases hempty
  exact ⟨hc, hvalid, h⟩

/-- **Rows of the schema that an aggregator was built from.** Whatever has been merged before, each of them is merged or
overflows a total, if the counts that a partial average reads are integers of the schema; and only then. -/
theorem merges_conforming_iff {groupField : Option Nat} {field : Nat} {aggregate : Aggregate}
    (h : ofSchema input groupField field aggregate = .ok a₀) :
    (∀ a, Built a₀.config a → ∀ row : Row, row.Conforms input →
      (InPlace.reply (mergeInPlace row) a).outcome = .ok () ∨
      ∃ quantity, (InPlace.reply (mergeInPlace row) a).outcome = .error (.overflow quantity)) ↔
    a₀.config.FindsCounts input := by
  obtain ⟨hc, hvalid, hnew⟩ := ofSchema_eq_ok h
  simp only [reply_mergeInPlace]
  constructor
  · intro hall hf
    -- a new aggregator already refuses any conforming row
    obtain ⟨row, hrow⟩ := input.exists_conforms
    obtain ⟨hgroup, hfield⟩ := Config.types_ofSchema hc
    rw [← Config.observedType_of_validate hvalid] at hfield
    by_contra hcounts
    have hsum : input.typeAt a₀.config.field = some .int := by
      rw [hfield, Config.observedType, hf]
    simp only [← hrow.typeAt] at hgroup hsum hcounts
    have hmerged := hall a₀ (.new hnew) row hrow
    rcases merge_of_no_counts hf hgroup hsum hcounts with he | he <;> rw [he] at hmerged <;>
      simp [Error.overflow, Error.mismatch] at hmerged
  · intro hcounts a ha row hrow
    obtain ⟨hs, hconfig⟩ := ha.sound
    have hr : a.config.Readable row := by
      rw [hconfig]
      exact (Config.readable_of_conforms hc hvalid hrow).mpr hcounts
    rcases hs.merge_of_readable hr with ⟨a', hm⟩ | ⟨quantity, -, hm⟩
    · exact .inl (by rw [hm]; rfl)
    · exact .inr ⟨quantity, by rw [hm]; rfl⟩

/-- Where the schema has counts, a conforming row can still overflow them. -/
theorem merges_conforming_iff_counts :
    let input : Schema := ⟨[⟨"dept", .text⟩, ⟨"sum", .int⟩, ⟨"count", .int⟩]⟩
    let a₀ := empty ⟨some ⟨0, .text⟩, 1, .int, .partialAverage⟩
    let a := a₀.offer ⟨[.text "b", .int 5, .int Int64.maxValue]⟩
    let row : Row := ⟨[.text "b", .int 1, .int 1]⟩
    ofSchema input (some 0) 1 .partialAverage = .ok a₀ ∧ row.Conforms input ∧
      (InPlace.reply (mergeInPlace row) a).outcome = .error (.overflow .partialCount) ∧
      ((InPlace.reply (mergeInPlace row) a).outcome = .ok () ∨
        ∃ quantity, (InPlace.reply (mergeInPlace row) a).outcome = .error (.overflow quantity)) := by
  intro input a₀ a row
  have h : ofSchema input (some 0) 1 .partialAverage = .ok a₀ := rfl
  have hrow : row.Conforms input := by decide
  have ha : Built a₀.config a := .merge _ (.new rfl)
  exact ⟨h, hrow, by decide +kernel, (merges_conforming_iff h).mpr (fun _ => rfl) a ha row hrow⟩

/-- A schema without a column of counts is taken for a partial average all the same, and then its rows are too short. -/
theorem conforming_row_too_short :
    let input : Schema := ⟨[⟨"v", .int⟩]⟩
    let a₀ := empty ⟨none, 0, .int, .partialAverage⟩
    let row : Row := ⟨[.int 1]⟩
    ofSchema input none 0 .partialAverage = .ok a₀ ∧ Built a₀.config a₀ ∧ row.Conforms input ∧
      (InPlace.reply (mergeInPlace row) a₀).outcome = .error (.argument (.fieldOutOfRange 1 1)) :=
  ⟨rfl, .new rfl, by decide, by decide +kernel⟩

end Aggregator

end Rollup
