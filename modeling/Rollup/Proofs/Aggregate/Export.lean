import Rollup.Proofs.Aggregate.Soundness
import Rollup.Proofs.Batch.Repacking
import Rollup.Proofs.Sequence.Draining

/-!
# Exporting results

The schema of the result rows is made from the configuration alone, while every row is made from the key and the
accumulator of its group. In a sound table the two fit together (`Group.Fits.conforms`). So packing result rows into a
batch never fails, and all that can keep them from being exported is a group that cannot be finalized
(`Results.toBatch_of_rows`, `Results.toBatch_of_failed`, `export_of_built`).
-/

namespace Rollup

open RowSource

/-! ## One result row -/

/-- A summary fills the columns of its aggregate function with integers. -/
theorem Accumulator.types_of_finalize {acc : Accumulator} {summary : Summary} (h : acc.finalize = .ok summary) :
    summary.values.map Value.type = List.replicate acc.aggregate.outputWidth .int := by
  cases acc with
  | min n | max n | sum n | count n =>
    cases h
    rfl
  | average values =>
    obtain ⟨_, -, h⟩ := Outcome.bind_eq_ok_iff.mp h
    obtain ⟨q, -, h⟩ := Outcome.bind_eq_ok_iff.mp h
    cases h
    rfl
  | partialAverage s n =>
    simp only [finalize] at h
    split at h
    · cases h
    · obtain ⟨q, -, h⟩ := Outcome.bind_eq_ok_iff.mp h
      cases h
      rfl
  | sumAndCount values =>
    obtain ⟨_, -, h⟩ := Outcome.bind_eq_ok_iff.mp h
    cases h
    rfl

theorem Config.types_outputSchema (c : Config) :
    c.outputSchema.fields.map Field.type =
      (c.groupBy.map GroupBy.type).toList ++ List.replicate c.aggregate.outputWidth .int := by
  unfold outputSchema
  cases c.groupBy <;> cases c.aggregate <;> rfl

/-- The row of a group that belongs to a configuration has the output schema of the configuration. -/
theorem Group.Fits.conforms {c : Config} {g : Group} {row : Row} (hg : g.Fits c) (h : g.row = .ok row) :
    row.Conforms c.outputSchema := by
  obtain ⟨summary, hs, h⟩ := Outcome.bind_eq_ok_iff.mp h
  cases h
  have hkey : g.key.toList.map Value.type = (g.key.map Value.type).toList := by
    cases g.key <;> rfl
  rw [Row.Conforms, Config.types_outputSchema, List.map_append, Accumulator.types_of_finalize hs, hkey, hg.key,
    hg.aggregate]

/-! ## The rows that remain -/

namespace Results

variable {r : Results} {p : Nat} {rows : List Row} {e : Error}

/-- What open results hand out is the row of a group of their aggregator. -/
theorem exists_group_of_next {row : Row} (h : r.next.outcome = .ok row) :
    ∃ g ∈ r.aggregator.groups, g.row = .ok row := by
  unfold next at h
  split at h
  · rename_i p _ _
    exact ⟨_, Array.getElem_mem p.isLt, h⟩
  · cases h

/-- If every remaining group has a row, then these rows are exported, and the results stand at their end. -/
theorem toBatch_of_rows (hr : ∀ g ∈ r.aggregator.groups, ∀ row, g.row = .ok row → row.Conforms r.schema)
    (hc : r.cursor = ⟨some p⟩) (h : (r.aggregator.groups.toList.drop p).map Group.row = rows.map .ok) :
    ∃ b, r.toBatch = ⟨.ok b, { r with cursor := ⟨some (p + rows.length)⟩ }⟩ ∧
      b.fields = r.schema.columnFields ∧ b.rowCount = rows.length ∧ b.unpack = .ok rows := by
  have hrows : ∀ row ∈ rows, row.Conforms r.schema := by
    intro row hm
    have hm := List.mem_map_of_mem (f := Except.ok (ε := Error)) hm
    rw [← h] at hm
    obtain ⟨g, hg, hrow⟩ := List.mem_map.mp hm
    exact hr g (Array.mem_toList_iff.mp (List.mem_of_mem_drop hg)) row hrow
  obtain ⟨b, hpack, hunpack⟩ := Batch.unpack_pack_of_conforms hrows
  obtain ⟨hcount, hfields⟩ := Batch.fields_of_pack hpack
  refine ⟨b, ?_, hfields, hcount, hunpack⟩
  unfold toBatch
  rw [collect_of_rows hc h]
  exact congrArg (Reply.mk · _) hpack

/-- The first remaining group without a row ends the export with its error, and the results have passed it. -/
theorem toBatch_of_failed {before after : List Group} {g : Group} (hc : r.cursor = ⟨some p⟩)
    (hrest : r.aggregator.groups.toList.drop p = before ++ g :: after)
    (hbefore : ∀ g' ∈ before, ∃ row, g'.row = .ok row) (hg : g.row = .error e) :
    r.toBatch = ⟨.error e, { r with cursor := ⟨some (p + before.length + 1)⟩ }⟩ := by
  obtain ⟨rows, hrows⟩ := Outcome.exists_mapM_eq_ok_iff.mpr hbefore
  have hmap : (r.aggregator.groups.toList.drop p).map Group.row = rows.map .ok ++ .error e :: after.map Group.row := by
    rw [hrest, List.map_append, List.map_cons, hg, Outcome.mapM_eq_ok_iff.mp hrows]
  unfold toBatch
  rw [collect_of_failed hc hmap, Outcome.length_of_mapM hrows]
  rfl

end Results

/-! ## Tables that are built -/

namespace Aggregator

/-- **Result rows fit the published schema.** In an aggregator that can be built, every row that its results hand out
has the types of the output schema. So from any position on, the results can be exported exactly if every remaining
group can be finalized: the batch has the columns of the schema and the rows that collecting would give, and the results
stand at their end. Otherwise the first group that cannot be finalized ends the export with its error, an overflow or a
count of zero, and the results stand right after it; packing the rows is never what fails. -/
theorem export_of_built {c : Config} {a : Aggregator} (h : Built c a) :
    (∀ r : Results, r.aggregator = a → ∀ row, r.next.outcome = .ok row → row.Conforms c.outputSchema) ∧
    ∀ p : Nat,
      let r : Results := ⟨a, ⟨some p⟩⟩
      let rest := a.groups.toList.drop p
      ((∃ b, r.toBatch.outcome = .ok b) ↔ ∀ g ∈ rest, ∃ row, g.row = .ok row) ∧
      (∀ b, r.toBatch.outcome = .ok b →
        r.toBatch.state = ⟨a, ⟨some (max p a.groupCount)⟩⟩ ∧ b.fields = c.outputSchema.columnFields ∧
        ∃ rows, rest.map Group.row = rows.map .ok ∧ (collect r).outcome = .ok rows ∧ b.rowCount = rows.length ∧
          b.unpack = .ok rows) ∧
      (∀ before g after e, rest = before ++ g :: after → (∀ g' ∈ before, ∃ row, g'.row = .ok row) →
        g.row = .error e → r.toBatch = ⟨.error e, ⟨a, ⟨some (p + before.length + 1)⟩⟩⟩) ∧
      ∀ e, r.toBatch.outcome = .error e → (∃ quantity, e = .overflow quantity) ∨ e = .argument .zeroPartialCount := by
  obtain ⟨hs, rfl⟩ := h.sound
  have hconforms : ∀ g ∈ a.groups, ∀ row, g.row = .ok row → row.Conforms a.config.outputSchema := fun g hg _ =>
    (hs.fits g hg).conforms
  refine ⟨?_, ?_⟩
  · rintro r rfl row hrow
    obtain ⟨g, hg, hrow⟩ := r.exists_group_of_next hrow
    exact hconforms g hg row hrow
  intro p r rest
  -- the remaining groups are finalized one after another: all of them, or up to a first failure
  have hiff : (∃ rows, rest.mapM Group.row = .ok rows) ↔ ∀ g ∈ rest, ∃ row, g.row = .ok row :=
    Outcome.exists_mapM_eq_ok_iff
  have hfailed : ∀ before g after e, rest = before ++ g :: after → (∀ g' ∈ before, ∃ row, g'.row = .ok row) →
      g.row = .error e → r.toBatch = ⟨.error e, ⟨a, ⟨some (p + before.length + 1)⟩⟩⟩ := fun _ _ _ _ hsplit =>
    r.toBatch_of_failed rfl hsplit
  cases hrest : rest.mapM Group.row with
  | ok rows =>
    have hrows := Outcome.mapM_eq_ok_iff.mp hrest
    obtain ⟨b, hb, hfields, hcount, hunpack⟩ := r.toBatch_of_rows hconforms rfl hrows
    have hend : p + rows.length = max p a.groupCount := by
      rw [Outcome.length_of_mapM hrest, List.length_drop, Array.length_toList, groupCount]
      omega
    refine ⟨iff_of_true ⟨b, by rw [hb]⟩ (hiff.mp ⟨rows, hrest⟩), ?_, hfailed, ?_⟩
    · rw [hb, hend]
      rintro _ ⟨⟩
      exact ⟨rfl, hfields, rows, hrows, by rw [r.collect_of_rows rfl hrows], hcount, hunpack⟩
    · rw [hb]
      rintro _ ⟨⟩
  | error e =>
    obtain ⟨before, g, after, hsplit, hbefore, hg⟩ := Outcome.mapM_eq_error_iff.mp hrest
    have hb := hfailed before g after e hsplit (Outcome.exists_mapM_eq_ok_iff.mp hbefore) hg
    refine ⟨iff_of_false ?_ ?_, ?_, hfailed, ?_⟩
    · rw [hb]
      rintro ⟨_, ⟨⟩⟩
    · rw [← hiff, hrest]
      rintro ⟨_, ⟨⟩⟩
    · rw [hb]
      rintro _ ⟨⟩
    · rw [hb]
      rintro _ ⟨⟩
      obtain hg | ⟨_, _, ⟨⟩⟩ := Outcome.bind_eq_error_iff.mp hg
      exact Accumulator.error_of_finalize hg

/-- The average of the first group overflows; from the second group on there is a batch. -/
theorem export_of_built_average :
    let c : Config := ⟨some ⟨0, .text⟩, 1, .int, .average⟩
    let a := (((empty c).offer ⟨[.text "b", .int Int64.maxValue]⟩).offer ⟨[.text "a", .int (-5)]⟩).offer
      ⟨[.text "b", .int 1]⟩
    Built c a ∧ (⟨a, ⟨some 0⟩⟩ : Results).toBatch = ⟨.error (.overflow .averageSum), ⟨a, ⟨some 1⟩⟩⟩ ∧
      ∃ b, (⟨a, ⟨some 1⟩⟩ : Results).toBatch.outcome = .ok b ∧
        b.fields = [⟨"groupVal", .utf8, false⟩, ⟨"aggregateVal", .int64, false⟩] ∧
        b.unpack = .ok [⟨[.text "a", .int (-5)]⟩] := by
  intro c a
  have h : Built c a := .merge _ (.merge _ (.merge _ (.new rfl)))
  have hgroups : a.groups.toList =
      [⟨some (.text "b"), .average #[Int64.maxValue, 1]⟩, ⟨some (.text "a"), .average #[-5]⟩] := by
    decide +kernel
  obtain ⟨-, hexport⟩ := export_of_built h
  obtain ⟨-, -, hfailed, -⟩ := hexport 0
  obtain ⟨hiff, hbatch, -⟩ := hexport 1
  rw [hgroups] at hfailed hiff hbatch
  obtain ⟨b, hb⟩ := hiff.mpr (by simpa using ⟨_, rfl⟩)
  obtain ⟨-, hfields, rows, hrows, -, -, hunpack⟩ := hbatch b hb
  refine ⟨h, hfailed [] _ _ _ rfl nofun (by decide +kernel), b, hb, hfields, hunpack.trans ?_⟩
  obtain ⟨row, rfl⟩ := List.length_eq_one_iff.mp (by simpa using (congrArg List.length hrows).symm)
  cases (List.singleton_inj.mp hrows)
  rfl

end Aggregator

end Rollup
