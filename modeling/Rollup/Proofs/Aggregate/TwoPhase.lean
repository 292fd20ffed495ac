import Rollup.Proofs.Aggregate.Acceptance
import Rollup.Proofs.Aggregate.Reading

/-!
# Aggregating results

The results of an aggregator are rows, and another aggregator can take them in: `mergeResults` feeds it the results of
several aggregators one after another, which is to merge all their result rows (`mergeResults_of_finalizes`).
`Config.overField` aggregates the integers in a field, `Config.overResults` the integers in the first result column.

Let a list of rows be cut into chunks, and each chunk be aggregated on its own. `Config.Digests` says which result rows
a chunk has: one for each of its keys, the entry of the rows with that key. Looked at by `Config.overResults`, the
result rows of all chunks have the keys of the rows in the same order of first arrival (`Digests.keys`). The rows of a
key are in parts, one in each chunk in which the key occurs (`Config.partsOf`), and for each part there is one result row
(`Digests.entries`).
-/

namespace Rollup

open Exact

namespace Config

/-- A configuration over the integers in a field. -/
def overField (groupBy : Option GroupBy) (field : Nat) (f : Aggregate) : Config :=
  ⟨groupBy, field, .int, f⟩

/-- A configuration over the integers in the first result column, by the same groups. -/
def overResults : Option GroupBy → Aggregate → Config
  | none, f => ⟨none, 0, .int, f⟩
  | some g, f => ⟨some ⟨0, g.type⟩, 1, .int, f⟩

@[simp] theorem overResults_fieldType (groupBy : Option GroupBy) (f : Aggregate) :
    (overResults groupBy f).fieldType = .int := by
  cases groupBy <;> rfl

@[simp] theorem overResults_aggregate (groupBy : Option GroupBy) (f : Aggregate) :
    (overResults groupBy f).aggregate = f := by
  cases groupBy <;> rfl

end Config

namespace Aggregator

variable {a : Aggregator} {parts : List Aggregator}

theorem ofConfig_overField (groupBy : Option GroupBy) (field : Nat) {f : Aggregate} (hf : f ≠ .partialAverage) :
    ofConfig (.overField groupBy field f) = .ok (empty (.overField groupBy field f)) := by
  cases f with
  | partialAverage => exact absurd rfl hf
  | _ => rfl

theorem ofConfig_overResults (groupBy : Option GroupBy) (f : Aggregate) :
    ofConfig (.overResults groupBy f) = .ok (empty (.overResults groupBy f)) := by
  cases groupBy <;> cases f <;> rfl

/-! ## Feeding results -/

/-- Aggregate every chunk of a list of rows on its own. -/
def perChunk (c : Config) (chunks : List (List Row)) : List (Reply Aggregator Unit) :=
  chunks.map (empty c).mergeAll

/-- Feed the results of aggregators to an aggregator, one after another up to the first failure. -/
def mergeResults (a : Aggregator) : List Aggregator → Reply Aggregator Unit
  | [] => ⟨.ok (), a⟩
  | part :: parts =>
    let r := a.mergeFrom (Results.ofAggregator part)
    match r.outcome with
    | .ok () => r.state.1.mergeResults parts
    | .error e => ⟨.error e, r.state.1⟩

theorem mergeFrom_results (a part : Aggregator) :
    (a.mergeFrom (Results.ofAggregator part)).mapState Prod.fst = absorbOutcomes merge a part.results := by
  rw [results_eq]
  exact RowSource.pass_eq_absorbOutcomes (Results.start_ofAggregator part)
    (RowSource.delivers_results (r := Results.opened part) (p := 0) rfl) a

/-- Results are fed as the outcomes of all groups of all aggregators in order. -/
theorem mergeResults_eq (a : Aggregator) (parts : List Aggregator) :
    a.mergeResults parts = absorbOutcomes merge a (parts.map results).flatten := by
  induction parts generalizing a with
  | nil => rfl
  | cons part parts ih =>
    rw [mergeResults, List.map_cons, List.flatten_cons, absorbOutcomes_append, ← mergeFrom_results]
    rcases a.mergeFrom (Results.ofAggregator part) with ⟨⟨e⟩ | ⟨⟩, b⟩
    · rfl
    · exact ih b.1

/-- If every group has a result row, then feeding results is merging rows. -/
theorem mergeResults_of_finalizes (h : ∀ part ∈ parts, part.Finalizes) :
    a.mergeResults parts = a.mergeAll (parts.map resultRows).flatten := by
  have hrows : parts.map results = (parts.map resultRows).map (List.map .ok) := by
    rw [List.map_map]
    exact List.map_congr_left fun part hm => finalizes_iff.mp (h part hm)
  rw [mergeResults_eq, hrows, ← List.map_flatten, absorbOutcomes_map_ok, mergeAll]

theorem finalizes_of_mergeResults (h : (a.mergeResults parts).outcome = .ok ()) : ∀ part ∈ parts, part.Finalizes := by
  rw [mergeResults_eq] at h
  intro part hm outcome ho
  cases outcome with
  | ok row => exact ⟨row, rfl⟩
  | error e =>
    have hmem := List.mem_flatten.mpr ⟨part.results, List.mem_map_of_mem hm, ho⟩
    exact absurd hmem (error_not_mem_of_absorbOutcomes_ok h e)

end Aggregator

/-! ## Result rows as rows -/

variable {c : Config} {f : Aggregate} {key : GroupKey} {row : Row} {rows results : List Row}

theorem Aggregator.readable_of_perChunk {chunks : List (List Row)}
    (hok : ∀ part ∈ perChunk c chunks, part.outcome = .ok ()) : ∀ row ∈ chunks.flatten, c.Readable row := by
  intro row hm
  obtain ⟨chunk, hchunk, hrow⟩ := List.mem_flatten.mp hm
  exact (mergeAll_isOk_iff.mp (hok _ (List.mem_map_of_mem hchunk))).1 row hrow

theorem Config.readable_overField {groupBy : Option GroupBy} {field : Nat} (hf : f ≠ .partialAverage) :
    (overField groupBy field f).Readable row ↔
      (∀ g ∈ groupBy, row.typeAt g.index = some g.type) ∧ row.typeAt field = some .int := by
  rw [Readable, observedType_of_int rfl]
  simp only [overField, hf, false_imp_iff, and_true]

theorem Config.type_keyOf (h : c.Readable row) : (c.keyOf row).map Value.type = c.groupBy.map GroupBy.type := by
  obtain ⟨hgroup, -⟩ := h
  unfold keyOf
  cases hg : c.groupBy with
  | none => rfl
  | some g => exact hgroup g hg

section ResultRow

variable {ns : List Int64} (hkey : key.map Value.type = c.groupBy.map GroupBy.type)
include hkey

/-- A result row has the key of its group. -/
theorem Config.keyOf_resultRow : (overResults c.groupBy f).keyOf ⟨key.toList ++ ns.map .int⟩ = key := by
  cases hg : c.groupBy <;> cases key <;> simp_all [overResults, keyOf]

theorem Config.number_resultRow {n : Int64} (hn : ns[0]? = some n) :
    Row.number ⟨key.toList ++ ns.map .int⟩ (overResults c.groupBy f).field = n.toInt := by
  cases hg : c.groupBy <;> cases key <;> simp_all [overResults, Row.number]

theorem Config.count_resultRow {n : Int64} (hn : ns[1]? = some n) :
    Row.number ⟨key.toList ++ ns.map .int⟩ (overResults c.groupBy f).countColumn = n.toInt := by
  cases hg : c.groupBy <;> cases key <;> simp_all [overResults, countColumn, Row.number]

/-- A result row can be read again if it has the columns that are asked for. -/
theorem Config.readable_resultRow (hsum : 0 < ns.length) (hcount : f = .partialAverage → 1 < ns.length) :
    (overResults c.groupBy f).Readable ⟨key.toList ++ ns.map .int⟩ := by
  rw [Readable, observedType_of_int (overResults_fieldType c.groupBy f)]
  cases hg : c.groupBy <;> cases key <;> simp_all [overResults, countColumn, Row.typeAt, Value.type]

end ResultRow

/-! ## Result rows of chunks -/

/-- One result row for every key of the rows, in order of first arrival. -/
def Config.Digests (c : Config) (rows results : List Row) : Prop :=
  List.Forall₂ (fun key row => c.Entry key (rows.filter (c.keyOf · = key)) (.ok row)) (rows.map c.keyOf).eraseDups
    results

theorem Aggregator.Tabulates.digests {a : Aggregator} (ht : a.Tabulates rows) (hf : a.Finalizes) :
    a.config.Digests rows a.resultRows := by
  have h := ht.consistent.results_eq_outcomes
  rw [finalizes_iff.mp hf, ht.keys_eq, List.map_map, eq_comm, ← List.forall₂_eq_eq_eq, List.forall₂_map_left_iff,
    List.forall₂_map_right_iff] at h
  exact h.imp fun key row hrow => ht.entry_row hrow

/-- The parts that the rows of a key make up in chunks, without the empty ones. -/
def Config.partsOf (c : Config) (key : GroupKey) (chunks : List (List Row)) : List (List Row) :=
  (chunks.map (·.filter (c.keyOf · = key))).filter (· ≠ [])

theorem Config.flatten_partsOf (c : Config) (key : GroupKey) (chunks : List (List Row)) :
    (c.partsOf key chunks).flatten = chunks.flatten.filter (c.keyOf · = key) := by
  rw [partsOf, List.flatten_filter_ne_nil, List.filter_flatten]

namespace Config.Digests

open Aggregator

/-- A result row belongs to its key again. -/
theorem keyOf (h : c.Digests rows results) (hr : ∀ row ∈ rows, c.Readable row) :
    List.Forall₂ (fun key row => (overResults c.groupBy f).keyOf row = key ∧
      (key.map Value.type = c.groupBy.map GroupBy.type ∧ c.Entry key (rows.filter (c.keyOf · = key)) (.ok row)))
      (rows.map c.keyOf).eraseDups results := by
  have htypes : ∀ key ∈ (rows.map c.keyOf).eraseDups, key.map Value.type = c.groupBy.map GroupBy.type := by
    intro key hm
    obtain ⟨row, hrow, rfl⟩ := List.mem_map.mp (List.mem_eraseDups.mp hm)
    exact type_keyOf (hr row hrow)
  refine ((List.forall₂_and_left _ _).mpr ⟨htypes, h⟩).imp ?_
  rintro key row ⟨htype, hentry⟩
  obtain ⟨ns, rfl, -⟩ := hentry.exists_of_ok
  exact ⟨keyOf_resultRow htype, htype, hentry⟩

/-- The result rows of chunks that are merged and read without a failure. -/
theorem of_perChunk {chunks : List (List Row)} (hok : ∀ part ∈ perChunk c chunks, part.outcome = .ok ())
    (hfin : ∀ part ∈ perChunk c chunks, part.state.Finalizes) :
    List.Forall₂ c.Digests chunks ((perChunk c chunks).map fun part => part.state.resultRows) := by
  rw [perChunk, List.map_map, List.forall₂_map_right_iff, List.forall₂_same]
  intro chunk hm
  have hpart := List.mem_map_of_mem (f := (empty c).mergeAll) hm
  obtain ⟨ht, hconf⟩ := tabulates_mergeAll (hok _ hpart)
  have h := ht.digests (hfin _ hpart)
  rwa [hconf] at h

/-- The keys of the rows come back from the result rows of their chunks, in the same order. -/
theorem keys {chunks digests : List (List Row)} (h : List.Forall₂ c.Digests chunks digests)
    (hr : ∀ row ∈ chunks.flatten, c.Readable row) :
    (digests.flatten.map (overResults c.groupBy f).keyOf).eraseDups = (chunks.flatten.map c.keyOf).eraseDups := by
  have hkeys : digests.map (List.map (overResults c.groupBy f).keyOf) =
      (chunks.map (List.map c.keyOf)).map List.eraseDups := by
    induction h with
    | nil => rfl
    | @cons rows results chunks digests hd _ ih =>
      have hhead := hd.keyOf (f := f) fun row hm => hr row (by simp [hm])
      rw [List.map_cons, List.map_cons, List.map_cons, ih fun row hm => hr row (by simp_all)]
      congr 1
      rw [eq_comm, ← List.forall₂_eq_eq_eq, List.forall₂_map_right_iff]
      exact hhead.imp fun key row hrow => hrow.1.symm
  rw [List.map_flatten, hkeys, eraseDups_flatten, List.map_flatten]

/-- A key has one result row if it occurs among the rows, and none otherwise. -/
theorem filter (h : c.Digests rows results) (hr : ∀ row ∈ rows, c.Readable row) (key : GroupKey) :
    (rows.filter (c.keyOf · = key) = [] ∧ results.filter ((overResults c.groupBy f).keyOf · = key) = []) ∨
    rows.filter (c.keyOf · = key) ≠ [] ∧
      ∃ row, results.filter ((overResults c.groupBy f).keyOf · = key) = [row] ∧
      key.map Value.type = c.groupBy.map GroupBy.type ∧ c.Entry key (rows.filter (c.keyOf · = key)) (.ok row) := by
  rcases filter_of_forall₂ (h.keyOf hr) (nodup_eraseDups _) key with ⟨hm, hrow⟩ | ⟨hm, hnone⟩
  · exact .inr ⟨mem_eraseDups_map_iff.mp hm, hrow⟩
  · exact .inl ⟨not_not.mp (mt mem_eraseDups_map_iff.mpr hm), hnone⟩

/-- Result rows can be read again; only subtotals have the column of counts. -/
theorem readable (h : c.Digests rows results) (hr : ∀ row ∈ rows, c.Readable row)
    (hf : f = .partialAverage → c.aggregate = .sumAndCount) :
    ∀ row ∈ results, (overResults c.groupBy f).Readable row := by
  intro row hm
  have hrow : row ∈ results.filter ((overResults c.groupBy f).keyOf · = (overResults c.groupBy f).keyOf row) :=
    List.mem_filter.mpr ⟨hm, by simp⟩
  rcases h.filter hr ((overResults c.groupBy f).keyOf row) with ⟨-, hnone⟩ | ⟨hne, row', hsingle, hkey, hentry⟩
  · rw [hnone] at hrow
    cases hrow
  · rw [hsingle, List.mem_singleton] at hrow
    subst hrow
    obtain ⟨ns, hns, hreport⟩ := hentry.exists_of_ok
    have hlen := length_of_report hne hreport
    rw [List.length_map] at hlen
    rw [hns]
    refine readable_resultRow hkey ?_ fun hpartial => ?_
    · rw [hlen]
      cases c.aggregate <;> decide
    · rw [hlen, hf hpartial]
      decide

theorem readable_flatten {chunks digests : List (List Row)} (h : List.Forall₂ c.Digests chunks digests)
    (hr : ∀ row ∈ chunks.flatten, c.Readable row) (hf : f = .partialAverage → c.aggregate = .sumAndCount) :
    ∀ row ∈ digests.flatten, (overResults c.groupBy f).Readable row := by
  induction h with
  | nil => simp
  | cons hd _ ih =>
    simp only [List.flatten_cons, List.mem_append] at hr ⊢
    rintro row (hm | hm)
    · exact hd.readable (fun row hrow => hr row (.inl hrow)) hf row hm
    · exact ih (fun row hrow => hr row (.inr hrow)) row hm

/-- The result rows of a key stand for its parts, one for each. -/
theorem entries {chunks digests : List (List Row)} (h : List.Forall₂ c.Digests chunks digests)
    (hr : ∀ row ∈ chunks.flatten, c.Readable row) (f : Aggregate) (key : GroupKey) :
    List.Forall₂ (fun part row => part ≠ [] ∧ key.map Value.type = c.groupBy.map GroupBy.type ∧
      c.Entry key part (.ok row)) (c.partsOf key chunks)
      (digests.flatten.filter ((overResults c.groupBy f).keyOf · = key)) := by
  induction h with
  | nil => exact .nil
  | @cons rows results chunks digests hd _ ih =>
    have ih := ih fun row hm => hr row (by simp_all)
    have hrows : ∀ row ∈ rows, c.Readable row := fun row hm => hr row (by simp [hm])
    rw [List.flatten_cons, List.filter_append, partsOf, List.map_cons]
    rcases hd.filter hrows key with ⟨hnone, hnone'⟩ | ⟨hne, row, hrow, hkey, hentry⟩
    · rw [hnone', List.filter_cons_of_neg (by simpa using hnone)]
      exact ih
    · rw [hrow, List.filter_cons_of_pos (by simpa using hne)]
      exact .cons ⟨hne, hkey, hentry⟩ ih

end Config.Digests

end Rollup
