import Rollup.Aggregate.Aggregator

/-!
# Results

`Results` is the row source over the groups of an aggregator, in the order of their first rows. A group is finalized
when its row is pulled, and the cursor has then moved past it even if the finalization fails. So every pass gives the
same outcomes, and pulling can go on after a failure.

`Readers` are several `Results` over one aggregator, numbered in the order in which they were made.
-/

namespace Rollup

/-- An aggregator and a cursor over its groups. -/
structure Results where
  aggregator : Aggregator
  cursor : Cursor

namespace Results

/-- The results of an aggregator, not yet open. -/
def ofAggregator (a : Aggregator) : Results :=
  ⟨a, .closed⟩

/-- The results of an aggregator, open at its first group. -/
def opened (a : Aggregator) : Results :=
  ⟨a, ⟨some 0⟩⟩

/-- The schema of the result rows. -/
def schema (r : Results) : Schema :=
  r.aggregator.config.outputSchema

/-- Open closed results at the first row. -/
def start (r : Results) : Except Error Results := do
  return { r with cursor := ← r.cursor.start }

/-- Whether there is a group at the position. -/
def hasNext (r : Results) : Except Error Bool := do
  return (← r.cursor.positionFor "has_next") < r.aggregator.groups.size

/-- The row of the next group, or the error of finalizing it; either way the group is passed. -/
def next (r : Results) : Reply Results Row :=
  match r.cursor.advance r.aggregator.groups.size with
  | .ok (p, cursor) => ⟨r.aggregator.groups[p].row, { r with cursor }⟩
  | .error e => ⟨.error e, r⟩

/-- Take open results back to the first row. -/
def rewind (r : Results) : Except Error Results := do
  return { r with cursor := ← r.cursor.rewind }

/-- Close results, open or not. -/
def close (r : Results) : Results :=
  { r with cursor := r.cursor.close }

/-- Fresh results open at the first group. -/
theorem start_ofAggregator (a : Aggregator) : (ofAggregator a).start = .ok (opened a) := rfl

/-! ## Steps from a position -/

/-- Open results finalize the group at their position and move to the next one. -/
theorem next_of_lt {r : Results} {p : Nat} (hc : r.cursor = ⟨some p⟩) (hp : p < r.aggregator.groups.size) :
    r.next = ⟨r.aggregator.groups[p].row, { r with cursor := ⟨some (p + 1)⟩ }⟩ := by
  unfold next
  rw [hc, Cursor.advance_of_lt hp]
  rfl

/-- Past the groups there is no row, and the results stay where they are. -/
theorem next_of_le {r : Results} {p : Nat} (hc : r.cursor = ⟨some p⟩) (hp : r.aggregator.groups.size ≤ p) :
    r.next = ⟨.error .exhausted, r⟩ := by
  unfold next
  rw [hc, Cursor.advance_of_le hp]

/-- Open results have another row as long as their position is one of a group. -/
theorem hasNext_of_open {r : Results} {p : Nat} (hc : r.cursor = ⟨some p⟩) :
    r.hasNext = .ok (decide (p < r.aggregator.groups.size)) := by
  unfold hasNext
  rw [hc]
  rfl

/-- A row that is handed out is one fewer to come. -/
theorem left_next (r : Results) (row : Row) (h : r.next.outcome = .ok row) :
    r.next.state.cursor.left r.next.state.aggregator.groups.size < r.cursor.left r.aggregator.groups.size := by
  unfold next at *
  split at h
  · rename_i hc
    exact Cursor.left_advance hc
  · cases h

instance : RowSource Results where
  schema := schema
  start := start
  hasNext := hasNext
  next := next
  rewind := rewind
  close := close
  remaining r := r.cursor.left r.aggregator.groups.size
  remaining_next := left_next

/-- The remaining result rows as one batch. -/
def toBatch (r : Results) : Reply Results Batch :=
  let rows := RowSource.collect r
  ⟨rows.outcome.bind (Batch.pack r.schema), rows.state⟩

end Results

/-- What a pass over all groups gives: the row or the error of each. -/
def Aggregator.results (a : Aggregator) : List (Except Error Row) :=
  RowSource.outcomes (Results.opened a) (a.groupCount + 1)

/-! ## Several readers -/

/-- Cursors over the groups of one aggregator. -/
structure Readers where
  aggregator : Aggregator
  cursors : Array Cursor

namespace Readers

/-- No readers yet. -/
def ofAggregator (a : Aggregator) : Readers :=
  ⟨a, #[]⟩

/-- One more reader, not yet open. Its number is the number of readers before it. -/
def add (rs : Readers) : Readers :=
  { rs with cursors := rs.cursors.push .closed }

/-- The results that a reader stands in. -/
def reader? (rs : Readers) (i : Nat) : Option Results :=
  rs.cursors[i]?.map fun cursor => ⟨rs.aggregator, cursor⟩

/-- Run a call on a reader; the other readers do not move. -/
def run {α : Type} (rs : Readers) (i : Nat) (call : Results → Reply Results α) : Option (Reply Readers α) :=
  (rs.reader? i).map fun r =>
    (call r).mapState fun r' => { rs with cursors := rs.cursors.setIfInBounds i r'.cursor }

end Readers

end Rollup
