import Rollup.Sequence.Source

/-!
# Buffers

A `Buffer` is a row source over rows that are already there. The rows need not conform to its schema.
-/

namespace Rollup

/-- Rows in memory and a cursor over them. -/
structure Buffer where
  schema : Schema
  rows : Array Row
  cursor : Cursor
  deriving DecidableEq, Repr

namespace Buffer

/-- A closed buffer. -/
def ofRows (schema : Schema) (rows : List Row) : Buffer :=
  ⟨schema, rows.toArray, .closed⟩

/-- Open a closed buffer at its first row. -/
def start (b : Buffer) : Except Error Buffer := do
  return { b with cursor := ← b.cursor.start }

/-- Whether there is a row at the position. -/
def hasNext (b : Buffer) : Except Error Bool := do
  return (← b.cursor.positionFor "has_next") < b.rows.size

/-- The row at the position, or the error that there is none, which does not move the buffer. -/
def next (b : Buffer) : Reply Buffer Row :=
  match b.cursor.advance b.rows.size with
  | .ok (p, cursor) => ⟨.ok b.rows[p], { b with cursor }⟩
  | .error e => ⟨.error e, b⟩

/-- Take an open buffer back to its first row. -/
def rewind (b : Buffer) : Except Error Buffer := do
  return { b with cursor := ← b.cursor.rewind }

/-- Close a buffer, open or not. -/
def close (b : Buffer) : Buffer :=
  { b with cursor := b.cursor.close }

/-! ## Steps from a position -/

/-- An open buffer hands out the row at its position and moves to the next one. -/
theorem next_of_lt {b : Buffer} {p : Nat} (hc : b.cursor = ⟨some p⟩) (hp : p < b.rows.size) :
    b.next = ⟨.ok b.rows[p], { b with cursor := ⟨some (p + 1)⟩ }⟩ := by
  unfold next
  rw [hc, Cursor.advance_of_lt hp]
  rfl

/-- Past its rows a buffer is exhausted and stays where it is. -/
theorem next_of_le {b : Buffer} {p : Nat} (hc : b.cursor = ⟨some p⟩) (hp : b.rows.size ≤ p) :
    b.next = ⟨.error .exhausted, b⟩ := by
  unfold next
  rw [hc, Cursor.advance_of_le hp]

/-- An open buffer has another row as long as its position is one of a row. -/
theorem hasNext_of_open {b : Buffer} {p : Nat} (hc : b.cursor = ⟨some p⟩) :
    b.hasNext = .ok (decide (p < b.rows.size)) := by
  unfold hasNext
  rw [hc]
  rfl

/-- A row that is handed out is one fewer to come. -/
theorem left_next (b : Buffer) (row : Row) (h : b.next.outcome = .ok row) :
    b.next.state.cursor.left b.next.state.rows.size < b.cursor.left b.rows.size := by
  unfold next at *
  split at h
  · rename_i hc
    exact Cursor.left_advance hc
  · cases h

instance : RowSource Buffer where
  schema := schema
  start := start
  hasNext := hasNext
  next := next
  rewind := rewind
  close := close
  remaining b := b.cursor.left b.rows.size
  remaining_next := left_next

end Buffer

end Rollup
