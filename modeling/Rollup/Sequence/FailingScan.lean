import Rollup.Sequence.Source

/-!
# Failing scans

A `FailingScan` is a row source whose storage breaks after its rows: it hands them out, always claims to have another
one, and then fails to read it. It counts how often it has been closed.
-/

namespace Rollup

/-- The rows before the break, a cursor over them, and the number of times the scan has been closed. -/
structure FailingScan where
  schema : Schema
  rows : Array Row
  cursor : Cursor
  closings : Nat
  deriving DecidableEq, Repr

namespace FailingScan

/-- A closed scan that has never been closed before. -/
def ofRows (schema : Schema) (rows : List Row) : FailingScan :=
  ⟨schema, rows.toArray, .closed, 0⟩

/-- What reading past the rows gives. -/
def readError : Error :=
  .io "page read failed"

/-- Open a closed scan at its first row. -/
def start (s : FailingScan) : Except Error FailingScan := do
  return { s with cursor := ← s.cursor.start }

/-- An open scan always claims to have another row. -/
def hasNext (s : FailingScan) : Except Error Bool := do
  let _ ← s.cursor.positionFor "has_next"
  return true

/-- The next row, or the read error past the last one, which does not move the scan. -/
def next (s : FailingScan) : Reply FailingScan Row :=
  match s.cursor.advance s.rows.size with
  | .ok (p, cursor) => ⟨.ok s.rows[p], { s with cursor }⟩
  | .error .exhausted => ⟨.error readError, s⟩
  | .error e => ⟨.error e, s⟩

/-- Take an open scan back to its first row. -/
def rewind (s : FailingScan) : Except Error FailingScan := do
  return { s with cursor := ← s.cursor.rewind }

/-- Close a scan, open or not, and count it. -/
def close (s : FailingScan) : FailingScan :=
  { s with cursor := s.cursor.close, closings := s.closings + 1 }

/-! ## Steps from a position -/

/-- An open scan hands out the row at its position and moves to the next one. -/
theorem next_of_lt {s : FailingScan} {p : Nat} (hc : s.cursor = ⟨some p⟩) (hp : p < s.rows.size) :
    s.next = ⟨.ok s.rows[p], { s with cursor := ⟨some (p + 1)⟩ }⟩ := by
  unfold next
  rw [hc, Cursor.advance_of_lt hp]
  rfl

/-- Past its rows a scan breaks and stays where it is. -/
theorem next_of_le {s : FailingScan} {p : Nat} (hc : s.cursor = ⟨some p⟩) (hp : s.rows.size ≤ p) :
    s.next = ⟨.error readError, s⟩ := by
  unfold next
  rw [hc, Cursor.advance_of_le hp]

/-- An open scan has another row wherever it stands. -/
theorem hasNext_of_open {s : FailingScan} {p : Nat} (hc : s.cursor = ⟨some p⟩) : s.hasNext = .ok true := by
  unfold hasNext
  rw [hc]
  rfl

/-- A row that is handed out is one fewer to come. -/
theorem left_next (s : FailingScan) (row : Row) (h : s.next.outcome = .ok row) :
    s.next.state.cursor.left s.next.state.rows.size < s.cursor.left s.rows.size := by
  unfold next at *
  split at h
  · rename_i hc
    exact Cursor.left_advance hc
  · cases h
  · cases h

instance : RowSource FailingScan where
  schema := schema
  start := start
  hasNext := hasNext
  next := next
  rewind := rewind
  close := close
  remaining s := s.cursor.left s.rows.size
  remaining_next := left_next

end FailingScan

end Rollup
