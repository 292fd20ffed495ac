import Rollup.Reply

/-!
# Cursors

A `Cursor` is closed or stands at a position. `Cursor.advance` hands out the position and steps past it, as long as
it lies below the length that the call names; so a position that is handed out is an index. A call that fails leaves
the cursor where it is. `Cursor.call` runs any of the calls.
-/

namespace Rollup

/-- The position of an open cursor, or `none` for a closed one. -/
structure Cursor where
  position : Option Nat
  deriving DecidableEq, Repr

namespace Cursor

/-- A cursor that has not been opened. -/
def closed : Cursor :=
  ⟨none⟩

instance : Inhabited Cursor := ⟨closed⟩

/-- Whether a cursor stands at a position. -/
def isOpen (c : Cursor) : Bool :=
  c.position.isSome

/-- Open a closed cursor at position zero. -/
def start (c : Cursor) : Except Error Cursor :=
  match c.position with
  | none => .ok ⟨some 0⟩
  | some _ => .error (.protocol .alreadyOpen)

/-- The position of an open cursor; the error for a closed one names the call that asked. -/
def positionFor (c : Cursor) (call : String) : Except Error Nat :=
  match c.position with
  | some p => .ok p
  | none => .error (.protocol (.closed call))

/-- Hand out the position and step past it, unless `length` positions have been handed out. -/
def advance (c : Cursor) (length : Nat) : Except Error (Fin length × Cursor) := do
  let p ← c.positionFor "next"
  if h : p < length then return (⟨p, h⟩, ⟨some (p + 1)⟩) else throw .exhausted

/-- Take an open cursor back to position zero. -/
def rewind (c : Cursor) : Except Error Cursor := do
  let _ ← c.positionFor "rewind"
  return ⟨some 0⟩

/-- Close a cursor, open or not. -/
def close (_ : Cursor) : Cursor :=
  closed

/-- The number of positions below `length` that an open cursor has yet to hand out. -/
def left (c : Cursor) (length : Nat) : Nat :=
  match c.position with
  | none => 0
  | some p => length - p

/-! ## What the calls do -/

@[simp] theorem start_closed : start ⟨none⟩ = .ok ⟨some 0⟩ := rfl

@[simp] theorem start_open (p : Nat) : start ⟨some p⟩ = .error (.protocol .alreadyOpen) := rfl

@[simp] theorem positionFor_closed (call : String) : positionFor ⟨none⟩ call = .error (.protocol (.closed call)) := rfl

@[simp] theorem positionFor_open (p : Nat) (call : String) : positionFor ⟨some p⟩ call = .ok p := rfl

@[simp] theorem rewind_closed : rewind ⟨none⟩ = .error (.protocol (.closed "rewind")) := rfl

@[simp] theorem rewind_open (p : Nat) : rewind ⟨some p⟩ = .ok ⟨some 0⟩ := rfl

@[simp] theorem advance_closed (length : Nat) : advance ⟨none⟩ length = .error (.protocol (.closed "next")) := rfl

/-- A position below the length is handed out, and the cursor steps past it. -/
theorem advance_of_lt {p length : Nat} (h : p < length) :
    advance ⟨some p⟩ length = .ok (⟨p, h⟩, ⟨some (p + 1)⟩) := by
  simp only [advance, positionFor_open, bind, Except.bind, h, dite_true]
  rfl

/-- At the length and past it nothing is handed out. -/
theorem advance_of_le {p length : Nat} (h : length ≤ p) : advance ⟨some p⟩ length = .error .exhausted := by
  simp only [advance, positionFor_open, bind, Except.bind, Nat.not_lt.mpr h, dite_false]
  rfl

/-- A position is handed out by an open cursor that stands there, and the cursor then stands one further. -/
theorem advance_eq_ok_iff {c c' : Cursor} {length : Nat} {p : Fin length} :
    c.advance length = .ok (p, c') ↔ c.position = some p.val ∧ c' = ⟨some (p.val + 1)⟩ := by
  rcases c with ⟨_ | q⟩
  · simp
  · by_cases h : q < length
    · rw [advance_of_lt h]
      constructor
      · rintro ⟨⟩
        exact ⟨rfl, rfl⟩
      · rintro ⟨e, rfl⟩
        cases e
        rfl
    · rw [advance_of_le (Nat.le_of_not_lt h)]
      constructor
      · rintro ⟨⟩
      · rintro ⟨e, -⟩
        cases e
        exact absurd p.isLt h

/-- A position that is handed out is one fewer to come. -/
theorem left_advance {c c' : Cursor} {length : Nat} {p : Fin length} (h : c.advance length = .ok (p, c')) :
    c'.left length < c.left length := by
  obtain ⟨hc, rfl⟩ := advance_eq_ok_iff.mp h
  have hp := p.isLt
  simp only [left, hc]
  omega

/-! ## Runs of calls -/

/-- A call on a cursor. -/
inductive Call where
  | start
  /-- Ask for the position on behalf of another call. -/
  | position (call : String)
  | advance (length : Nat)
  | rewind
  | close
  deriving DecidableEq, Repr

/-- The cursor after a call that gives another one, or the cursor itself after a call that fails. -/
def moved (c : Cursor) : Except Error Cursor → Reply Cursor (Option Nat)
  | .ok c' => ⟨.ok none, c'⟩
  | .error e => ⟨.error e, c⟩

/-- Run a call. Asking for the position and advancing answer with a position. -/
def call (c : Cursor) : Call → Reply Cursor (Option Nat)
  | .start => c.moved c.start
  | .position name => ⟨(c.positionFor name).map some, c⟩
  | .advance length =>
    match c.advance length with
    | .ok (p, c') => ⟨.ok (some p.val), c'⟩
    | .error e => ⟨.error e, c⟩
  | .rewind => c.moved c.rewind
  | .close => ⟨.ok none, c.close⟩

end Cursor

end Rollup
