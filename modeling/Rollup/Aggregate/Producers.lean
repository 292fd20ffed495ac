import Rollup.Aggregate.Aggregator

/-!
# Producers

Several producers can feed one aggregator: each holds a handle to a `Cell`, which guards the aggregator by a lock.
`Producers` are all cells and all handles ever made; a handle names its cell until it is dropped or spent. A producer
that panics while it holds the lock poisons the cell for good.

The build phase of a cell ends when its last handle is spent by `Step.release`, which takes the aggregator out. The
aggregator released last can be shared again, in a new cell.
-/

namespace Rollup

/-- An aggregator behind a lock. -/
structure Cell where
  aggregator : Aggregator
  /-- A producer has panicked while it held the lock. -/
  poisoned : Bool

/-- The cells, the cell of every handle that is alive, and the aggregator that was released last. -/
structure Producers where
  cells : Array Cell
  handles : Array (Option Nat)
  released : Option Aggregator

namespace Producers

/-- One handle, number zero, to an aggregator. -/
def ofAggregator (a : Aggregator) : Producers :=
  ⟨#[⟨a, false⟩], #[some 0], none⟩

/-- The cell of a handle that is alive. -/
def cellOf? (p : Producers) (handle : Nat) : Option Nat :=
  p.handles[handle]?.join

/-- The number of handles to a cell that are alive. -/
def live (p : Producers) (cell : Nat) : Nat :=
  p.handles.count (some cell)

/-- The producers without a handle. -/
def drop (p : Producers) (handle : Nat) : Producers :=
  { p with handles := p.handles.setIfInBounds handle none }

/-! ## Steps -/

/-- What a producer does with its handle. -/
inductive Step where
  /-- Make another handle to the same cell. -/
  | clone (handle : Nat)
  | drop (handle : Nat)
  | merge (handle : Nat) (row : Row)
  /-- Merge rows under one lock. -/
  | mergeAll (handle : Nat) (rows : List Row)
  /-- Merge rows under one lock, and panic when there are no more. -/
  | mergeAllPanicking (handle : Nat) (rows : List Row)
  /-- End the build phase and take the aggregator out. -/
  | release (handle : Nat)
  /-- Share the aggregator that was released last. -/
  | reshare
  deriving DecidableEq, Repr

/-- What a step answers. -/
inductive Answer where
  | done
  /-- The number of the handle made. -/
  | handle (number : Nat)
  | panicked
  | aggregator (a : Aggregator)

/-- Run a call under the lock of a cell, which fails on a poisoned one. -/
def locked (p : Producers) (cell : Nat) (call : Cell → Reply Cell Answer) : Option (Reply Producers Answer) :=
  p.cells[cell]?.map fun c =>
    if c.poisoned then
      ⟨.error (.internal .poisoned), p⟩
    else
      (call c).mapState fun c' => { p with cells := p.cells.setIfInBounds cell c' }

/-- Merge rows into a cell up to the first one that is refused. -/
def mergeInto (rows : List Row) (c : Cell) : Reply Cell Answer :=
  ((c.aggregator.mergeAll rows).map fun _ => .done).mapState fun a => { c with aggregator := a }

/-- Merge rows into a cell, and poison it if none of them is refused. -/
def panicInto (rows : List Row) (c : Cell) : Reply Cell Answer :=
  let r := c.aggregator.mergeAll rows
  match r.outcome with
  | .ok () => ⟨.ok .panicked, ⟨r.state, true⟩⟩
  | .error e => ⟨.error e, { c with aggregator := r.state }⟩

/-- Spend a handle. The other handles to its cell are counted before the poison is looked at. -/
def spend (p : Producers) (handle cell : Nat) : Option (Reply Producers Answer) :=
  p.cells[cell]?.map fun c =>
    let p := p.drop handle
    if 0 < p.live cell then
      ⟨.error (.protocol .producersAlive), p⟩
    else if c.poisoned then
      ⟨.error (.internal .poisoned), p⟩
    else
      ⟨.ok (.aggregator c.aggregator), { p with released := some c.aggregator }⟩

/-- Run a step. There is no reply to a step on a handle that is not alive, nor to sharing again before an aggregator
has been released. -/
def step (p : Producers) : Step → Option (Reply Producers Answer)
  | .clone handle => do
    let cell ← p.cellOf? handle
    return ⟨.ok (.handle p.handles.size), { p with handles := p.handles.push (some cell) }⟩
  | .drop handle => do
    let _ ← p.cellOf? handle
    return ⟨.ok .done, p.drop handle⟩
  | .merge handle row => do
    p.locked (← p.cellOf? handle) (mergeInto [row])
  | .mergeAll handle rows => do
    p.locked (← p.cellOf? handle) (mergeInto rows)
  | .mergeAllPanicking handle rows => do
    p.locked (← p.cellOf? handle) (panicInto rows)
  | .release handle => do
    p.spend handle (← p.cellOf? handle)
  | .reshare => do
    let a ← p.released
    return ⟨.ok (.handle p.handles.size),
      { p with cells := p.cells.push ⟨a, false⟩, handles := p.handles.push (some p.cells.size) }⟩

end Producers

end Rollup
