import Rollup.Row
import Rollup.Sequence.Cursor

/-!
# Row sources

A `RowSource` hands out rows one by one between `start` and `close`. Only `next` can move a source and fail at once,
so it gives a `Reply`. Every source counts down a number of rows with each row that it hands out (`remaining_next`);
hence `RowSource.feed`, which pulls rows until there is none left or something fails, ends on every source, also on
one that never says that it has no more rows.

`RowSource.pass` is `feed` between `start` and `close`, and closes the source however `feed` ends.
-/

namespace Rollup

/-- A type of sources that hand out rows. -/
class RowSource (σ : Type) where
  /-- The schema of the rows. -/
  schema : σ → Schema
  /-- Open a closed source at its first row. -/
  start : σ → Except Error σ
  /-- Whether there is another row. -/
  hasNext : σ → Except Error Bool
  /-- Hand out the next row. -/
  next : σ → Reply σ Row
  /-- Take an open source back to its first row. -/
  rewind : σ → Except Error σ
  /-- Close a source, open or not. -/
  close : σ → σ
  /-- A bound on the rows that are still to come. -/
  remaining : σ → Nat
  remaining_next : ∀ (s : σ) (row : Row), (next s).outcome = .ok row → remaining (next s).state < remaining s

namespace RowSource

variable {β σ : Type} [RowSource σ]

/-! ## Pulling rows -/

/-- Pull rows and put them into a state, until there is none left, or the source fails, or a row is refused. A refused
row has left the source. -/
def feed (step : β → Row → Except Error β) (b : β) (s : σ) : Reply (β × σ) Unit :=
  match hasNext s with
  | .error e => ⟨.error e, b, s⟩
  | .ok false => ⟨.ok (), b, s⟩
  | .ok true =>
    match h : (next s).outcome with
    | .error e => ⟨.error e, b, (next s).state⟩
    | .ok row =>
      have := remaining_next s row h
      match step b row with
      | .error e => ⟨.error e, b, (next s).state⟩
      | .ok b' => feed step b' (next s).state
termination_by remaining s

/-- Open a source, feed its rows to a state and close it, however the feeding ends. A source that cannot be opened is
left alone. -/
def pass (step : β → Row → Except Error β) (b : β) (s : σ) : Reply (β × σ) Unit :=
  match start s with
  | .error e => ⟨.error e, b, s⟩
  | .ok s' => (feed step b s').mapState fun (b, s) => (b, close s)

/-- The remaining rows of an open source. Rows that were pulled before a failure are lost. -/
def collect (s : σ) : Reply σ (List Row) :=
  let r := feed (fun (rows : Array Row) row => .ok (rows.push row)) #[] s
  ⟨r.outcome.map fun _ => r.state.1.toList, r.state.2⟩

/-! ## Runs of calls -/

/-- A call on a source. -/
inductive Call where
  | start
  | hasNext
  | next
  | rewind
  | close
  deriving DecidableEq, Repr

/-- What a call answers. -/
inductive Answer where
  | done
  | flag (b : Bool)
  | row (r : Row)
  deriving DecidableEq, Repr

/-- The source after a call that gives another one, or the source itself after a call that fails. -/
def moved (s : σ) : Except Error σ → Reply σ Answer
  | .ok s' => ⟨.ok .done, s'⟩
  | .error e => ⟨.error e, s⟩

/-- Run a call. -/
def call (s : σ) : Call → Reply σ Answer
  | .start => moved s (start s)
  | .hasNext => ⟨(hasNext s).map .flag, s⟩
  | .next => (next s).map .row
  | .rewind => moved s (rewind s)
  | .close => ⟨.ok .done, close s⟩

/-- Run calls one after another, and list what came of each. -/
def trace (s : σ) : List Call → List (Except Error Answer) × σ
  | [] => ([], s)
  | c :: cs =>
    let r := call s c
    let (outcomes, s') := trace r.state cs
    (r.outcome :: outcomes, s')

/-- Call `next` until there is no row left, and list what came of each call. A failing call takes its place in the
list. The count bounds the calls. -/
def outcomes (s : σ) : Nat → List (Except Error Row)
  | 0 => []
  | n + 1 =>
    match (next s).outcome with
    | .error .exhausted => []
    | outcome => outcome :: outcomes (next s).state n

end RowSource

end Rollup
