import Rollup.Aggregate.Results
import Rollup.Sequence.Buffer
import Rollup.Sequence.FailingScan

/-!
# The row sources of the library

A `Source` is a buffer, a failing scan or the results of an aggregator. It is a row source as what it holds is one.
-/

namespace Rollup

/-- Any of the row sources. -/
inductive Source where
  | buffer (b : Buffer)
  | failing (s : FailingScan)
  | results (r : Results)

namespace Source

open RowSource

instance : RowSource Source where
  schema
    | buffer b => b.schema
    | failing s => s.schema
    | results r => r.schema
  start
    | buffer b => b.start.map buffer
    | failing s => s.start.map failing
    | results r => r.start.map results
  hasNext
    | buffer b => b.hasNext
    | failing s => s.hasNext
    | results r => r.hasNext
  next
    | buffer b => b.next.mapState buffer
    | failing s => s.next.mapState failing
    | results r => r.next.mapState results
  rewind
    | buffer b => b.rewind.map buffer
    | failing s => s.rewind.map failing
    | results r => r.rewind.map results
  close
    | buffer b => buffer b.close
    | failing s => failing s.close
    | results r => results r.close
  remaining
    | buffer b => remaining b
    | failing s => remaining s
    | results r => remaining r
  remaining_next s row h := by
    cases s with
    | buffer b => exact remaining_next b row h
    | failing s => exact remaining_next s row h
    | results r => exact remaining_next r row h

end Source

end Rollup
