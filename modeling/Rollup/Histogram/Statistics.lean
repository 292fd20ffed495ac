import Rollup.Histogram.Basic
import Rollup.InPlace
import Rollup.Progression
import Rollup.Sequence.Source

/-!
# Filling a histogram

`Histogram.addInPlace` counts an integer write by write: first in its bucket and then among the observations. The range
is checked before anything is written, so the call makes the whole change that `Histogram.add` describes, or none
(`reply_addInPlace`). A loop of such calls is `Histogram.addAll` (`reply_forM_addInPlace`), and so is
`Histogram.addProgression` over the members of a progression (`addProgression_eq`).

A statistics pass, `Histogram.gatherFrom`, fills a histogram from one column of a row source: integers are counted and
texts are skipped. The first row that is too short, integer out of range or failure of the source ends the pass.
-/

namespace Rollup.Histogram

/-! ## Counting in place -/

/-- Count an integer, which must lie in the range, write by write. -/
def addInPlace (v : Int64) : InPlace Histogram Unit := do
  let h ← get
  if h.Covers v then
    modify fun h => h.enter (h.bucketOf v)
    modify observe
  else
    throw (.outOfRange v h.lower h.upper)

/-- An integer is counted in both places or in none. -/
theorem reply_addInPlace (h : Histogram) (v : Int64) : InPlace.reply (addInPlace v) h = .atomic h (h.add v) := by
  unfold addInPlace add
  rw [InPlace.reply_bind, InPlace.reply_get]
  dsimp only
  split
  · rw [InPlace.reply_bind, InPlace.reply_modify, Reply.atomic_ok, ← observe_enter]
    rfl
  · rfl

/-- Counting integers write by write, up to the first one that is refused, is `addAll`. -/
theorem reply_forM_addInPlace (h : Histogram) (values : List Int64) :
    InPlace.reply (values.forM addInPlace) h = h.addAll values :=
  InPlace.reply_forM reply_addInPlace h values

/-! ## Counting a progression -/

/-- Count the members of a progression up to the first one that is refused. -/
def addProgression (h : Histogram) (p : Progression) : Reply Histogram Unit :=
  p.absorb add h

/-- Counting a progression is counting the list of its members. -/
theorem addProgression_eq (h : Histogram) (p : Progression) : h.addProgression p = h.addAll p.toList :=
  p.absorb_eq add h

/-! ## Counting a column -/

/-- Count the integer in a column of a row; a text counts for nothing. -/
def gather (column : Nat) (h : Histogram) (row : Row) : Except Error Histogram := do
  match ← row.get column with
  | .int n => h.add n
  | .text _ => return h

/-- Open a row source, count one of its columns and close it. -/
def gatherFrom {σ : Type} [RowSource σ] (h : Histogram) (source : σ) (column : Nat) : Reply (Histogram × σ) Unit :=
  RowSource.pass (gather column) h source

end Rollup.Histogram
