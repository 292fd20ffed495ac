import Rollup.Aggregate.Aggregator
import Rollup.InPlace

/-!
# Merging in place

`Aggregator.mergeInPlace` merges a row write by write: an existing group is changed where it stands, and a new one is
entered first into the index and then into the table. `reply_mergeInPlace` says that the call makes the whole change
that `Aggregator.merge` describes, or none; `Aggregator.offer` is the aggregator that it leaves either way.
-/

namespace Rollup

/-! ## Writing to an accumulator -/

/-- Write one more observation into an accumulator. The two totals of a partial average are written one after the
other, when both of them are known to fit. -/
def Accumulator.updateInPlace (observation : Observation) : InPlace Accumulator Unit := do
  match ← get, observation with
  | .min least, .number n => set (Accumulator.min (Min.min least n))
  | .max greatest, .number n => set (Accumulator.max (Max.max greatest n))
  | .sum total, .number n => do
    let total ← liftExcept (fits .sum (Exact.add? total n))
    set (Accumulator.sum total)
  | .count rows, .row => do
    let rows ← liftExcept (fits .count (Exact.add? rows 1))
    set (Accumulator.count rows)
  | .average values, .number n => set (Accumulator.average (values.push n))
  | .sumAndCount values, .number n => set (Accumulator.sumAndCount (values.push n))
  | .partialAverage total rows, .subtotal s c => do
    let total' ← liftExcept (fits .partialSum (Exact.add? total s))
    let rows' ← liftExcept (fits .partialCount (Exact.add? rows c))
    set (Accumulator.partialAverage total' rows)
    set (Accumulator.partialAverage total' rows')
  | accumulator, observation => throw (.internal (.cannotAbsorb accumulator observation))

/-- An observation is written as a whole or not at all. -/
theorem Accumulator.reply_updateInPlace (a : Accumulator) (o : Observation) :
    InPlace.reply (updateInPlace o) a = .atomic a (a.update o) := by
  unfold updateInPlace
  rw [InPlace.reply_bind, InPlace.reply_get]
  cases a <;> cases o <;>
    simp only [update, InPlace.reply_bind, InPlace.reply_liftExcept, InPlace.reply_set, InPlace.reply_throw,
      Reply.atomic_ok, Reply.atomic_error]
  case sum.number total n => cases fits .sum (Exact.add? total n) <;> rfl
  case count.row rows => cases fits .count (Exact.add? rows 1) <;> rfl
  case partialAverage.subtotal total rows s c =>
    -- a count that does not fit is found before the sum is written
    cases fits .partialSum (Exact.add? total s) <;> cases fits .partialCount (Exact.add? rows c) <;> rfl

namespace Aggregator

/-! ## Writing to a group table -/

/-- Run a call on the accumulator of the group at a position. -/
def onGroup (slot : Nat) (call : InPlace Accumulator Unit) : InPlace Aggregator Unit := do
  let a ← get
  if h : slot < a.groups.size then
    let r := InPlace.reply call a.groups[slot].accumulator
    set { a with groups := a.groups.set slot { a.groups[slot] with accumulator := r.state } }
    liftExcept r.outcome
  else
    throw (.internal (.danglingSlot slot))

/-- Add a row to its group, write by write. -/
def mergeInPlace (row : Row) : InPlace Aggregator Unit := do
  let a ← get
  let key ← liftExcept (a.config.groupKey row)
  let observation ← liftExcept (a.config.observation row)
  match a.slots[key]? with
  | some slot => onGroup slot (Accumulator.updateInPlace observation)
  | none => do
    let accumulator ← liftExcept (Accumulator.seed a.config.aggregate observation)
    modify fun a => { a with slots := a.slots.insert key a.groups.size }
    modify fun a => { a with groups := a.groups.push ⟨key, accumulator⟩ }

/-- A group is updated as a whole or not at all. -/
theorem reply_onGroup (a : Aggregator) (slot : Nat) (o : Observation) :
    InPlace.reply (onGroup slot (Accumulator.updateInPlace o)) a = .atomic a (a.updateGroup slot o) := by
  unfold onGroup updateGroup
  rw [InPlace.reply_bind, InPlace.reply_get]
  dsimp only
  split
  · rw [InPlace.reply_bind, InPlace.reply_set, Accumulator.reply_updateInPlace]
    dsimp only
    rw [InPlace.reply_liftExcept]
    cases a.groups[slot].accumulator.update o with
    | ok acc => rfl
    -- the accumulator that a refused observation leaves is written back where it was
    | error e =>
      show (⟨.error e, { a with groups := a.groups.set slot a.groups[slot] }⟩ : Reply Aggregator Unit) = ⟨.error e, a⟩
      rw [Array.set_getElem_self]
  · rfl

/-- A row is merged as a whole or not at all. -/
theorem reply_mergeInPlace (a : Aggregator) (row : Row) :
    InPlace.reply (mergeInPlace row) a = .atomic a (a.merge row) := by
  unfold mergeInPlace merge
  simp only [InPlace.reply_bind, InPlace.reply_get, InPlace.reply_liftExcept]
  cases a.config.groupKey row with
  | error e => rfl
  | ok key =>
    cases a.config.observation row with
    | error e => rfl
    | ok o =>
      simp only [Outcome.ok_bind]
      cases a.slots[key]? with
      | some slot => exact reply_onGroup a slot o
      | none =>
        simp only [addGroup, InPlace.reply_bind, InPlace.reply_liftExcept, InPlace.reply_modify]
        cases Accumulator.seed a.config.aggregate o <;> rfl

/-! ## Offering a row -/

/-- The aggregator after a row was offered to it, whether the row was merged or refused. -/
def offer (a : Aggregator) (row : Row) : Aggregator :=
  (InPlace.reply (mergeInPlace row) a).state

/-- A row that can be merged is merged. -/
theorem offer_of_ok {a a' : Aggregator} {row : Row} (h : a.merge row = .ok a') : a.offer row = a' := by
  rw [offer, reply_mergeInPlace, h, Reply.atomic_ok]

/-- A row that is refused leaves the aggregator as it was. -/
theorem offer_of_error {a : Aggregator} {row : Row} {e : Error} (h : a.merge row = .error e) : a.offer row = a := by
  rw [offer, reply_mergeInPlace, h, Reply.atomic_error]

end Aggregator

end Rollup
