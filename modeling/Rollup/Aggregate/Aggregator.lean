import Rollup.Aggregate.Accumulator
import Rollup.Aggregate.Config
import Rollup.Batch.Pack
import Rollup.Sequence.Source
import Std.Data.TreeMap

/-!
# Aggregators

An `Aggregator` keeps one accumulator per group, in the order in which the groups were first seen, and an index from
group keys to positions. `Aggregator.merge` gives the aggregator with one more row, or the reason why the row is
refused. The other ways of adding rows merge one row after another and stop at the first that is refused: `mergeAll`
takes a list, `mergeFrom` a row source and `mergeBatch` a batch.
-/

namespace Rollup

/-- A group key with what its rows have contributed. -/
structure Group where
  key : GroupKey
  accumulator : Accumulator
  deriving DecidableEq, Repr

/-- The result row of a group: its key, if there is grouping, and the values of its summary. -/
def Group.row (g : Group) : Except Error Row := do
  let summary ← g.accumulator.finalize
  return ⟨g.key.toList ++ summary.values⟩

/-- A group table under a configuration. -/
structure Aggregator where
  config : Config
  /-- The position of every group. -/
  slots : Std.TreeMap GroupKey Nat
  /-- The groups in order of first arrival. -/
  groups : Array Group

namespace Aggregator

/-- An aggregator without groups. -/
def empty (config : Config) : Aggregator :=
  ⟨config, ∅, #[]⟩

/-- An aggregator for a configuration that can give results. -/
def ofConfig (config : Config) : Except Error Aggregator := do
  config.validate
  return empty config

/-- An aggregator that takes its types from the schema of the input. -/
def ofSchema (input : Schema) (groupField : Option Nat) (field : Nat) (aggregate : Aggregate) :
    Except Error Aggregator := do
  ofConfig (← Config.ofSchema input groupField field aggregate)

/-- The number of groups. -/
def groupCount (a : Aggregator) : Nat :=
  a.groups.size

/-! ## Merging a row -/

/-- Add an observation to the group at a position. -/
def updateGroup (a : Aggregator) (slot : Nat) (observation : Observation) : Except Error Aggregator :=
  if h : slot < a.groups.size then do
    let accumulator ← a.groups[slot].accumulator.update observation
    return { a with groups := a.groups.set slot { a.groups[slot] with accumulator } }
  else
    .error (.internal (.danglingSlot slot))

/-- Add a group after all others. -/
def addGroup (a : Aggregator) (key : GroupKey) (observation : Observation) : Except Error Aggregator := do
  let accumulator ← Accumulator.seed a.config.aggregate observation
  return { a with
    slots := a.slots.insert key a.groups.size
    groups := a.groups.push ⟨key, accumulator⟩ }

/-- Add a row to its group. The group key is read before the observation. -/
def merge (a : Aggregator) (row : Row) : Except Error Aggregator := do
  let key ← a.config.groupKey row
  let observation ← a.config.observation row
  match a.slots[key]? with
  | some slot => a.updateGroup slot observation
  | none => a.addGroup key observation

/-! ## Merging many rows -/

/-- Add rows up to the first one that is refused. -/
def mergeAll (a : Aggregator) (rows : List Row) : Reply Aggregator Unit :=
  absorb merge a rows

/-- Add rows up to the first one that is refused, and count the rows added. -/
def mergeCounted (a : Aggregator) (rows : List Row) : Reply (Aggregator × Nat) Unit :=
  absorb (fun (a, n) row => do return (← a.merge row, n + 1)) (a, 0) rows

/-- Open a row source, add its rows and close it. -/
def mergeFrom {σ : Type} [RowSource σ] (a : Aggregator) (source : σ) : Reply (Aggregator × σ) Unit :=
  RowSource.pass merge a source

/-- Add the rows of a batch. Nothing is added if the batch cannot be unpacked. -/
def mergeBatch (a : Aggregator) (batch : Batch) : Reply Aggregator Unit :=
  match batch.unpack with
  | .ok rows => a.mergeAll rows
  | .error e => ⟨.error e, a⟩

/-! ## Slots and groups -/

/-- The slots are the positions of the groups with their keys, and no other key has one. -/
def Consistent (a : Aggregator) : Prop :=
  ∀ (key : GroupKey) (i : Nat), a.slots[key]? = some i ↔ a.groups[i]?.map Group.key = some key

/-- A table without groups is consistent. -/
theorem consistent_empty (config : Config) : (empty config).Consistent := by
  intro key i
  simp [empty]

end Aggregator

end Rollup
