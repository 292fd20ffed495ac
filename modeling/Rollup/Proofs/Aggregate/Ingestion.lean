import Rollup.Aggregate.Producers
import Rollup.Proofs.Aggregate.Offers
import Rollup.Proofs.Batch.RoundTrip
import Rollup.Proofs.Sequence.Delivery

/-!
# Ways of adding rows

Rows can be merged one by one, pulled from a source, sent through a shared handle one by one or under one lock, or
unpacked from a batch. All these ways stop at the same row with the same error and leave the same aggregator
(`ingestion_agrees`): a source is absorbed as it delivers, a handle writes what its cell holds (`Producers.Holds`), and
a batch of conforming rows unpacks to the rows. A batch that cannot be unpacked changes nothing.
-/

namespace Rollup

/-! ## Through a handle -/

namespace Producers

variable {p : Producers} {handle cell : Nat} {a b : Aggregator}

/-- A handle is alive, and the cell that it names holds an aggregator that can be locked. -/
structure Holds (p : Producers) (handle cell : Nat) (a : Aggregator) : Prop where
  cellOf : p.cellOf? handle = some cell
  content : p.cells[cell]? = some ⟨a, false⟩

/-- The producers with another aggregator in a cell. -/
def write (p : Producers) (cell : Nat) (a : Aggregator) : Producers :=
  { p with cells := p.cells.setIfInBounds cell ⟨a, false⟩ }

/-- Merge rows through a handle one by one, up to the first one that is refused. -/
def mergeEach (p : Producers) (handle : Nat) : List Row → Option (Reply Producers Unit)
  | [] => some ⟨.ok (), p⟩
  | row :: rows => do
    let r ← p.step (.merge handle row)
    match r.outcome with
    | .ok _ => r.state.mergeEach handle rows
    | .error e => some ⟨.error e, r.state⟩

theorem Holds.write (h : p.Holds handle cell a) (b : Aggregator) : (p.write cell b).Holds handle cell b := by
  refine ⟨h.cellOf, ?_⟩
  obtain ⟨hlt, -⟩ := Array.getElem?_eq_some_iff.mp h.content
  simp [Producers.write, hlt]

theorem write_write (p : Producers) (cell : Nat) (a b : Aggregator) :
    (p.write cell a).write cell b = p.write cell b := by
  simp [write]

theorem Holds.write_self (h : p.Holds handle cell a) : p.write cell a = p := by
  obtain ⟨hlt, hc⟩ := Array.getElem?_eq_some_iff.mp h.content
  simp [Producers.write, Array.setIfInBounds, hlt, ← hc]

/-- Under a lock rows are merged as without one, and what becomes of the aggregator is written to the cell. -/
theorem Holds.step_mergeAll (h : p.Holds handle cell a) (rows : List Row) :
    p.step (.mergeAll handle rows) = some (((a.mergeAll rows).map fun _ => .done).mapState (p.write cell)) := by
  show (do p.locked (← p.cellOf? handle) (mergeInto rows)) = _
  rw [h.cellOf]
  show p.cells[cell]?.map _ = _
  rw [h.content]
  rfl

theorem Holds.step_merge (h : p.Holds handle cell a) (row : Row) :
    p.step (.merge handle row) = some (((a.mergeAll [row]).map fun _ => .done).mapState (p.write cell)) :=
  h.step_mergeAll [row]

/-- Rows that are sent one by one arrive as if they were merged without a handle. -/
theorem Holds.mergeEach_eq (h : p.Holds handle cell a) (rows : List Row) :
    p.mergeEach handle rows = some ((a.mergeAll rows).mapState (p.write cell)) := by
  induction rows generalizing p a with
  | nil =>
    rw [mergeEach, Aggregator.mergeAll_nil, Reply.mapState, h.write_self]
  | cons row rows ih =>
    rw [mergeEach, h.step_merge]
    cases hm : a.merge row with
    | ok a' =>
      rw [Aggregator.mergeAll_cons_ok rows hm, Aggregator.mergeAll_cons_ok [] hm, Aggregator.mergeAll_nil]
      show (p.write cell a').mergeEach handle rows = _
      rw [ih (h.write a'), Reply.mapState, Reply.mapState, write_write]
    | error e =>
      rw [Aggregator.mergeAll_cons_error rows hm, Aggregator.mergeAll_cons_error [] hm]
      rfl

end Producers

namespace Aggregator

variable {a : Aggregator}

/-! ## Row by row -/

/-- Merged row by row, the first `n` rows are taken in, and the next one is refused if there is one. -/
def StopsAt (a : Aggregator) (rows : List Row) (n : Nat) (r : Reply Aggregator Unit) : Prop :=
  InPlace.reply ((rows.take n).forM mergeInPlace) a = ⟨.ok (), r.state⟩ ∧
  match rows[n]? with
  | none => n = rows.length ∧ r.outcome = .ok ()
  | some row => ∃ e, InPlace.reply (mergeInPlace row) r.state = ⟨.error e, r.state⟩ ∧ r.outcome = .error e

theorem stopsAt_cons {a' : Aggregator} {row : Row} {rows : List Row} {n : Nat} {r : Reply Aggregator Unit}
    (hm : a.merge row = .ok a') (h : a'.StopsAt rows n r) : a.StopsAt (row :: rows) (n + 1) r := by
  obtain ⟨htake, hnext⟩ := h
  rw [reply_forM_mergeInPlace] at htake
  refine ⟨?_, ?_⟩
  · rw [reply_forM_mergeInPlace, List.take_succ_cons, mergeAll_cons_ok _ hm, htake]
  · rw [List.getElem?_cons_succ]
    split at hnext
    · exact ⟨congrArg (· + 1) hnext.1, hnext.2⟩
    · exact hnext

/-- Merging counts the rows up to the first one that is refused. -/
theorem stopsAt_mergeCounted (a : Aggregator) (rows : List Row) (k : Nat) :
    ∃ n, a.StopsAt rows n (a.mergeAll rows) ∧
      absorb (fun (a, n) row => do return (← merge a row, n + 1)) (a, k) rows =
        ⟨(a.mergeAll rows).outcome, (a.mergeAll rows).state, k + n⟩ := by
  induction rows generalizing a k with
  | nil => exact ⟨0, ⟨rfl, rfl, rfl⟩, rfl⟩
  | cons row rows ih =>
    cases hm : a.merge row with
    | ok a' =>
      obtain ⟨n, hstops, hcount⟩ := ih a' (k + 1)
      have hs : (do return (← merge a row, k + 1) : Except Error (Aggregator × Nat)) = .ok (a', k + 1) := by
        rw [hm]
        rfl
      refine ⟨n + 1, ?_, ?_⟩
      · rw [mergeAll_cons_ok rows hm]
        exact stopsAt_cons hm hstops
      · rw [mergeAll_cons_ok rows hm, absorb_cons_ok rows hs, hcount, Nat.add_assoc, Nat.add_comm 1 n]
    | error e =>
      have hs : (do return (← merge a row, k + 1) : Except Error (Aggregator × Nat)) = .error e := by
        rw [hm]
        rfl
      refine ⟨0, ⟨?_, e, ?_, ?_⟩, ?_⟩
      · rw [mergeAll_cons_error rows hm]
        rfl
      · rw [mergeAll_cons_error rows hm, reply_mergeInPlace, hm, Reply.atomic_error]
      · rw [mergeAll_cons_error rows hm]
      · rw [mergeAll_cons_error rows hm, absorb_cons_error rows hs]
        rfl

/-! ## From a source -/

theorem mergeFrom_buffer (a : Aggregator) (schema : Schema) (rows : List Row) :
    (a.mergeFrom (Buffer.ofRows schema rows)).mapState Prod.fst = a.mergeAll rows := by
  have hd := RowSource.delivers_buffer (b := ⟨schema, rows.toArray, ⟨some 0⟩⟩) (p := 0) rfl
  rw [List.drop_zero] at hd
  rw [mergeFrom, RowSource.pass_eq_absorbOutcomes rfl hd, absorbOutcomes_map_ok]
  rfl

/-- A failing scan fails after the last row, if no row is refused before, however often it has been closed. -/
theorem mergeFrom_failingScan (a : Aggregator) (schema : Schema) (rows : List Row) (closings : Nat) :
    (a.mergeFrom (⟨schema, rows.toArray, .closed, closings⟩ : FailingScan)).mapState Prod.fst =
      ⟨(a.mergeAll rows).outcome >>= fun _ => .error FailingScan.readError, (a.mergeAll rows).state⟩ := by
  have hd := RowSource.delivers_failingScan (s := ⟨schema, rows.toArray, ⟨some 0⟩, closings⟩) (p := 0) rfl
  rw [List.drop_zero] at hd
  rw [mergeFrom, RowSource.pass_eq_absorbOutcomes rfl hd, absorbOutcomes_concat_error]
  show _ = (⟨(absorb merge a rows).outcome >>= _, (absorb merge a rows).state⟩ : Reply Aggregator Unit)
  rcases absorb merge a rows with ⟨⟨e⟩ | ⟨⟩, b⟩ <;> rfl

/-! ## From a batch -/

theorem mergeBatch_of_unpack {batch : Batch} {rows : List Row} (h : batch.unpack = .ok rows) :
    a.mergeBatch batch = a.mergeAll rows := by
  rw [mergeBatch, h]

theorem mergeBatch_of_error {batch : Batch} {e : Error} (h : batch.unpack = .error e) :
    a.mergeBatch batch = ⟨.error e, a⟩ := by
  rw [mergeBatch, h]

/-! ## All ways together -/

/-- **All ways of adding rows agree.** -/
theorem ingestion_agrees (a : Aggregator) (rows : List Row) :
    ∃ (n : Nat) (r : Reply Aggregator Unit), a.StopsAt rows n r ∧
      InPlace.reply (rows.forM mergeInPlace) a = r ∧
      a.mergeCounted rows = ⟨r.outcome, r.state, n⟩ ∧
      (∀ schema, (a.mergeFrom (Buffer.ofRows schema rows)).mapState Prod.fst = r) ∧
      (∀ (p : Producers) (handle cell : Nat), p.Holds handle cell a →
        p.mergeEach handle rows = some (r.mapState (p.write cell)) ∧
        p.step (.mergeAll handle rows) = some ((r.map fun _ => .done).mapState (p.write cell))) ∧
      (∀ schema, (∀ row ∈ rows, row.Conforms schema) →
        ∃ batch, Batch.pack schema rows = .ok batch ∧ a.mergeBatch batch = r) ∧
      (∀ schema closings, (a.mergeFrom (⟨schema, rows.toArray, .closed, closings⟩ : FailingScan)).mapState Prod.fst =
        ⟨r.outcome >>= fun _ => .error FailingScan.readError, r.state⟩) ∧
      ∀ batch : Batch, ((∃ e, batch.unpack = .error e) ↔ ∃ column ∈ batch.columns, column.Unreadable) ∧
        ∀ e, batch.unpack = .error e → a.mergeBatch batch = ⟨.error e, a⟩ := by
  obtain ⟨n, hstops, hcount⟩ := stopsAt_mergeCounted a rows 0
  rw [Nat.zero_add] at hcount
  refine ⟨n, a.mergeAll rows, hstops, reply_forM_mergeInPlace a rows, hcount, ?_, ?_, ?_, ?_, ?_⟩
  · exact fun schema => mergeFrom_buffer a schema rows
  · exact fun p handle cell h => ⟨h.mergeEach_eq rows, h.step_mergeAll rows⟩
  · intro schema hrows
    obtain ⟨batch, hpack, hunpack⟩ := Batch.unpack_pack_of_conforms hrows
    exact ⟨batch, hpack, mergeBatch_of_unpack hunpack⟩
  · exact fun schema => mergeFrom_failingScan a schema rows
  · exact fun batch => ⟨Batch.unpack_isError_iff, fun e => mergeBatch_of_error⟩

/-- The second of three rows overflows the sum, through a handle and from a batch alike. -/
theorem ingestion_agrees_overflow :
    let a := empty ⟨none, 0, .int, .sum⟩
    let rows : List Row := [⟨[.int Int64.maxValue]⟩, ⟨[.int 1]⟩, ⟨[.int (-1)]⟩]
    let p := Producers.ofAggregator a
    ∃ r : Reply Aggregator Unit, r.outcome = .error (.overflow .sum) ∧
      p.mergeEach 0 rows = some (r.mapState (p.write 0)) ∧
      ∃ batch, Batch.pack (.ofPairs [("n", .int)]) rows = .ok batch ∧ a.mergeBatch batch = r := by
  intro a rows p
  obtain ⟨n, r, -, hr, -, -, hhandle, hbatch, -⟩ := ingestion_agrees a rows
  refine ⟨r, ?_, (hhandle p 0 0 ⟨rfl, rfl⟩).1, hbatch _ (by decide)⟩
  rw [← hr]
  rfl

end Aggregator

end Rollup
