import Rollup.Histogram.Statistics
import Rollup.Proofs.Aggregate.Offers
import Rollup.Proofs.Sequence.Tape

/-!
# Passes over a source

A pass opens a source, takes in its rows up to the first failure and closes it. Over a closed source it takes in what
the tape of the source delivers and leaves the source as `close` alone would (`Source.pass_of_closed`); over an open one
it fails and moves nothing (`Source.pass_of_open`).

`Visit` is a pass by anyone, over a source that others have visited before: an aggregator that merges the rows, or a
histogram that counts a column. No visit shows which visits came before it (`passes_independent`).
-/

namespace Rollup

open RowSource

/-! ## What a pass takes in -/

/-- What a tape delivers from a position on: the items, and reading past them if the tape always claims to have more. -/
def Tape.deliveries (t : Tape) (p : Nat) : List (Except Error Row) :=
  t.items.drop p ++ if t.endless then [.error t.beyond] else []

namespace RowSource

variable {β σ τ : Type} [RowSource σ] [RowSource τ]

/-- A source that answers as another one does delivers the same. -/
theorem Delivers.map {f : σ → τ} (hhas : ∀ s, hasNext (f s) = hasNext s) (hnext : ∀ s, next (f s) = (next s).mapState f)
    {s : σ} {items : List (Except Error Row)} (h : Delivers s items) : Delivers (f s) items := by
  induction h with
  | done hn => exact .done ((hhas _).trans hn)
  | failed items hn he => exact .failed items ((hhas _).trans hn) (by rw [hnext]; exact he)
  | row hn hr _ ih =>
    refine .row ((hhas _).trans hn) (by rw [hnext]; exact hr) ?_
    rw [hnext]
    exact ih

/-- What every call of `next` keeps of a source, feeding from it keeps. -/
theorem state_feed {Q : σ → Prop} (hnext : ∀ s, Q s → Q (next s).state) (step : β → Row → Except Error β) (b : β) {s : σ}
    (hs : Q s) : Q (feed step b s).state.2 := by
  cases hn : hasNext s with
  | error e => rwa [feed_of_failed hn]
  | ok more =>
    cases more with
    | false => rwa [feed_of_done hn]
    | true =>
      have hs' := hnext s hs
      cases hr : (next s).outcome with
      | error e => rwa [feed_of_next_error hn hr]
      | ok row =>
        have := remaining_next s row hr
        cases hrow : step b row with
        | error e => rwa [feed_of_refused hn hr hrow]
        | ok b' =>
          rw [feed_of_row hn hr hrow]
          exact state_feed hnext step b' hs'
termination_by remaining s

end RowSource

namespace Source

variable {β : Type} {s : Source} {p : Nat}

/-- An open source delivers what its tape delivers from where it stands. -/
theorem delivers_of_open (hs : s.cursor = ⟨some p⟩) : Delivers s (s.tape.deliveries p) := by
  cases s with
  | buffer b =>
    have h := (delivers_buffer hs).map (f := buffer) (fun _ => rfl) fun _ => rfl
    simpa [tape, Tape.deliveries] using h
  | failing scan =>
    have h := (delivers_failingScan hs).map (f := failing) (fun _ => rfl) fun _ => rfl
    simpa [tape, Tape.deliveries] using h
  | results r =>
    have h := (delivers_results hs).map (f := results) (fun _ => rfl) fun _ => rfl
    simpa [tape, Tape.deliveries] using h

/-! ## What a pass leaves behind -/

theorem close_moveTo (s : Source) (position : Option Nat) : close (s.moveTo position) = close s := by
  cases s <;> rfl

/-- Handing out a row does not show once the source is closed. -/
theorem close_next (s : Source) : close (next s).state = close s := by
  have h : (next s).state = s.moveTo (s.tape.call s.cursor.position .next).state :=
    congrArg Reply.state (call_of_ne_close (s := s) (c := .next) nofun)
  rw [h, close_moveTo]

theorem cursor_of_closed (hs : s.isOpen = false) : s.cursor = ⟨none⟩ := by
  obtain ⟨position, hc⟩ : ∃ position, s.cursor = ⟨position⟩ := ⟨_, rfl⟩
  cases position with
  | none => exact hc
  | some p =>
    rw [isOpen, hc] at hs
    cases hs

theorem start_of_closed (hs : s.isOpen = false) : start s = .ok (s.moveTo (some 0)) := by
  have hc := cursor_of_closed hs
  obtain ⟨schema, rows, cursor⟩ | ⟨schema, rows, cursor, closings⟩ | ⟨a, cursor⟩ := s <;> cases hc <;> rfl

/-- A pass over a closed source takes in what the tape delivers, and leaves the source as closing it does. -/
theorem pass_of_closed (hs : s.isOpen = false) (step : β → Row → Except Error β) (b : β) :
    pass step b s = (absorbOutcomes step b (s.tape.deliveries 0)).mapState (·, close s) := by
  have hstart := start_of_closed hs
  have hdelivers : Delivers (s.moveTo (some 0)) (s.tape.deliveries 0) := by
    have h := delivers_of_open (cursor_moveTo s (some 0))
    rwa [tape_moveTo] at h
  have hfst : (RowSource.pass step b s).mapState Prod.fst = absorbOutcomes step b (s.tape.deliveries 0) :=
    pass_eq_absorbOutcomes hstart hdelivers b
  have hsnd : (pass step b s).state.2 = close s := by
    rw [RowSource.pass, hstart]
    exact state_feed (Q := fun s' => close s' = close s) (fun s' hs' => (close_next s').trans hs') step b
      (close_moveTo s (some 0))
  rw [← hfst, Reply.mapState, Reply.mapState, ← hsnd]

/-- An open source is not passed over, and stays where it stands. -/
theorem pass_of_open (hs : s.isOpen = true) (step : β → Row → Except Error β) (b : β) :
    pass step b s = ⟨.error (.protocol .alreadyOpen), b, s⟩ := by
  have hstart : start s = .error (.protocol .alreadyOpen) := by
    obtain ⟨schema, rows, ⟨_ | p⟩⟩ | ⟨schema, rows, ⟨_ | p⟩, closings⟩ | ⟨a, ⟨_ | p⟩⟩ := s <;> first | rfl | cases hs
  rw [RowSource.pass, hstart]

/-! ## Sources as new -/

/-- The source as it was before anyone opened it. -/
def unopened : Source → Source
  | buffer b => buffer { b with cursor := .closed }
  | failing scan => failing { scan with cursor := .closed, closings := 0 }
  | results r => results (.ofAggregator r.aggregator)

@[simp] theorem tape_unopened (s : Source) : s.unopened.tape = s.tape := by
  cases s <;> rfl

@[simp] theorem cursor_unopened (s : Source) : s.unopened.cursor = .closed := by
  cases s <;> rfl

theorem isOpen_unopened (s : Source) : s.unopened.isOpen = false := by
  rw [isOpen, cursor_unopened]
  rfl

theorem isOpen_close (s : Source) : (close s).isOpen = false := by
  rw [isOpen, cursor_close]
  rfl

/-- A source that has been closed answers every call as a new one. -/
theorem trace_close (s : Source) (calls : List Call) : (trace (close s) calls).1 = (trace s.unopened calls).1 := by
  rw [(trace_eq (close s) calls).1, (trace_eq s.unopened calls).1, tape_close, tape_unopened, cursor_close,
    cursor_unopened]

end Source

/-! ## What an aggregator takes in -/

/-- How far an aggregator comes with what a source delivers, and in what state it is then: it merges all rows, or those
before the first one that it refuses, or those before the first error of the source, which it passes on. -/
inductive Aggregator.TakesIn (a : Aggregator) : List (Except Error Row) → Reply Aggregator Unit → Prop
  | all (rows : List Row) {a' : Aggregator} : a.mergeAll rows = ⟨.ok (), a'⟩ → TakesIn a (rows.map .ok) ⟨.ok (), a'⟩
  | refused (rows : List Row) (row : Row) (rest : List (Except Error Row)) {a' : Aggregator} {e : Error} :
      a.mergeAll rows = ⟨.ok (), a'⟩ → a'.merge row = .error e → TakesIn a (rows.map .ok ++ .ok row :: rest) ⟨.error e, a'⟩
  | failed (rows : List Row) (e : Error) (rest : List (Except Error Row)) {a' : Aggregator} :
      a.mergeAll rows = ⟨.ok (), a'⟩ → TakesIn a (rows.map .ok ++ .error e :: rest) ⟨.error e, a'⟩

namespace Aggregator

variable {a a' : Aggregator} {row : Row} {items : List (Except Error Row)} {r : Reply Aggregator Unit}

theorem TakesIn.cons (hm : a.merge row = .ok a') (h : a'.TakesIn items r) : a.TakesIn (.ok row :: items) r := by
  cases h with
  | all rows h => exact .all (row :: rows) ((mergeAll_cons_ok rows hm).trans h)
  | refused rows row' rest h he => exact .refused (row :: rows) row' rest ((mergeAll_cons_ok rows hm).trans h) he
  | failed rows e rest h => exact .failed (row :: rows) e rest ((mergeAll_cons_ok rows hm).trans h)

theorem takesIn_absorbOutcomes (a : Aggregator) (items : List (Except Error Row)) :
    a.TakesIn items (absorbOutcomes merge a items) := by
  induction items generalizing a with
  | nil => exact .all [] rfl
  | cons item items ih =>
    cases item with
    | error e =>
      rw [absorbOutcomes_error]
      exact .failed [] e items rfl
    | ok row =>
      cases hm : a.merge row with
      | ok a' =>
        rw [absorbOutcomes_ok items hm]
        exact (ih a').cons hm
      | error e =>
        rw [absorbOutcomes_refused items hm]
        exact .refused [] row items rfl hm

end Aggregator

/-! ## Visits -/

/-- A pass that someone makes: how rows are taken in, and into what. -/
structure Visit where
  State : Type
  take : State → Row → Except Error State
  initial : State

namespace Visit

/-- Make the pass over a source. -/
def run (v : Visit) (s : Source) : Reply (v.State × Source) Unit :=
  pass v.take v.initial s

/-- The source after a visit. -/
def leave (s : Source) (v : Visit) : Source :=
  (v.run s).state.2

/-- An aggregator merges the rows. -/
def aggregation (a : Aggregator) : Visit :=
  ⟨Aggregator, Aggregator.merge, a⟩

/-- A histogram counts the integers in a column. -/
def statistics (h : Histogram) (column : Nat) : Visit :=
  ⟨Histogram, Histogram.gather column, h⟩

theorem run_aggregation (a : Aggregator) (s : Source) : (aggregation a).run s = a.mergeFrom s := rfl

theorem run_statistics (h : Histogram) (column : Nat) (s : Source) :
    (statistics h column).run s = h.gatherFrom s column := rfl

variable {s : Source}

theorem leave_of_closed (hs : s.isOpen = false) (v : Visit) : leave s v = close s := by
  rw [leave, run, Source.pass_of_closed hs]
  rfl

/-- However many visits there are, they leave a closed source with its tape. -/
theorem foldl_leave (hs : s.isOpen = false) (visits : List Visit) :
    (visits.foldl leave s).isOpen = false ∧ (visits.foldl leave s).tape = s.tape := by
  induction visits generalizing s with
  | nil => exact ⟨hs, rfl⟩
  | cons v visits ih =>
    rw [List.foldl_cons, leave_of_closed hs]
    obtain ⟨hclosed, htape⟩ := ih s.isOpen_close
    exact ⟨hclosed, htape.trans s.tape_close⟩

/-- What comes of a visit depends on the tape of the source alone. -/
theorem run_congr {s' : Source} (hs : s.isOpen = false) (hs' : s'.isOpen = false) (htape : s.tape = s'.tape) (v : Visit) :
    (v.run s).mapState Prod.fst = (v.run s').mapState Prod.fst := by
  rw [run, run, Source.pass_of_closed hs, Source.pass_of_closed hs', htape]
  rfl

end Visit

open Visit in
/-- **Passes over one source are independent.** An aggregator that is fed from a closed source takes in what the source
delivers up to the first failure, and leaves a source that answers like a new one, whatever has failed; an open source
is refused, and neither side moves. So after any visits to a closed source, the next visit has the outcome and the
result that it would have over a new one. -/
theorem passes_independent (s : Source) :
    (s.isOpen = false → ∀ a : Aggregator,
      a.TakesIn (s.tape.deliveries 0) ((a.mergeFrom s).mapState Prod.fst) ∧
      (a.mergeFrom s).state.2.isOpen = false ∧
      ∀ calls, (trace (a.mergeFrom s).state.2 calls).1 = (trace s.unopened calls).1) ∧
    (s.isOpen = true → ∀ a : Aggregator, a.mergeFrom s = ⟨.error (.protocol .alreadyOpen), a, s⟩) ∧
    (s.isOpen = false → ∀ (before : List Visit) (v : Visit),
      (v.run (before.foldl leave s)).mapState Prod.fst = (v.run s.unopened).mapState Prod.fst) := by
  refine ⟨?_, ?_, ?_⟩
  · intro hs a
    rw [Aggregator.mergeFrom, Source.pass_of_closed hs]
    exact ⟨a.takesIn_absorbOutcomes _, s.isOpen_close, s.trace_close⟩
  · intro hs a
    exact Source.pass_of_open hs Aggregator.merge a
  · intro hs before v
    obtain ⟨hclosed, htape⟩ := foldl_leave hs before
    exact run_congr hclosed s.isOpen_unopened (htape.trans s.tape_unopened.symm) v

open Visit in
/-- A scan that a histogram gave up on after one row, which is out of its range, is summed up to its end, and left open it
is refused. -/
theorem passes_independent_after_refusal :
    let s := Source.failing (.ofRows ⟨[]⟩ [⟨[.int 7]⟩, ⟨[.int 1]⟩])
    let h : Histogram := ⟨0, 5, #[0], 0, _, by decide, by decide, rfl⟩
    let a := Aggregator.empty ⟨none, 0, .int, .sum⟩
    let s' := leave s (statistics h 0)
    ((statistics h 0).run s).outcome = .error (.outOfRange 7 0 5) ∧
      s' = .failing ⟨⟨[]⟩, #[⟨[.int 7]⟩, ⟨[.int 1]⟩], .closed, 1⟩ ∧
      (a.mergeFrom s').outcome = .error FailingScan.readError ∧
      (a.mergeFrom s').state.1.groups = #[⟨none, .sum 8⟩] ∧
      a.mergeFrom (s.moveTo (some 1)) = ⟨.error (.protocol .alreadyOpen), a, s.moveTo (some 1)⟩ := by
  intro s h a s'
  have hvisit := (passes_independent s).2.2 rfl [statistics h 0] (aggregation a)
  rw [run_aggregation, run_aggregation, Aggregator.mergeFrom, Aggregator.mergeFrom] at hvisit
  rw [Source.pass_of_closed (s := s.unopened) rfl] at hvisit
  refine ⟨?_, leave_of_closed rfl _, congrArg Reply.outcome hvisit, ?_,
    (passes_independent (s.moveTo (some 1))).2.1 rfl a⟩
  · rw [run_statistics, Histogram.gatherFrom, Source.pass_of_closed rfl]
    rfl
  · exact congrArg (fun r => r.state.groups) hvisit

end Rollup
