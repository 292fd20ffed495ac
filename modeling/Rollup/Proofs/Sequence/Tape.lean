import Rollup.Proofs.Aggregate.Reading
import Rollup.Source

/-!
# The machine behind the row sources

A `Tape` has the outcomes of its items in order, an error for reading past them, and a flag whether it claims to have
more there. A call on it starts from a position or from being closed (`Tape.call`).

- Every source stands on a tape, which no call changes, and calls on the source are calls on its tape
  (`Source.call_eq`, `Source.trace_eq`);
- only `start` and `close` decide whether a source is open (`Source.isOpen_trace`), and only calls that do not suit that
  break the protocol (`Source.protocol_iff`);
- after a source has been taken to its first item, the calls of `next` count its items (`Source.calls_since`).
-/

namespace Rollup

open RowSource

/-- The items of a source, the error of reading past them, and whether it then claims to have another one. -/
structure Tape where
  items : List (Except Error Row)
  beyond : Error
  endless : Bool

namespace Tape

/-- A call on a tape, from a position or, with `none`, on a closed tape. -/
def call (t : Tape) : Option Nat → Call → Reply (Option Nat) Answer
  | none, .start => ⟨.ok .done, some 0⟩
  | none, .hasNext => ⟨.error (.protocol (.closed "has_next")), none⟩
  | none, .next => ⟨.error (.protocol (.closed "next")), none⟩
  | none, .rewind => ⟨.error (.protocol (.closed "rewind")), none⟩
  | some p, .start => ⟨.error (.protocol .alreadyOpen), some p⟩
  | some p, .hasNext => ⟨.ok (.flag (t.endless || decide (p < t.items.length))), some p⟩
  | some p, .next =>
    match t.items[p]? with
    | some item => ⟨item.map .row, some (p + 1)⟩
    | none => ⟨.error t.beyond, some p⟩
  | some _, .rewind => ⟨.ok .done, some 0⟩
  | _, .close => ⟨.ok .done, none⟩

/-- Calls one after another, and what comes of each. -/
def trace (t : Tape) (position : Option Nat) : List Call → List (Except Error Answer) × Option Nat
  | [] => ([], position)
  | c :: cs =>
    let r := t.call position c
    let (outcomes, position') := t.trace r.state cs
    (r.outcome :: outcomes, position')

/-- The calls that a tape refuses because it is open, or because it is closed. -/
def refuses (isOpen : Bool) : Call → Bool
  | .start => isOpen
  | .hasNext | .next | .rewind => !isOpen
  | .close => false

/-- No item is a fault of protocol, nor is the error past the items. -/
def Proper (t : Tape) : Prop :=
  (∀ fault, .error (.protocol fault) ∉ t.items) ∧ ∀ fault, t.beyond ≠ .protocol fault

variable {t : Tape} {position : Option Nat} {c : Call} {p : Nat} {e : Error}

theorem call_next_of_some {item : Except Error Row} (h : t.items[p]? = some item) :
    t.call (some p) .next = ⟨item.map .row, some (p + 1)⟩ := by
  simp only [call, h]

theorem call_next_of_none (h : t.items[p]? = none) : t.call (some p) .next = ⟨.error t.beyond, some p⟩ := by
  simp only [call, h]

/-- A call that is refused fails with a fault of protocol and moves nothing. -/
theorem call_of_refuses (h : refuses position.isSome c = true) :
    ∃ fault, t.call position c = ⟨.error (.protocol fault), position⟩ := by
  cases position with
  | none =>
    cases c with
    | start | close => cases h
    | hasNext | next | rewind => exact ⟨_, rfl⟩
  | some p =>
    cases c with
    | start => exact ⟨_, rfl⟩
    | hasNext | next | rewind | close => cases h

/-- A call that is not refused can fail only as one of the items does or as reading past them does. -/
theorem error_of_call (hr : refuses position.isSome c = false) (h : (t.call position c).outcome = .error e) :
    .error e ∈ t.items ∨ e = t.beyond := by
  cases position with
  | none =>
    cases c with
    | start | close => cases h
    | hasNext | next | rewind => cases hr
  | some p =>
    cases c with
    | start => cases hr
    | hasNext | rewind | close => cases h
    | next =>
      cases hp : t.items[p]? with
      | none =>
        rw [call_next_of_none hp] at h
        cases h
        exact .inr rfl
      | some item =>
        rw [call_next_of_some hp] at h
        cases item with
        | ok row => cases h
        | error e' =>
          cases h
          exact .inl (List.mem_of_getElem? hp)

theorem protocol_iff (ht : t.Proper) :
    (∃ fault, (t.call position c).outcome = .error (.protocol fault)) ↔ refuses position.isSome c = true := by
  cases hr : refuses position.isSome c with
  | true =>
    obtain ⟨fault, h⟩ := call_of_refuses (t := t) hr
    exact iff_of_true ⟨fault, by rw [h]⟩ rfl
  | false =>
    refine iff_of_false ?_ Bool.false_ne_true
    rintro ⟨fault, h⟩
    rcases error_of_call hr h with hi | hb
    · exact ht.1 fault hi
    · exact ht.2 fault hb.symm

/-- Opening and rewinding lead to the first item. -/
theorem state_of_done (hc : c = .start ∨ c = .rewind) (h : (t.call position c).outcome = .ok .done) :
    (t.call position c).state = some 0 := by
  rcases hc with rfl | rfl <;> cases position <;> first | rfl | cases h

/-- Only `start` and `close` change whether a tape is open. -/
def opens (isOpen : Bool) : Call → Bool
  | .start => true
  | .close => false
  | .hasNext | .next | .rewind => isOpen

theorem isSome_call (t : Tape) (position : Option Nat) (c : Call) :
    (t.call position c).state.isSome = opens position.isSome c := by
  cases position with
  | none => cases c <;> rfl
  | some p =>
    cases c with
    | start | hasNext | rewind | close => rfl
    | next => cases h : t.items[p]? <;> simp [call, h, opens]

/-- Without `rewind` and `close`, an open tape moves by one item with each call of `next`, up to its end. -/
theorem position_trace {since : List Call} (hp : p ≤ t.items.length) (hr : .rewind ∉ since) (hc : .close ∉ since) :
    (t.trace (some p) since).2 = some (min (p + since.count .next) t.items.length) := by
  induction since generalizing p with
  | nil => simp [trace, hp]
  | cons c cs ih =>
    obtain ⟨hr, hrs⟩ := List.ne_and_not_mem_of_not_mem_cons hr
    obtain ⟨hc, hcs⟩ := List.ne_and_not_mem_of_not_mem_cons hc
    cases c with
    | rewind => exact absurd rfl hr
    | close => exact absurd rfl hc
    | start | hasNext => simpa [trace, call] using ih hp hrs hcs
    | next =>
      rw [trace, List.count_cons_self]
      by_cases hlt : p < t.items.length
      -- past the items the position is the minimum already
      · rw [call_next_of_some (List.getElem?_eq_getElem hlt), ih hlt hrs hcs, Nat.succ_add, Nat.add_succ]
      · rw [call_next_of_none (List.getElem?_eq_none (Nat.le_of_not_lt hlt)), ih hp hrs hcs]
        congr 1
        omega

end Tape

/-! ## Sources on their tapes -/

namespace Source

/-- What a source has to give: the rows of a buffer or a scan, or the result rows of the groups with the errors of
finalizing them. -/
def tape : Source → Tape
  | buffer b => ⟨b.rows.toList.map .ok, .exhausted, false⟩
  | failing s => ⟨s.rows.toList.map .ok, FailingScan.readError, true⟩
  | results r => ⟨r.aggregator.groups.toList.map Group.row, .exhausted, false⟩

/-- Where a source stands. -/
def cursor : Source → Cursor
  | buffer b => b.cursor
  | failing s => s.cursor
  | results r => r.cursor

/-- A source that stands somewhere else. -/
def moveTo (position : Option Nat) : Source → Source
  | buffer b => buffer { b with cursor := ⟨position⟩ }
  | failing s => failing { s with cursor := ⟨position⟩ }
  | results r => results { r with cursor := ⟨position⟩ }

variable (s : Source) (position : Option Nat)

@[simp] theorem tape_moveTo : (s.moveTo position).tape = s.tape := by
  cases s <;> rfl

@[simp] theorem cursor_moveTo : (s.moveTo position).cursor = ⟨position⟩ := by
  cases s <;> rfl

theorem moveTo_position : s.moveTo s.cursor.position = s := by
  cases s <;> rfl

variable {s position} in
theorem moveTo_of_cursor (hs : s.cursor = ⟨position⟩) : s.moveTo position = s := by
  have h := s.moveTo_position
  rwa [hs] at h

@[simp] theorem tape_close : (close s).tape = s.tape := by
  cases s <;> rfl

@[simp] theorem cursor_close : (close s).cursor = .closed := by
  cases s <;> rfl

variable {s} {p : Nat} {c : Call}

/-- An open source claims another item when its tape does. -/
theorem call_hasNext_of_open (hs : s.cursor = ⟨some p⟩) :
    call s .hasNext = (s.tape.call (some p) .hasNext).mapState s.moveTo := by
  cases s with
  | buffer b =>
    obtain ⟨schema, rows, cursor⟩ := b
    cases hs
    have h : hasNext (buffer ⟨schema, rows, ⟨some p⟩⟩) = .ok (decide (p < rows.size)) := Buffer.hasNext_of_open rfl
    simp [call, h, Tape.call, tape, Reply.mapState, moveTo]
  | failing s =>
    obtain ⟨schema, rows, cursor, closings⟩ := s
    cases hs
    rfl
  | results r =>
    obtain ⟨a, cursor⟩ := r
    cases hs
    have h : hasNext (results ⟨a, ⟨some p⟩⟩) = .ok (decide (p < a.groups.size)) := Results.hasNext_of_open rfl
    simp [call, h, Tape.call, tape, Reply.mapState, moveTo]

theorem call_next_of_item (item : Except Error Row) (hitem : s.tape.items[p]? = some item)
    (h : next s = ⟨item, s.moveTo (some (p + 1))⟩) :
    call s .next = (s.tape.call (some p) .next).mapState s.moveTo := by
  rw [Tape.call_next_of_some hitem]
  exact congrArg (Reply.map Answer.row) h

theorem call_next_of_end (hs : s.cursor = ⟨some p⟩) (hend : s.tape.items[p]? = none)
    (h : next s = ⟨.error s.tape.beyond, s⟩) :
    call s .next = (s.tape.call (some p) .next).mapState s.moveTo := by
  rw [Tape.call_next_of_none hend, Reply.mapState, moveTo_of_cursor hs]
  exact congrArg (Reply.map Answer.row) h

/-- An open source hands out the item of its tape at its position, or reads past the items. -/
theorem call_next_of_open (hs : s.cursor = ⟨some p⟩) :
    call s .next = (s.tape.call (some p) .next).mapState s.moveTo := by
  cases s with
  | buffer b =>
    by_cases hp : p < b.rows.size
    · refine call_next_of_item (.ok b.rows[p]) (by simp [tape, hp]) ?_
      exact congrArg (Reply.mapState buffer) (Buffer.next_of_lt hs hp)
    · refine call_next_of_end hs (by simpa [tape] using hp) ?_
      exact congrArg (Reply.mapState buffer) (Buffer.next_of_le hs (Nat.le_of_not_lt hp))
  | failing s =>
    by_cases hp : p < s.rows.size
    · refine call_next_of_item (.ok s.rows[p]) (by simp [tape, hp]) ?_
      exact congrArg (Reply.mapState failing) (FailingScan.next_of_lt hs hp)
    · refine call_next_of_end hs (by simpa [tape] using hp) ?_
      exact congrArg (Reply.mapState failing) (FailingScan.next_of_le hs (Nat.le_of_not_lt hp))
  | results r =>
    by_cases hp : p < r.aggregator.groups.size
    · refine call_next_of_item r.aggregator.groups[p].row (by simp [tape, hp]) ?_
      exact congrArg (Reply.mapState results) (Results.next_of_lt hs hp)
    · refine call_next_of_end hs (by simpa [tape] using hp) ?_
      exact congrArg (Reply.mapState results) (Results.next_of_le hs (Nat.le_of_not_lt hp))

/-- A call on a source is the call on its tape. -/
theorem call_of_ne_close (hc : c ≠ .close) : call s c = (s.tape.call s.cursor.position c).mapState s.moveTo := by
  obtain ⟨position, hs⟩ : ∃ position, s.cursor = ⟨position⟩ := ⟨_, rfl⟩
  rw [hs]
  cases position with
  | none =>
    obtain ⟨schema, rows, cursor⟩ | ⟨schema, rows, cursor, closings⟩ | ⟨a, cursor⟩ := s <;> cases hs <;>
      cases c <;> first | rfl | exact absurd rfl hc
  | some p =>
    cases c with
    | close => exact absurd rfl hc
    | hasNext => exact call_hasNext_of_open hs
    | next => exact call_next_of_open hs
    | start | rewind =>
      obtain ⟨schema, rows, cursor⟩ | ⟨schema, rows, cursor, closings⟩ | ⟨a, cursor⟩ := s <;> cases hs <;> rfl

/-- A call moves a source to where it moves the tape. -/
theorem call_eq (s : Source) (c : Call) :
    (call s c).outcome = (s.tape.call s.cursor.position c).outcome ∧
      (call s c).state.cursor.position = (s.tape.call s.cursor.position c).state ∧ (call s c).state.tape = s.tape := by
  by_cases hc : c = .close
  · subst hc
    refine ⟨?_, ?_, s.tape_close⟩
    · cases s.cursor.position <;> rfl
    · rw [show (call s .close).state.cursor = .closed from s.cursor_close]
      cases s.cursor.position <;> rfl
  · rw [call_of_ne_close hc]
    simp

/-- Calls on a source are the calls on its tape, which stays what it is. -/
theorem trace_eq (s : Source) (calls : List Call) :
    (trace s calls).1 = (s.tape.trace s.cursor.position calls).1 ∧
      (trace s calls).2.cursor.position = (s.tape.trace s.cursor.position calls).2 ∧
      (trace s calls).2.tape = s.tape := by
  induction calls generalizing s with
  | nil => exact ⟨rfl, rfl, rfl⟩
  | cons c cs ih =>
    obtain ⟨ho, hp, ht⟩ := call_eq s c
    obtain ⟨iho, ihp, iht⟩ := ih (call s c).state
    rw [ht, hp] at iho ihp
    refine ⟨?_, ihp, iht.trans ht⟩
    simp only [trace, Tape.trace, iho, ho]

/-- Neither the items of a source nor its end break the protocol. -/
theorem proper_tape (s : Source) : s.tape.Proper := by
  cases s with
  | buffer b => exact ⟨by simp [tape], nofun⟩
  | failing s => exact ⟨by simp [tape], nofun⟩
  | results r =>
    refine ⟨fun fault h => ?_, nofun⟩
    obtain ⟨g, -, hg⟩ := List.mem_map.mp h
    obtain ⟨_, h⟩ := Group.error_of_row hg
    cases h

/-- Whether a source is open. -/
def isOpen (s : Source) : Bool :=
  s.cursor.isOpen

/-- The calls that break the protocol are those that the source refuses for being open or closed. -/
theorem protocol_iff :
    (∃ fault, (call s c).outcome = .error (.protocol fault)) ↔ Tape.refuses s.isOpen c = true := by
  rw [(call_eq s c).1]
  exact Tape.protocol_iff s.proper_tape

/-- A call that breaks the protocol changes nothing. -/
theorem state_of_protocol {fault : ProtocolFault} (h : (call s c).outcome = .error (.protocol fault)) :
    (call s c).state = s := by
  have hr : Tape.refuses s.isOpen c = true := protocol_iff.mp ⟨fault, h⟩
  have hc : c ≠ .close := by
    rintro rfl
    cases hr
  obtain ⟨_, ht⟩ := Tape.call_of_refuses (t := s.tape) hr
  rw [call_of_ne_close hc, ht]
  exact s.moveTo_position

/-- Whether a source is open depends on the calls of `start` and `close` alone. -/
theorem isOpen_trace (s : Source) (calls : List Call) :
    (trace s calls).2.isOpen = calls.foldl Tape.opens s.isOpen := by
  induction calls generalizing s with
  | nil => rfl
  | cons c cs ih =>
    rw [trace, List.foldl_cons]
    refine (ih _).trans (congrArg (cs.foldl Tape.opens) ?_)
    rw [isOpen, Cursor.isOpen, (call_eq s c).2.1, Tape.isSome_call]
    rfl

theorem trace_append (s : Source) (xs ys : List Call) : (trace s (xs ++ ys)).2 = (trace (trace s xs).2 ys).2 := by
  induction xs generalizing s with
  | nil => rfl
  | cons c cs ih => exact ih _

/-- After a source has been taken to its first item, it stands at the item that the calls of `next` count, or past all
items. -/
theorem position_since (hc : c = .start ∨ c = .rewind) (hdone : (call s c).outcome = .ok .done) {since : List Call}
    (hr : .rewind ∉ since) (hcl : .close ∉ since) :
    (trace s (c :: since)).2.cursor = ⟨some (min (since.count .next) s.tape.items.length)⟩ := by
  obtain ⟨ho, hp, ht⟩ := call_eq s c
  have h0 := Tape.state_of_done hc (ho.symm.trans hdone)
  have h := (trace_eq (call s c).state since).2.1
  rw [ht, hp, h0, Tape.position_trace (Nat.zero_le _) hr hcl, Nat.zero_add] at h
  exact congrArg Cursor.mk h

/-- What a source in such a place answers is a matter of its tape and of how often `next` was called. -/
theorem calls_since (hc : c = .start ∨ c = .rewind) (hdone : (call s c).outcome = .ok .done) {since : List Call}
    (hr : .rewind ∉ since) (hcl : .close ∉ since) :
    let s' := (trace s (c :: since)).2
    (call s' .hasNext).outcome =
        .ok (.flag (s.tape.endless || decide (since.count .next < s.tape.items.length))) ∧
      match s.tape.items[since.count .next]? with
      | some item => (call s' .next).outcome = item.map .row
      | none => call s' .next = ⟨.error s.tape.beyond, s'⟩ := by
  intro s'
  have hcur : s'.cursor = _ := position_since hc hdone hr hcl
  have htape : s'.tape = s.tape := (trace_eq s (c :: since)).2.2
  constructor
  · rw [call_hasNext_of_open hcur, htape]
    simp [Tape.call]
  · cases hi : s.tape.items[since.count .next]? with
    | some item =>
      obtain ⟨hlt, -⟩ := List.getElem?_eq_some_iff.mp hi
      rw [Nat.min_eq_left (Nat.le_of_lt hlt)] at hcur
      rw [call_next_of_open hcur, htape, Tape.call_next_of_some hi]
      rfl
    | none =>
      have hle := List.getElem?_eq_none_iff.mp hi
      rw [Nat.min_eq_right hle] at hcur
      rw [call_next_of_open hcur, htape, Tape.call_next_of_none (by simp), Reply.mapState, moveTo_of_cursor hcur]

end Source

end Rollup
