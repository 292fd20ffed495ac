import Rollup.Proofs.Sequence.Tape

/-!
# Several readers over one aggregator

`Readers.interleave` makes calls on readers in any order. A reader gets in an interleaving what it would get if it were
alone (`Readers.interleave_reader`), so each of them stands on the tape of the aggregator.

`sources_play_tapes` puts together what holds of all sources: they are one machine, and they differ in their tapes only.
-/

namespace Rollup

open RowSource

namespace Readers

/-- Calls on readers one after another, each with the number of its reader, and what comes of each. A reader that is
not there cannot be called. -/
def interleave (rs : Readers) : List (Nat × Call) → Option (List (Nat × Except Error Answer) × Readers)
  | [] => some ([], rs)
  | (i, c) :: script => do
    let r ← rs.run i (RowSource.call · c)
    let (events, rs') ← r.state.interleave script
    return ((i, r.outcome) :: events, rs')

/-- What belongs to one reader. -/
def ofReader {α : Type} (i : Nat) (xs : List (Nat × α)) : List α :=
  (xs.filter (·.1 = i)).map Prod.snd

variable {α : Type} {rs rs' : Readers} {i j : Nat} {r : Results} {c : Call} {script : List (Nat × Call)}
  {events : List (Nat × Except Error Answer)}

@[simp] theorem ofReader_cons_self (x : α) (xs : List (Nat × α)) : ofReader i ((i, x) :: xs) = x :: ofReader i xs := by
  simp [ofReader]

theorem ofReader_cons_of_ne (h : j ≠ i) (x : α) (xs : List (Nat × α)) :
    ofReader i ((j, x) :: xs) = ofReader i xs := by
  simp [ofReader, h]

/-- A call on results leaves the aggregator alone. -/
theorem aggregator_call (r : Results) (c : Call) : (call r c).state.aggregator = r.aggregator := by
  cases c with
  | hasNext | close => rfl
  | start =>
    obtain ⟨a, ⟨_ | p⟩⟩ := r <;> rfl
  | rewind =>
    obtain ⟨a, ⟨_ | p⟩⟩ := r <;> rfl
  | next =>
    show r.next.state.aggregator = r.aggregator
    unfold Results.next
    split <;> rfl

theorem reader?_eq_some_iff : rs.reader? i = some r ↔ rs.cursors[i]? = some r.cursor ∧ rs.aggregator = r.aggregator := by
  obtain ⟨a, cursor⟩ := r
  simp [reader?]

/-- The readers with one of them moved. -/
def moveReader (rs : Readers) (i : Nat) (cursor : Cursor) : Readers :=
  { rs with cursors := rs.cursors.setIfInBounds i cursor }

@[simp] theorem size_moveReader (rs : Readers) (i : Nat) (cursor : Cursor) :
    (rs.moveReader i cursor).cursors.size = rs.cursors.size :=
  Array.size_setIfInBounds

/-- A call on a reader is the call on its results, and moves no other reader. -/
theorem run_eq_some_iff {reply : Reply Readers Answer} :
    rs.run i (call · c) = some reply ↔
      ∃ r, rs.reader? i = some r ∧ reply = ⟨(call r c).outcome, rs.moveReader i (call r c).state.cursor⟩ := by
  rw [run, Option.map_eq_some_iff]
  exact exists_congr fun r => and_congr_right fun _ => eq_comm

theorem reader?_moveReader (hi : rs.reader? i = some r) (c : Call) (j : Nat) :
    (rs.moveReader i (call r c).state.cursor).reader? j = if i = j then some (call r c).state else rs.reader? j := by
  obtain ⟨hcursor, ha⟩ := reader?_eq_some_iff.mp hi
  obtain ⟨hlt, -⟩ := Array.getElem?_eq_some_iff.mp hcursor
  rw [reader?, moveReader, Array.getElem?_setIfInBounds]
  by_cases hij : i = j
  · subst hij
    simp [hlt, ha, ← aggregator_call r c]
  · simp [hij, reader?]

theorem interleave_cons_eq_some_iff :
    rs.interleave ((i, c) :: script) = some (events, rs') ↔
      ∃ reply rest, rs.run i (call · c) = some reply ∧ reply.state.interleave script = some (rest, rs') ∧
        events = (i, reply.outcome) :: rest := by
  simp only [interleave, bind, Option.bind_eq_some_iff]
  constructor
  · rintro ⟨reply, hreply, ⟨rest, q⟩, hrest, h⟩
    cases h
    exact ⟨reply, rest, hreply, hrest, rfl⟩
  · rintro ⟨reply, rest, hreply, hrest, rfl⟩
    exact ⟨reply, hreply, _, hrest, rfl⟩

/-- A reader gets in an interleaving what it gets alone. -/
theorem interleave_reader (h : rs.interleave script = some (events, rs')) (hj : rs.reader? j = some r) :
    ofReader j events = (trace r (ofReader j script)).1 ∧
      rs'.reader? j = some (trace r (ofReader j script)).2 := by
  induction script generalizing rs r events with
  | nil =>
    cases h
    exact ⟨rfl, hj⟩
  | cons move script ih =>
    obtain ⟨i, c⟩ := move
    obtain ⟨reply, rest, hreply, hrest, rfl⟩ := interleave_cons_eq_some_iff.mp h
    obtain ⟨q, hi, rfl⟩ := run_eq_some_iff.mp hreply
    have hset := reader?_moveReader hi c j
    by_cases hij : i = j
    · subst hij
      cases hi.symm.trans hj
      obtain ⟨ho, hs⟩ := ih hrest (hset.trans (if_pos rfl))
      rw [ofReader_cons_self, ofReader_cons_self, trace, ho]
      exact ⟨rfl, hs⟩
    · rw [ofReader_cons_of_ne hij, ofReader_cons_of_ne hij]
      exact ih hrest ((hset.trans (if_neg hij)).trans hj)

/-- Readers that are there can be called in any order. -/
theorem exists_interleave_iff :
    (∃ events rs', rs.interleave script = some (events, rs')) ↔ ∀ move ∈ script, move.1 < rs.cursors.size := by
  induction script generalizing rs with
  | nil => simp [interleave]
  | cons move script ih =>
    obtain ⟨i, c⟩ := move
    simp only [interleave_cons_eq_some_iff, List.forall_mem_cons]
    constructor
    · rintro ⟨_, rs', reply, rest, hreply, hrest, -⟩
      obtain ⟨q, hi, rfl⟩ := run_eq_some_iff.mp hreply
      obtain ⟨hlt, -⟩ := Array.getElem?_eq_some_iff.mp (reader?_eq_some_iff.mp hi).1
      have hall := ih.mp ⟨rest, rs', hrest⟩
      exact ⟨hlt, by simpa using hall⟩
    · rintro ⟨hlt, hall⟩
      obtain ⟨q, hi⟩ : ∃ q, rs.reader? i = some q := by
        rw [reader?, Array.getElem?_eq_getElem hlt]
        exact ⟨_, rfl⟩
      have hthere : ∀ move ∈ script, move.1 < (rs.moveReader i (call q c).state.cursor).cursors.size := by
        simpa using hall
      obtain ⟨rest, rs', hrest⟩ := ih.mpr hthere
      exact ⟨_, rs', _, rest, run_eq_some_iff.mpr ⟨q, hi, rfl⟩, hrest, rfl⟩

end Readers

/-! ## The machine -/

/-- Results are a source as they are. -/
theorem Source.trace_results (r : Results) (calls : List Call) :
    trace (Source.results r) calls = ((trace r calls).1, .results (trace r calls).2) := by
  induction calls generalizing r with
  | nil => rfl
  | cons c cs ih =>
    have hcall : call (Source.results r) c = (call r c).mapState .results := by
      obtain ⟨a, ⟨_ | p⟩⟩ := r <;> cases c <;> rfl
    rw [trace, hcall, Reply.state_mapState, ih]
    rfl

open Readers in
/-- **The row sources are one machine.** They play their tapes; a call breaks the protocol exactly if it opens an open
source or asks something of a closed one, and then it changes nothing; after every successful `start` or `rewind` the
items come again from the first one, one with each `next`, until there are no more; and readers of one aggregator do
not disturb each other. -/
theorem sources_play_tapes :
    (∀ (s : Source) (calls : List Call),
      (trace s calls).1 = (s.tape.trace s.cursor.position calls).1 ∧ (trace s calls).2.tape = s.tape ∧
        (trace s calls).2.isOpen = calls.foldl Tape.opens s.isOpen) ∧
    (∀ (s : Source) (c : Call),
      ((∃ fault, (call s c).outcome = .error (.protocol fault)) ↔ Tape.refuses s.isOpen c = true) ∧
      (∀ fault, (call s c).outcome = .error (.protocol fault) → (call s c).state = s) ∧
      (call s .close).outcome = .ok .done ∧ (call s .close).state.isOpen = false) ∧
    (∀ (s : Source) (before since : List Call) (c : Call), c = .start ∨ c = .rewind →
      (call (trace s before).2 c).outcome = .ok .done → .rewind ∉ since → .close ∉ since →
      let s' := (trace s (before ++ c :: since)).2
      (call s' .hasNext).outcome =
          .ok (.flag (s.tape.endless || decide (since.count .next < s.tape.items.length))) ∧
        match s.tape.items[since.count .next]? with
        | some item => (call s' .next).outcome = item.map .row
        | none => call s' .next = ⟨.error s.tape.beyond, s'⟩) ∧
    (∀ (rs : Readers) (script : List (Nat × Call)),
      ((∃ events rs', rs.interleave script = some (events, rs')) ↔ ∀ move ∈ script, move.1 < rs.cursors.size) ∧
      ∀ events rs' j r, rs.interleave script = some (events, rs') → rs.reader? j = some r →
        ofReader j events = (trace (Source.results r) (ofReader j script)).1 ∧
        ∃ r', rs'.reader? j = some r' ∧ (trace (Source.results r) (ofReader j script)).2 = .results r') := by
  refine ⟨?_, ?_, ?_, ?_⟩
  · intro s calls
    obtain ⟨houtcomes, -, htape⟩ := s.trace_eq calls
    exact ⟨houtcomes, htape, s.isOpen_trace calls⟩
  · intro s c
    exact ⟨Source.protocol_iff, fun fault => Source.state_of_protocol, rfl, congrArg Cursor.isOpen s.cursor_close⟩
  · intro s before since c hc hdone hr hcl
    obtain ⟨-, -, htape⟩ := s.trace_eq before
    rw [Source.trace_append, ← htape]
    exact Source.calls_since hc hdone hr hcl
  · intro rs script
    refine ⟨exists_interleave_iff, ?_⟩
    intro events rs' j r h hj
    obtain ⟨hevents, hreader⟩ := interleave_reader h hj
    rw [Source.trace_results]
    exact ⟨hevents, _, hreader, rfl⟩

open Readers in
/-- In its second pass a scan breaks where it broke in the first one, and stays there; it cannot be opened again before it
is closed. Results fail at a group whose sum overflows, go on behind it and fail again after a rewind, and so does each
of two readers of them that take turns. -/
theorem sources_play_tapes_second_pass :
    let s := Source.failing (.ofRows ⟨[]⟩ [⟨[.int 7]⟩])
    let s' := (trace s [.start, .next, .next, .close, .start, .next]).2
    let a := ((Aggregator.empty ⟨some ⟨0, .text⟩, 1, .int, .average⟩).mergeAll
      [⟨[.text "b", .int Int64.maxValue]⟩, ⟨[.text "a", .int (-5)]⟩, ⟨[.text "b", .int 1]⟩]).state
    let overflow : Except Error Answer := .error (.overflow .averageSum)
    let mean : Except Error Answer := .ok (.row ⟨[.text "a", .int (-5)]⟩)
    (call s' .hasNext).outcome = .ok (.flag true) ∧ call s' .next = ⟨.error FailingScan.readError, s'⟩ ∧
      (∃ fault, (call s' .start).outcome = .error (.protocol fault) ∧ (call s' .start).state = s') ∧
      (trace (Source.results (.ofAggregator a)) [.start, .next, .next, .next, .rewind, .next]).1 =
        [.ok .done, overflow, mean, .error .exhausted, .ok .done, overflow] ∧
      ∃ events rs', (⟨a, #[.closed, .closed]⟩ : Readers).interleave
          [(0, .start), (1, .start), (0, .next), (1, .next), (0, .next), (1, .rewind), (1, .next)] = some (events, rs') ∧
        ofReader 0 events = [.ok .done, overflow, mean] ∧
        ofReader 1 events = [.ok .done, overflow, .ok .done, overflow] := by
  intro s s' a overflow mean
  obtain ⟨hplay, hprotocol, hpass, hreaders⟩ := sources_play_tapes
  obtain ⟨hmore, hbroken⟩ := hpass s [.start, .next, .next, .close] [.next] .start (.inl rfl) rfl (by decide) (by decide)
  obtain ⟨hrefused, hunmoved, -⟩ := hprotocol s' .start
  obtain ⟨fault, hfault⟩ := hrefused.mpr rfl
  have hgroups : a.groups.toList =
      [⟨some (.text "b"), .average #[Int64.maxValue, 1]⟩, ⟨some (.text "a"), .average #[-5]⟩] := by
    decide +kernel
  have hresults : ∀ calls, (trace (Source.results (.ofAggregator a)) calls).1 =
      (Tape.trace ⟨[.error (.overflow .averageSum), .ok ⟨[.text "a", .int (-5)]⟩], .exhausted, false⟩ none calls).1 := by
    intro calls
    rw [(hplay _ calls).1]
    show (Tape.trace ⟨a.groups.toList.map Group.row, .exhausted, false⟩ none calls).1 = _
    rw [hgroups]
    rfl
  obtain ⟨hcallable, halone⟩ := hreaders ⟨a, #[.closed, .closed]⟩
    [(0, .start), (1, .start), (0, .next), (1, .next), (0, .next), (1, .rewind), (1, .next)]
  obtain ⟨events, rs', h⟩ := hcallable.mpr (by decide)
  have hfirst := (halone events rs' 0 (.ofAggregator a) h rfl).1
  have hsecond := (halone events rs' 1 (.ofAggregator a) h rfl).1
  rw [hresults] at hfirst hsecond
  exact ⟨hmore, hbroken, ⟨fault, hfault, hunmoved fault hfault⟩, hresults _, events, rs', h, hfirst, hsecond⟩

end Rollup
