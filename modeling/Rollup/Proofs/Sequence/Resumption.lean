import Rollup.Proofs.Sequence.Draining

/-!
# Draining again after a failure

`feedWithin` is the loop of `feed` with a bound on its rounds. Every round but the last takes a row that remains from the
source, so one round more than these is enough (`feedWithin_eq`), also on a source that never says that it has no more.

Collecting from an open source ends at the first item that is an error, and the source has passed it
(`Source.collect_of_first_failed`). So it can be collected from again (`collects`): each call but the last ends at another
error, and one call more than there are errors leads to the end (`Source.collects_eq`).

`draining_ends` puts together what this says of buffers, of failing scans and of results.
-/

namespace Rollup

open RowSource
open Outcome (error?)

/-! ## The loop, and the loop over it -/

namespace RowSource

variable {β σ τ : Type} [RowSource σ] [RowSource τ]

/-- Pull rows as `feed` does, in a number of rounds; there is no answer if more are needed. -/
def feedWithin (step : β → Row → Except Error β) : ℕ → β → σ → Option (Reply (β × σ) Unit)
  | 0, _, _ => none
  | rounds + 1, b, s =>
    match hasNext s with
    | .error e => some ⟨.error e, b, s⟩
    | .ok false => some ⟨.ok (), b, s⟩
    | .ok true =>
      match (next s).outcome with
      | .error e => some ⟨.error e, b, (next s).state⟩
      | .ok row =>
        match step b row with
        | .error e => some ⟨.error e, b, (next s).state⟩
        | .ok b' => feedWithin step rounds b' (next s).state

/-- One round more than rows remain is enough. -/
theorem feedWithin_eq (step : β → Row → Except Error β) {rounds : ℕ} {b : β} {s : σ} (h : remaining s < rounds) :
    feedWithin step rounds b s = some (feed step b s) := by
  induction rounds generalizing b s with
  | zero => exact absurd h (Nat.not_lt_zero _)
  | succ rounds ih =>
    cases hn : hasNext s with
    | error e => simp only [feedWithin, hn, feed_of_failed hn]
    | ok more =>
      cases more with
      | false => simp only [feedWithin, hn, feed_of_done hn]
      | true =>
        cases hr : (next s).outcome with
        | error e => simp only [feedWithin, hn, hr, feed_of_next_error hn hr]
        | ok row =>
          have := remaining_next s row hr
          cases hrow : step b row with
          | error e => simp only [feedWithin, hn, hr, hrow, feed_of_refused hn hr hrow]
          | ok b' =>
            have hrest : feedWithin step rounds b' (next s).state = some (feed step b' (next s).state) := ih (by omega)
            simp only [feedWithin, hn, hr, hrow, feed_of_row hn hr hrow, hrest]

/-- Collect a number of times, one after the other, whatever comes of it, and list what came of each time. -/
def collects (s : σ) : ℕ → List (Except Error (List Row)) × σ
  | 0 => ([], s)
  | n + 1 =>
    let r := collect s
    let (outcomes, s') := collects r.state n
    (r.outcome :: outcomes, s')

theorem collects_succ (s : σ) (n : ℕ) :
    collects s (n + 1) = ((collect s).outcome :: (collects (collect s).state n).1, (collects (collect s).state n).2) :=
  rfl

theorem collects_map {f : σ → τ} (hhas : ∀ s, hasNext (f s) = hasNext s) (hnext : ∀ s, next (f s) = (next s).mapState f)
    (s : σ) (n : ℕ) : collects (f s) n = ((collects s n).1, f (collects s n).2) := by
  induction n generalizing s with
  | zero => rfl
  | succ n ih => rw [collects_succ, collects_succ, collect_map hhas hnext, Reply.state_mapState, ih, Reply.outcome_mapState]

theorem collects_of_collects_map {f : σ → τ} (hhas : ∀ s, hasNext (f s) = hasNext s)
    (hnext : ∀ s, next (f s) = (next s).mapState f) (hf : Function.Injective f) {s s' : σ} {n : ℕ}
    {outcomes : List (Except Error (List Row))} (h : collects (f s) n = (outcomes, f s')) :
    collects s n = (outcomes, s') := by
  rw [collects_map hhas hnext] at h
  have hstate : (collects s n).2 = s' := hf (congrArg Prod.snd h)
  rw [← hstate, ← show (collects s n).1 = outcomes from congrArg Prod.fst h]

end RowSource

/-! ## No further than the end -/

namespace Tape

variable {t : Tape} {position : Option ℕ}

theorem call_le (hp : ∀ p ∈ position, p ≤ t.items.length) (c : Call) :
    ∀ p ∈ (t.call position c).state, p ≤ t.items.length := by
  cases position with
  | none => cases c <;> simp [call]
  | some p =>
    cases c with
    | start | hasNext => exact hp
    | rewind | close => simp [call]
    | next =>
      cases hitem : t.items[p]? with
      | none => rwa [call_next_of_none hitem]
      | some item =>
        obtain ⟨hlt, -⟩ := List.getElem?_eq_some_iff.mp hitem
        rw [call_next_of_some hitem]
        rintro _ ⟨⟩
        exact hlt

theorem trace_le (hp : ∀ p ∈ position, p ≤ t.items.length) (calls : List Call) :
    ∀ p ∈ (t.trace position calls).2, p ≤ t.items.length := by
  induction calls generalizing position with
  | nil => exact hp
  | cons c cs ih => exact ih (call_le hp c)

end Tape

/-! ## Failing items -/

/-- Items are rows, or rows up to a first error. -/
theorem items_cases (items : List (Except Error Row)) :
    (∃ rows : List Row, items = rows.map .ok) ∨
      ∃ (rows : List Row) (e : Error) (rest : List (Except Error Row)), items = rows.map .ok ++ .error e :: rest := by
  cases hitems : items.mapM id with
  | ok rows => exact .inl ⟨rows, by rw [← Outcome.mapM_eq_ok_iff.mp hitems, List.map_id]⟩
  | error e =>
    obtain ⟨before, _, rest, rfl, ⟨rows, hrows⟩, rfl⟩ := Outcome.mapM_eq_error_iff.mp hitems
    exact .inr ⟨rows, e, rest, by rw [← Outcome.mapM_eq_ok_iff.mp hrows, List.map_id]⟩

theorem filterMap_error?_map_ok (rows : List Row) : (rows.map (Except.ok (ε := Error))).filterMap error? = [] := by
  simp [Function.comp_def]

theorem rtakeWhile_map_ok (rows : List Row) :
    (rows.map (Except.ok (ε := Error))).rtakeWhile (·.isOk) = rows.map .ok := by
  rw [List.rtakeWhile_eq_self_iff]
  intro item hitem
  obtain ⟨row, -, rfl⟩ := List.mem_map.mp hitem
  rfl

/-- An item that does not pass cuts off all before it. -/
theorem rtakeWhile_append_cons {α : Type} {pass : α → Bool} {x : α} (hx : pass x = false) (xs ys : List α) :
    (xs ++ x :: ys).rtakeWhile pass = ys.rtakeWhile pass := by
  induction ys using List.reverseRecOn with
  | nil => rw [List.rtakeWhile_concat_neg _ _ _ (by simp [hx]), List.rtakeWhile_nil]
  | append_singleton ys y ih =>
    rw [← List.cons_append, ← List.append_assoc, List.rtakeWhile_concat, List.rtakeWhile_concat, ih]

/-- What comes after a part of the items from a position on. -/
theorem drop_of_split {α : Type} {xs before after : List α} {x : α} {p : ℕ} (h : xs.drop p = before ++ x :: after) :
    p + before.length + 1 ≤ xs.length ∧ xs.drop (p + before.length + 1) = after := by
  have hlength := congrArg List.length h
  rw [List.length_drop, List.length_append, List.length_cons] at hlength
  refine ⟨by omega, ?_⟩
  rw [Nat.add_assoc, ← List.drop_drop, h, ← List.drop_drop, List.drop_left]
  rfl

/-- The items from a position on are rows up to the first of them that is an error. -/
theorem drop_eq_of_first_error {items : List (Except Error Row)} {p f : ℕ} {e : Error} (hpf : p ≤ f)
    (hf : items[f]? = some (.error e))
    (hbefore : ∀ i item, p ≤ i → i < f → items[i]? = some item → ∃ row, item = .ok row) :
    ∃ rows : List Row, rows.length = f - p ∧ items.drop p = rows.map .ok ++ .error e :: items.drop (f + 1) := by
  obtain ⟨hlt, hitem⟩ := List.getElem?_eq_some_iff.mp hf
  have hall : ∀ item ∈ (items.drop p).take (f - p), ∃ row, item = .ok row := by
    intro item hmem
    obtain ⟨i, hi⟩ := List.mem_iff_getElem?.mp hmem
    rw [List.getElem?_take] at hi
    split at hi
    · rw [List.getElem?_drop] at hi
      exact hbefore (p + i) item (by omega) (by omega) hi
    · cases hi
  obtain ⟨rows, hrows⟩ := Outcome.exists_mapM_eq_ok_iff.mpr hall
  refine ⟨rows, ?_, ?_⟩
  · rw [Outcome.length_of_mapM hrows, List.length_take_of_le (by rw [List.length_drop]; omega)]
  · rw [← Outcome.mapM_eq_ok_iff.mp hrows, List.map_id', ← hitem, ← List.drop_eq_getElem_cons hlt]
    rw [show items.drop f = (items.drop p).drop (f - p) by rw [List.drop_drop, Nat.add_sub_cancel' hpf],
      List.take_append_drop]

namespace Source

variable {s : Source} {p f : ℕ} {e : Error}

theorem remaining_eq (s : Source) : remaining s = s.cursor.left s.tape.items.length := by
  cases s <;> simp [remaining, cursor, tape]

theorem hasNext_of_closed (hs : s.cursor = .closed) : hasNext s = .error (.protocol (.closed "has_next")) := by
  obtain ⟨schema, rows, cursor⟩ | ⟨schema, rows, cursor, closings⟩ | ⟨a, cursor⟩ := s <;> cases hs <;> rfl

/-- If only rows remain, then collecting leads to the end. -/
theorem collect_to_end {rows : List Row} (hs : s.cursor = ⟨some p⟩) (h : s.tape.items.drop p = rows.map .ok) :
    collect s =
      ⟨if s.tape.endless then .error s.tape.beyond else .ok rows, s.moveTo (some (max p s.tape.items.length))⟩ := by
  have hlength := congrArg List.length h
  rw [List.length_drop, List.length_map] at hlength
  rw [collect_of_rows hs h, ← hlength, add_tsub_eq_max]

/-- The first item that is an error is what collecting gives, and the source has passed it. -/
theorem collect_of_first_failed (hs : s.cursor = ⟨some p⟩) (hpf : p ≤ f) (hf : s.tape.items[f]? = some (.error e))
    (hbefore : ∀ i item, p ≤ i → i < f → s.tape.items[i]? = some item → ∃ row, item = .ok row) :
    collect s = ⟨.error e, s.moveTo (some (f + 1))⟩ := by
  obtain ⟨rows, hlength, hsplit⟩ := drop_eq_of_first_error hpf hf hbefore
  rw [collect_of_failed hs hsplit, hlength, show p + (f - p) + 1 = f + 1 by omega]

/-- Collected from again and again, a source that does not claim to have more gives every error among its remaining
items, and then the rows after the last of them. -/
theorem collects_eq {s : Source} {p : ℕ} (hs : s.cursor = ⟨some p⟩) (hend : s.tape.endless = false) :
    let items := s.tape.items.drop p
    ∃ rows : List Row, rows.map .ok = items.rtakeWhile (·.isOk) ∧
      collects s ((items.filterMap error?).length + 1) =
        ((items.filterMap error?).map .error ++ [.ok rows], s.moveTo (some (max p s.tape.items.length))) := by
  intro items
  rcases items_cases items with ⟨rows, hrows⟩ | ⟨rows, e, rest, hsplit⟩
  · refine ⟨rows, by rw [hrows, rtakeWhile_map_ok], ?_⟩
    rw [hrows, filterMap_error?_map_ok, List.length_nil, collects_succ, collect_to_end hs hrows, hend]
    rfl
  · -- the source has passed the error, and what remains is what comes after it
    obtain ⟨hle, hrest⟩ := drop_of_split hsplit
    rw [List.length_map] at hle hrest
    obtain ⟨rows', hrows', hcollects⟩ :=
      collects_eq (cursor_moveTo s (some (p + rows.length + 1))) ((s.tape_moveTo _).symm ▸ hend)
    rw [tape_moveTo, hrest] at hrows' hcollects
    have hfailures : items.filterMap error? = e :: rest.filterMap error? := by
      rw [hsplit, List.filterMap_append, filterMap_error?_map_ok, List.nil_append, List.filterMap_cons_some (by rfl)]
    refine ⟨rows', by rw [hrows', hsplit, rtakeWhile_append_cons rfl], ?_⟩
    rw [hfailures, List.length_cons, collects_succ, collect_of_failed hs hsplit, hcollects, moveTo_moveTo,
      Nat.max_eq_right hle, Nat.max_eq_right (by omega)]
    rfl
termination_by s.tape.items.length - p
decreasing_by
  rw [tape_moveTo]
  omega

/-- Closed sources stay within their items, whatever is called. -/
theorem position_le_of_trace (hs : s.cursor = .closed) {calls : List Call} (h : (trace s calls).2.cursor = ⟨some p⟩) :
    p ≤ s.tape.items.length := by
  obtain ⟨-, hposition, -⟩ := trace_eq s calls
  rw [h, hs] at hposition
  exact Tape.trace_le (by simp [Cursor.closed]) calls p hposition.symm

end Source

/-! ## Buffers, failing scans and results -/

/-- The rows from the position on, and the buffer stands at its end. -/
theorem Buffer.collect_of_open {b : Buffer} {p : ℕ} (hc : b.cursor = ⟨some p⟩) :
    collect b = ⟨.ok (b.rows.toList.drop p), { b with cursor := ⟨some (max p b.rows.size)⟩ }⟩ := by
  have hrest : (Source.buffer b).tape.items.drop p = (b.rows.toList.drop p).map .ok := List.map_drop.symm
  have hcollect := Source.collect_to_end (s := .buffer b) hc hrest
  rw [show (Source.buffer b).tape.items.length = b.rows.size by simp [Source.tape]] at hcollect
  exact collect_of_collect_map (f := Source.buffer) (fun _ => rfl) (fun _ => rfl) (fun _ _ => Source.buffer.inj) hcollect

/-- The rows before the break are lost, and the scan stands at the break. -/
theorem FailingScan.collect_of_open {s : FailingScan} {p : ℕ} (hc : s.cursor = ⟨some p⟩) :
    collect s = ⟨.error readError, { s with cursor := ⟨some (max p s.rows.size)⟩ }⟩ := by
  have hrest : (Source.failing s).tape.items.drop p = (s.rows.toList.drop p).map .ok := List.map_drop.symm
  have hcollect := Source.collect_to_end (s := .failing s) hc hrest
  rw [show (Source.failing s).tape.items.length = s.rows.size by simp [Source.tape]] at hcollect
  exact collect_of_collect_map (f := Source.failing) (fun _ => rfl) (fun _ => rfl) (fun _ _ => Source.failing.inj) hcollect

namespace Results

variable {r : Results} {p f : ℕ}

/-- The rows of the remaining groups if they all have one, and the results stand at their end. -/
theorem collect_to_end {rows : List Row} (hc : r.cursor = ⟨some p⟩)
    (h : (r.aggregator.groups.toList.drop p).map Group.row = rows.map .ok) :
    collect r = ⟨.ok rows, { r with cursor := ⟨some (max p r.aggregator.groups.size)⟩ }⟩ := by
  have hlength := congrArg List.length h
  rw [List.length_map, List.length_drop, Array.length_toList, List.length_map] at hlength
  rw [collect_of_rows hc h, ← hlength, add_tsub_eq_max]

/-- The error of the first group that has no row, and the results have passed this group. -/
theorem collect_of_first_failed {g : Group} {e : Error} (hc : r.cursor = ⟨some p⟩) (hpf : p ≤ f)
    (hf : r.aggregator.groups[f]? = some g) (he : g.row = .error e)
    (hbefore : ∀ i g', p ≤ i → i < f → r.aggregator.groups[i]? = some g' → ∃ row, g'.row = .ok row) :
    collect r = ⟨.error e, { r with cursor := ⟨some (f + 1)⟩ }⟩ := by
  have hitems : ∀ i, (Source.results r).tape.items[i]? = r.aggregator.groups[i]?.map Group.row := fun i => by
    rw [← Array.getElem?_toList, ← List.getElem?_map]
    rfl
  refine collect_of_source (Source.collect_of_first_failed hc hpf (by rw [hitems, hf, ← he]; rfl) ?_)
  intro i item hpi hif hitem
  rw [hitems] at hitem
  obtain ⟨g', hg', rfl⟩ := Option.map_eq_some_iff.mp hitem
  exact hbefore i g' hpi hif hg'

/-- Every group that has no row takes one call, and one more call reaches the end. -/
theorem collects_eq (hc : r.cursor = ⟨some p⟩) :
    let items := (r.aggregator.groups.toList.drop p).map Group.row
    ∃ rows : List Row, rows.map .ok = items.rtakeWhile (·.isOk) ∧
      collects r ((items.filterMap error?).length + 1) =
        ((items.filterMap error?).map .error ++ [.ok rows],
          { r with cursor := ⟨some (max p r.aggregator.groups.size)⟩ }) := by
  intro items
  have hitems : (Source.results r).tape.items.drop p = items := List.map_drop.symm
  obtain ⟨rows, hrows, hcollects⟩ := Source.collects_eq (s := .results r) hc rfl
  rw [hitems] at hrows hcollects
  refine ⟨rows, hrows, ?_⟩
  refine collects_of_collects_map (f := Source.results) (fun _ => rfl) (fun _ => rfl) (fun _ _ => Source.results.inj) ?_
  rw [hcollects]
  simp [Source.moveTo, Source.tape]

end Results

/-- **Draining ends, and it stops at the right place.** Feeding from a source takes at most one round more than it has
items ahead, on a source in any place and whatever the rows are fed to. Collecting from an open buffer gives its remaining
rows and leads to its end. A failing scan fails with its read error, all its rows passed. Results give the rows of the
remaining groups if they can all be finalized. Otherwise the first group that cannot ends the collecting with its error
and is passed; so each group that cannot be finalized takes one call, and one more call reaches the end. Closed sources
break the protocol and are left alone, and no run of calls leads past the end. -/
theorem draining_ends :
    (∀ (β : Type) (step : β → Row → Except Error β) (b : β) (s : Source) (rounds : ℕ),
      s.cursor.left s.tape.items.length < rounds → feedWithin step rounds b s = some (feed step b s)) ∧
    (∀ (b : Buffer) (p : ℕ), b.cursor = ⟨some p⟩ →
      collect b = ⟨.ok (b.rows.toList.drop p), { b with cursor := ⟨some (max p b.rows.size)⟩ }⟩) ∧
    (∀ (s : FailingScan) (p : ℕ), s.cursor = ⟨some p⟩ →
      collect s = ⟨.error FailingScan.readError, { s with cursor := ⟨some (max p s.rows.size)⟩ }⟩) ∧
    (∀ (r : Results) (p : ℕ), r.cursor = ⟨some p⟩ →
      let groups := r.aggregator.groups
      let items := (groups.toList.drop p).map Group.row
      let ended : Results := { r with cursor := ⟨some (max p groups.size)⟩ }
      (∀ rows : List Row, items = rows.map .ok → collect r = ⟨.ok rows, ended⟩) ∧
      (∀ (f : ℕ) (g : Group) (e : Error), p ≤ f → groups[f]? = some g → g.row = .error e →
        (∀ i g', p ≤ i → i < f → groups[i]? = some g' → ∃ row, g'.row = .ok row) →
        collect r = ⟨.error e, { r with cursor := ⟨some (f + 1)⟩ }⟩) ∧
      ∃ rows : List Row, rows.map .ok = items.rtakeWhile (·.isOk) ∧
        collects r ((items.filterMap error?).length + 1) =
          ((items.filterMap error?).map .error ++ [.ok rows], ended)) ∧
    (∀ s : Source, s.cursor = .closed →
      collect s = ⟨.error (.protocol (.closed "has_next")), s⟩ ∧
      ∀ (β : Type) (step : β → Row → Except Error β) (b : β),
        feed step b s = ⟨.error (.protocol (.closed "has_next")), b, s⟩) ∧
    ∀ (s : Source) (calls : List Call) (p : ℕ), s.cursor = .closed → (trace s calls).2.cursor = ⟨some p⟩ →
      p ≤ s.tape.items.length := by
  refine ⟨?_, fun _ _ => Buffer.collect_of_open, fun _ _ => FailingScan.collect_of_open, ?_, ?_,
    fun _ _ _ hs => Source.position_le_of_trace hs⟩
  · intro β step b s rounds hrounds
    rw [← s.remaining_eq] at hrounds
    exact feedWithin_eq step hrounds
  · intro r p hc groups items ended
    exact ⟨fun _ => Results.collect_to_end hc, fun _ _ _ => Results.collect_of_first_failed hc, Results.collects_eq hc⟩
  · intro s hs
    have hfeed : ∀ (β : Type) (step : β → Row → Except Error β) (b : β),
        feed step b s = ⟨.error (.protocol (.closed "has_next")), b, s⟩ := fun _ _ _ =>
      RowSource.feed_of_failed (Source.hasNext_of_closed hs)
    refine ⟨?_, hfeed⟩
    unfold collect
    rw [hfeed]
    rfl

/-- Two of four groups overflow, so three calls reach the end; a scan fails also from behind its rows. -/
theorem draining_ends_two_failures :
    let c : Config := ⟨some ⟨0, .text⟩, 1, .int, .average⟩
    let a := ((Aggregator.empty c).mergeAll
      [⟨[.text "b", .int Int64.maxValue]⟩, ⟨[.text "b", .int 1]⟩, ⟨[.text "a", .int (-5)]⟩,
        ⟨[.text "c", .int Int64.minValue]⟩, ⟨[.text "c", .int (-1)]⟩, ⟨[.text "d", .int 7]⟩]).state
    let overflow : Except Error (List Row) := .error (.overflow .averageSum)
    let row : Row := ⟨[.int 4]⟩
    let scan : FailingScan := ⟨⟨[]⟩, #[row], ⟨some 1⟩, 0⟩
    collects (Results.opened a) 3 = ([overflow, overflow, .ok [⟨[.text "d", .int 7]⟩]], ⟨a, ⟨some 4⟩⟩) ∧
      collect (⟨a, ⟨some 1⟩⟩ : Results) = ⟨overflow, ⟨a, ⟨some 3⟩⟩⟩ ∧
      collect (⟨a, ⟨some 3⟩⟩ : Results) = ⟨.ok [⟨[.text "d", .int 7]⟩], ⟨a, ⟨some 4⟩⟩⟩ ∧
      collect (⟨⟨[]⟩, #[row, row], ⟨some 1⟩⟩ : Buffer) = ⟨.ok [row], ⟨⟨[]⟩, #[row, row], ⟨some 2⟩⟩⟩ ∧
      collect scan = ⟨.error FailingScan.readError, scan⟩ ∧
      feedWithin Aggregator.merge 1 a (Source.failing scan) = some (feed Aggregator.merge a (Source.failing scan)) ∧
      collect (Source.results (.ofAggregator a)) = ⟨.error (.protocol (.closed "has_next")), .results (.ofAggregator a)⟩ ∧
      1 ≤ (Source.buffer (.ofRows ⟨[]⟩ [row])).tape.items.length := by
  intro c a overflow row scan
  have hgroups : a.groups.toList =
      [⟨some (.text "b"), .average #[Int64.maxValue, 1]⟩, ⟨some (.text "a"), .average #[-5]⟩,
        ⟨some (.text "c"), .average #[Int64.minValue, -1]⟩, ⟨some (.text "d"), .average #[7]⟩] := by
    decide +kernel
  have hget : ∀ i : ℕ, a.groups[i]? = a.groups.toList[i]? := fun _ => Array.getElem?_toList.symm
  have hrows : ∀ p, (a.groups.toList.drop p).map Group.row =
      [.error (.overflow .averageSum), .ok ⟨[.text "a", .int (-5)]⟩, .error (.overflow .averageSum),
        .ok ⟨[.text "d", .int 7]⟩].drop p := by
    intro p
    rw [List.map_drop, hgroups]
    rfl
  have hsize : a.groups.size = 4 := by
    rw [← Array.length_toList, hgroups]
    rfl
  obtain ⟨hwithin, hbuffer, hscan, hresults, hclosed, htrace⟩ := draining_ends
  obtain ⟨-, -, rows, hlast, hcollects⟩ := hresults (.opened a) 0 rfl
  obtain ⟨-, hfailed, -⟩ := hresults ⟨a, ⟨some 1⟩⟩ 1 rfl
  obtain ⟨hended, -, -⟩ := hresults ⟨a, ⟨some 3⟩⟩ 3 rfl
  refine ⟨?_, ?_, ?_, hbuffer _ 1 rfl, hscan scan 1 rfl, hwithin _ _ a (.failing scan) 1 (by decide),
    (hclosed _ rfl).1, htrace _ [.start, .next] 1 rfl rfl⟩
  · rw [show (Results.opened a).aggregator = a from rfl, hrows] at hlast hcollects
    obtain rfl : rows = [⟨[.text "d", .int 7]⟩] :=
      List.map_injective_iff.mpr (fun _ _ => Except.ok.inj) (hlast.trans (by decide +kernel))
    rw [hsize] at hcollects
    exact hcollects
  · refine hfailed 2 _ _ (by decide) ((hget 2).trans (by rw [hgroups]; rfl)) (by decide +kernel) ?_
    intro i g' hi hi' hg'
    obtain rfl : i = 1 := by omega
    rw [hget, hgroups] at hg'
    cases hg'
    exact ⟨_, rfl⟩
  · have hcollect := hended [⟨[.text "d", .int 7]⟩] (hrows 3)
    rwa [hsize] at hcollect

end Rollup
