import Rollup.Proofs.Sequence.Tape

/-!
# Draining sources

What an open source is fed to, and where the source stands afterwards. Rows that are taken in move it on by one item
each (`Source.feed_of_taken`). The feeding ends past the items (`Source.feed_of_end`) or right after an item that is an
error (`Source.feed_of_failed`).

Collecting refuses no row, so it gives the remaining rows, or the first error among the items that remain
(`Source.collect_of_rows`, `Source.collect_of_failed`). The results of an aggregator are collected in the same way
(`Results.collect_of_rows`, `Results.collect_of_failed`).
-/

namespace Rollup

open RowSource

namespace RowSource

variable {β σ τ : Type} [RowSource σ] [RowSource τ]

/-- A source that answers as another one does is drained as that one. -/
theorem feed_map {f : σ → τ} (hhas : ∀ s, hasNext (f s) = hasNext s) (hnext : ∀ s, next (f s) = (next s).mapState f)
    (step : β → Row → Except Error β) (b : β) (s : σ) :
    feed step b (f s) = (feed step b s).mapState fun (b, s) => (b, f s) := by
  cases hn : hasNext s with
  | error e =>
    rw [feed_of_failed hn, feed_of_failed ((hhas s).trans hn)]
    rfl
  | ok more =>
    have hn' := (hhas s).trans hn
    cases more with
    | false =>
      rw [feed_of_done hn, feed_of_done hn']
      rfl
    | true =>
      have hs : (next (f s)).state = f (next s).state := congrArg Reply.state (hnext s)
      cases hr : (next s).outcome with
      | error e =>
        have hr' : (next (f s)).outcome = .error e := (congrArg Reply.outcome (hnext s)).trans hr
        rw [feed_of_next_error hn hr, feed_of_next_error hn' hr', hs]
        rfl
      | ok row =>
        have := remaining_next s row hr
        have hr' : (next (f s)).outcome = .ok row := (congrArg Reply.outcome (hnext s)).trans hr
        cases hrow : step b row with
        | error e =>
          rw [feed_of_refused hn hr hrow, feed_of_refused hn' hr' hrow, hs]
          rfl
        | ok b' =>
          rw [feed_of_row hn hr hrow, feed_of_row hn' hr' hrow, hs]
          exact feed_map hhas hnext step b' (next s).state
termination_by remaining s

theorem collect_map {f : σ → τ} (hhas : ∀ s, hasNext (f s) = hasNext s) (hnext : ∀ s, next (f s) = (next s).mapState f)
    (s : σ) : collect (f s) = (collect s).mapState f := by
  unfold collect
  rw [feed_map hhas hnext]
  rfl

/-- What is collected from the other source is collected from this one. -/
theorem collect_of_collect_map {f : σ → τ} (hhas : ∀ s, hasNext (f s) = hasNext s)
    (hnext : ∀ s, next (f s) = (next s).mapState f) (hf : Function.Injective f) {s s' : σ}
    {outcome : Except Error (List Row)} (h : collect (f s) = ⟨outcome, f s'⟩) : collect s = ⟨outcome, s'⟩ := by
  rw [collect_map hhas hnext] at h
  have hstate : (collect s).state = s' := hf (congrArg Reply.state h)
  rw [← hstate, ← show (collect s).outcome = outcome from congrArg Reply.outcome h]

/-- Rows are collected in order, whatever has been collected before. -/
theorem absorb_push (acc : Array Row) (rows : List Row) :
    absorb (fun (rows : Array Row) row => .ok (rows.push row)) acc rows = ⟨.ok (), acc ++ rows.toArray⟩ := by
  induction rows generalizing acc with
  | nil => simp
  | cons row rows ih =>
    rw [absorb_cons_ok rows rfl, ih]
    simp

end RowSource

/-! ## The row sources -/

namespace Source

variable {β : Type} {step : β → Row → Except Error β} {b b' : β} {s : Source} {p : Nat} {rows : List Row} {e : Error}

theorem moveTo_moveTo (s : Source) (position position' : Option Nat) :
    (s.moveTo position).moveTo position' = s.moveTo position' := by
  cases s <;> rfl

theorem hasNext_of_open (hs : s.cursor = ⟨some p⟩) :
    hasNext s = .ok (s.tape.endless || decide (p < s.tape.items.length)) := by
  have h : (hasNext s).map Answer.flag = .ok (.flag (s.tape.endless || decide (p < s.tape.items.length))) :=
    congrArg Reply.outcome (call_hasNext_of_open hs)
  cases hn : hasNext s with
  | error e =>
    rw [hn] at h
    cases h
  | ok more =>
    rw [hn] at h
    cases h
    rfl

/-- An open source hands out the item at its position and moves past it. -/
theorem next_of_item {item : Except Error Row} (hs : s.cursor = ⟨some p⟩) (h : s.tape.items[p]? = some item) :
    (next s).outcome = item ∧ (next s).state = s.moveTo (some (p + 1)) := by
  have hcall := call_next_of_open hs
  rw [Tape.call_next_of_some h] at hcall
  refine ⟨?_, congrArg Reply.state hcall⟩
  have ho : (next s).outcome.map Answer.row = item.map Answer.row := congrArg Reply.outcome hcall
  cases hn : (next s).outcome <;> cases item <;> rw [hn] at ho <;> cases ho <;> rfl

/-- Past its items an open source fails and stays where it is. -/
theorem next_of_end (hs : s.cursor = ⟨some p⟩) (h : s.tape.items[p]? = none) :
    (next s).outcome = .error s.tape.beyond ∧ (next s).state = s := by
  have hcall := call_next_of_open hs
  rw [Tape.call_next_of_none h, Reply.mapState, moveTo_of_cursor hs] at hcall
  refine ⟨?_, congrArg Reply.state hcall⟩
  have ho : (next s).outcome.map Answer.row = .error s.tape.beyond := congrArg Reply.outcome hcall
  cases hn : (next s).outcome <;> rw [hn] at ho <;> cases ho
  rfl

theorem hasNext_of_item {item : Except Error Row} (hs : s.cursor = ⟨some p⟩) (h : s.tape.items[p]? = some item) :
    hasNext s = .ok true := by
  obtain ⟨hlt, -⟩ := List.getElem?_eq_some_iff.mp h
  rw [hasNext_of_open hs, decide_eq_true hlt, Bool.or_true]

/-- Rows that are taken in move the source on by one item each. -/
theorem feed_of_taken {rest : List (Except Error Row)} (hs : s.cursor = ⟨some p⟩)
    (h : s.tape.items.drop p = rows.map .ok ++ rest) (hb : absorb step b rows = ⟨.ok (), b'⟩) :
    feed step b s = feed step b' (s.moveTo (some (p + rows.length))) := by
  induction rows generalizing b p s with
  | nil =>
    cases hb
    rw [List.length_nil, Nat.add_zero, moveTo_of_cursor hs]
  | cons row rows ih =>
    have hitem : s.tape.items[p]? = some (.ok row) := by
      rw [← List.head?_drop, h]
      rfl
    have hrest : (s.moveTo (some (p + 1))).tape.items.drop (p + 1) = rows.map .ok ++ rest := by
      rw [tape_moveTo, ← List.drop_drop, h]
      rfl
    obtain ⟨ho, hstate⟩ := next_of_item hs hitem
    cases hrow : step b row with
    | error e =>
      rw [absorb_cons_error rows hrow] at hb
      cases hb
    | ok b₁ =>
      rw [absorb_cons_ok rows hrow] at hb
      rw [feed_of_row (hasNext_of_item hs hitem) ho hrow, hstate, ih (cursor_moveTo s _) hrest hb, moveTo_moveTo,
        List.length_cons, Nat.add_assoc, Nat.add_comm 1]

/-- Past the items a source has no more rows, or it fails if it claims to have one. -/
theorem feed_of_end (hs : s.cursor = ⟨some p⟩) (h : s.tape.items[p]? = none) (step : β → Row → Except Error β) (b : β) :
    feed step b s = ⟨if s.tape.endless then .error s.tape.beyond else .ok (), b, s⟩ := by
  have hn := hasNext_of_open hs
  rw [decide_eq_false (Nat.not_lt.mpr (List.getElem?_eq_none_iff.mp h)), Bool.or_false] at hn
  cases hend : s.tape.endless with
  | false =>
    rw [hend] at hn
    exact feed_of_done hn
  | true =>
    rw [hend] at hn
    obtain ⟨ho, hstate⟩ := next_of_end hs h
    rw [feed_of_next_error hn ho, hstate]
    rfl

/-- An error among the items ends the feeding, and the source has passed it. -/
theorem feed_of_failed (hs : s.cursor = ⟨some p⟩) (h : s.tape.items[p]? = some (.error e))
    (step : β → Row → Except Error β) (b : β) :
    feed step b s = ⟨.error e, b, s.moveTo (some (p + 1))⟩ := by
  obtain ⟨ho, hstate⟩ := next_of_item hs h
  rw [feed_of_next_error (hasNext_of_item hs h) ho, hstate]

/-- If only rows remain, then they are collected, and a source that claims to have more fails after them. -/
theorem collect_of_rows (hs : s.cursor = ⟨some p⟩) (h : s.tape.items.drop p = rows.map .ok) :
    collect s = ⟨if s.tape.endless then .error s.tape.beyond else .ok rows, s.moveTo (some (p + rows.length))⟩ := by
  have hend : (s.moveTo (some (p + rows.length))).tape.items[p + rows.length]? = none := by
    rw [tape_moveTo, ← List.getElem?_drop, h, List.getElem?_eq_none (by simp)]
  have hrest : s.tape.items.drop p = rows.map .ok ++ [] := by rw [h, List.append_nil]
  have hfeed := feed_of_taken hs hrest (absorb_push #[] rows)
  rw [feed_of_end (cursor_moveTo s _) hend, tape_moveTo] at hfeed
  unfold collect
  rw [hfeed]
  cases s.tape.endless <;> simp

/-- The first error among the remaining items is what collecting gives, and the source has passed it. -/
theorem collect_of_failed {rest : List (Except Error Row)} (hs : s.cursor = ⟨some p⟩)
    (h : s.tape.items.drop p = rows.map .ok ++ .error e :: rest) :
    collect s = ⟨.error e, s.moveTo (some (p + rows.length + 1))⟩ := by
  have hitem : (s.moveTo (some (p + rows.length))).tape.items[p + rows.length]? = some (.error e) := by
    rw [tape_moveTo, ← List.getElem?_drop, h, List.getElem?_append_right (by simp)]
    simp
  have hfeed := feed_of_taken hs h (absorb_push #[] rows)
  rw [feed_of_failed (cursor_moveTo s _) hitem, moveTo_moveTo] at hfeed
  unfold collect
  rw [hfeed]
  rfl

end Source

/-! ## Results -/

namespace Results

variable {r : Results} {p : Nat} {rows : List Row} {e : Error}

/-- Results are collected as they are among the other sources. -/
theorem collect_of_source {r r' : Results} {outcome : Except Error (List Row)}
    (h : collect (Source.results r) = ⟨outcome, Source.results r'⟩) : collect r = ⟨outcome, r'⟩ :=
  collect_of_collect_map (f := Source.results) (fun _ => rfl) (fun _ => rfl) (fun _ _ => Source.results.inj) h

/-- If every remaining group has a row, then these rows are collected, and the results stand at their end. -/
theorem collect_of_rows (hc : r.cursor = ⟨some p⟩)
    (h : (r.aggregator.groups.toList.drop p).map Group.row = rows.map .ok) :
    collect r = ⟨.ok rows, { r with cursor := ⟨some (p + rows.length)⟩ }⟩ := by
  have hrest : (Source.results r).tape.items.drop p = rows.map .ok := by
    rw [← h, List.map_drop]
    rfl
  exact collect_of_source (Source.collect_of_rows hc hrest)

/-- The error of the first remaining group that has no row is what collecting gives, and the results stand right after
this group. -/
theorem collect_of_failed {rest : List (Except Error Row)} (hc : r.cursor = ⟨some p⟩)
    (h : (r.aggregator.groups.toList.drop p).map Group.row = rows.map .ok ++ .error e :: rest) :
    collect r = ⟨.error e, { r with cursor := ⟨some (p + rows.length + 1)⟩ }⟩ := by
  have hrest : (Source.results r).tape.items.drop p = rows.map .ok ++ .error e :: rest := by
    rw [← h, List.map_drop]
    rfl
  exact collect_of_source (Source.collect_of_failed hc hrest)

end Results

end Rollup
