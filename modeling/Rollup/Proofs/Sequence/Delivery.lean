import Rollup.Source

/-!
# What a source delivers

`Delivers s items`: from `s` on, the rows and failures that an open source has to give are `items`; what would come
after a failure is left open, since nobody asks for it. Feeding from such a source is absorbing the items
(`feed_eq_absorbOutcomes`), for every way of taking rows in.

The three sources deliver their rows: a buffer (`delivers_buffer`), a failing scan with the read error at the end
(`delivers_failingScan`), and results, whose items are the result rows of the groups or the errors of finalizing them
(`delivers_results`). Results also answer one call of `next` per group and are exhausted then (`trace_next_results`).

Of a source of any type it is known that feeding from it keeps what each step keeps (`Keeps.feed`, `Keeps.pass`).
-/

namespace Rollup

/-- Put outcomes into a state, up to the first one that is an error or is refused. -/
def absorbOutcomes {α β : Type} (step : β → α → Except Error β) (b : β) (items : List (Except Error α)) :
    Reply β Unit :=
  absorb (fun b item => item >>= step b) b items

section

variable {α β : Type} {step : β → α → Except Error β} {b b' : β} {x : α} {e : Error}

@[simp] theorem absorbOutcomes_nil : absorbOutcomes step b [] = ⟨.ok (), b⟩ := rfl

theorem absorbOutcomes_error (items : List (Except Error α)) :
    absorbOutcomes step b (.error e :: items) = ⟨.error e, b⟩ :=
  absorb_cons_error items rfl

theorem absorbOutcomes_refused (items : List (Except Error α)) (h : step b x = .error e) :
    absorbOutcomes step b (.ok x :: items) = ⟨.error e, b⟩ :=
  absorb_cons_error items h

theorem absorbOutcomes_ok (items : List (Except Error α)) (h : step b x = .ok b') :
    absorbOutcomes step b (.ok x :: items) = absorbOutcomes step b' items :=
  absorb_cons_ok items h

theorem absorbOutcomes_map_ok (step : β → α → Except Error β) (b : β) (xs : List α) :
    absorbOutcomes step b (xs.map .ok) = absorb step b xs := by
  induction xs generalizing b with
  | nil => rfl
  | cons x xs ih =>
    rw [List.map_cons]
    cases h : step b x with
    | ok b' => rw [absorbOutcomes_ok _ h, absorb_cons_ok _ h, ih]
    | error e => rw [absorbOutcomes_refused _ h, absorb_cons_error _ h]

/-- If all outcomes are absorbed, then none of them is an error. -/
theorem error_not_mem_of_absorbOutcomes_ok {items : List (Except Error α)}
    (h : (absorbOutcomes step b items).outcome = .ok ()) (e : Error) : .error e ∉ items := by
  induction items generalizing b with
  | nil => exact List.not_mem_nil
  | cons item items ih =>
    cases item with
    | error e' =>
      rw [absorbOutcomes_error] at h
      cases h
    | ok x =>
      cases hs : step b x with
      | error e' =>
        rw [absorbOutcomes_refused items hs] at h
        cases h
      | ok b' =>
        rw [absorbOutcomes_ok items hs] at h
        simpa using ih h

theorem absorbOutcomes_append (step : β → α → Except Error β) (b : β) (xs ys : List (Except Error α)) :
    absorbOutcomes step b (xs ++ ys) =
      match absorbOutcomes step b xs with
      | ⟨.ok (), b'⟩ => absorbOutcomes step b' ys
      | ⟨.error e, b'⟩ => ⟨.error e, b'⟩ :=
  absorb_append _ b xs ys

/-- An error after the last member is met if no member is refused before. -/
theorem absorbOutcomes_concat_error (step : β → α → Except Error β) (b : β) (xs : List α) (e : Error) :
    absorbOutcomes step b (xs.map .ok ++ [.error e]) =
      match absorb step b xs with
      | ⟨.ok (), b'⟩ => ⟨.error e, b'⟩
      | ⟨.error e', b'⟩ => ⟨.error e', b'⟩ := by
  rw [absorbOutcomes, absorb_append, ← absorbOutcomes, absorbOutcomes_map_ok]
  rcases absorb step b xs with ⟨⟨⟩ | ⟨⟩, b'⟩ <;> rfl

end

/-! ## Feeding from a source -/

namespace RowSource

variable {β σ : Type} [RowSource σ]

/-- The rows and failures that an open source has to give. -/
inductive Delivers : σ → List (Except Error Row) → Prop
  | done {s : σ} : hasNext s = .ok false → Delivers s []
  | failed {s : σ} {e : Error} (items : List (Except Error Row)) :
      hasNext s = .ok true → (next s).outcome = .error e → Delivers s (.error e :: items)
  | row {s : σ} {row : Row} {items : List (Except Error Row)} :
      hasNext s = .ok true → (next s).outcome = .ok row → Delivers (next s).state items → Delivers s (.ok row :: items)

section Feed

variable {step : β → Row → Except Error β} {b b' : β} {s : σ} {row : Row} {e : Error}

theorem feed_of_failed (hn : hasNext s = .error e) : feed step b s = ⟨.error e, b, s⟩ := by
  rw [feed, hn]

theorem feed_of_done (hn : hasNext s = .ok false) : feed step b s = ⟨.ok (), b, s⟩ := by
  rw [feed, hn]

theorem feed_of_next_error (hn : hasNext s = .ok true) (hr : (next s).outcome = .error e) :
    feed step b s = ⟨.error e, b, (next s).state⟩ := by
  rw [feed, hn]
  dsimp only
  split <;> simp_all

theorem feed_of_refused (hn : hasNext s = .ok true) (hr : (next s).outcome = .ok row) (hs : step b row = .error e) :
    feed step b s = ⟨.error e, b, (next s).state⟩ := by
  rw [feed, hn]
  dsimp only
  split <;> simp_all

theorem feed_of_row (hn : hasNext s = .ok true) (hr : (next s).outcome = .ok row) (hs : step b row = .ok b') :
    feed step b s = feed step b' (next s).state := by
  rw [feed, hn]
  dsimp only
  split <;> simp_all

/-- Feeding from a source absorbs what the source delivers. -/
theorem feed_eq_absorbOutcomes {items : List (Except Error Row)} (h : Delivers s items) (b : β) :
    (feed step b s).mapState Prod.fst = absorbOutcomes step b items := by
  induction h generalizing b with
  | done hn =>
    rw [feed_of_done hn]
    rfl
  | failed items hn he =>
    rw [feed_of_next_error hn he, absorbOutcomes_error]
    rfl
  | @row s row items hn hr _ ih =>
    cases hs : step b row with
    | error e =>
      rw [feed_of_refused hn hr hs, absorbOutcomes_refused items hs]
      rfl
    | ok b' =>
      rw [feed_of_row hn hr hs, absorbOutcomes_ok items hs]
      exact ih b'

end Feed

/-- A pass over a source that can be opened absorbs what the opened source delivers. -/
theorem pass_eq_absorbOutcomes {step : β → Row → Except Error β} {s s' : σ} {items : List (Except Error Row)}
    (hs : start s = .ok s') (h : Delivers s' items) (b : β) :
    (pass step b s).mapState Prod.fst = absorbOutcomes step b items := by
  rw [pass, hs]
  exact feed_eq_absorbOutcomes h b

/-! ## What taking in rows keeps -/

section Keeps

variable {α : Type} {P : β → Prop} {E : Error → Prop}

/-- A step keeps a property of the state, and its errors are of one kind. -/
structure Keeps (P : β → Prop) (E : Error → Prop) (step : β → α → Except Error β) : Prop where
  ok : ∀ {b b' : β} {x : α}, P b → step b x = .ok b' → P b'
  error : ∀ {b : β} {x : α} {e : Error}, P b → step b x = .error e → E e

theorem Keeps.absorb {step : β → α → Except Error β} (h : Keeps P E step) {b : β} (hb : P b) (xs : List α) :
    P (Rollup.absorb step b xs).state ∧ ∀ e, (Rollup.absorb step b xs).outcome = .error e → E e := by
  induction xs generalizing b with
  | nil => exact ⟨hb, nofun⟩
  | cons x xs ih =>
    cases hx : step b x with
    | ok b' =>
      rw [absorb_cons_ok xs hx]
      exact ih (h.ok hb hx)
    | error e =>
      rw [absorb_cons_error xs hx]
      exact ⟨hb, fun _ he => by cases he; exact h.error hb hx⟩

/-- What a step keeps, feeding from a source keeps; it fails as the step does or as the source does. -/
theorem Keeps.feed {step : β → Row → Except Error β} (h : Keeps P E step)
    (hsource : ∀ (s : σ) (c : Call) (e : Error), (call s c).outcome = .error e → E e) {b : β} (hb : P b) (s : σ) :
    P (feed step b s).state.1 ∧ ∀ e, (feed step b s).outcome = .error e → E e := by
  cases hn : hasNext s with
  | error e =>
    rw [feed_of_failed hn]
    refine ⟨hb, fun _ he => ?_⟩
    cases he
    exact hsource s .hasNext e (by rw [call, hn]; rfl)
  | ok more =>
    cases more with
    | false =>
      rw [feed_of_done hn]
      exact ⟨hb, nofun⟩
    | true =>
      cases hr : (next s).outcome with
      | error e =>
        rw [feed_of_next_error hn hr]
        refine ⟨hb, fun _ he => ?_⟩
        cases he
        exact hsource s .next e (by rw [call, Reply.map, hr]; rfl)
      | ok row =>
        have := remaining_next s row hr
        cases hrow : step b row with
        | error e =>
          rw [feed_of_refused hn hr hrow]
          refine ⟨hb, fun _ he => ?_⟩
          cases he
          exact h.error hb hrow
        | ok b' =>
          rw [feed_of_row hn hr hrow]
          exact h.feed hsource (h.ok hb hrow) (next s).state
termination_by remaining s

theorem Keeps.pass {step : β → Row → Except Error β} (h : Keeps P E step)
    (hsource : ∀ (s : σ) (c : Call) (e : Error), (call s c).outcome = .error e → E e) {b : β} (hb : P b) (s : σ) :
    P (pass step b s).state.1 ∧ ∀ e, (pass step b s).outcome = .error e → E e := by
  rw [RowSource.pass]
  cases hs : start s with
  | error e =>
    refine ⟨hb, fun _ he => ?_⟩
    cases he
    exact hsource s .start e (by rw [call, hs]; rfl)
  | ok s' => exact h.feed hsource hb s'

end Keeps

/-! ## The three sources -/

theorem delivers_buffer {b : Buffer} {p : Nat} (hc : b.cursor = ⟨some p⟩) :
    Delivers b ((b.rows.toList.drop p).map .ok) := by
  by_cases hp : p < b.rows.size
  · have hn := Buffer.next_of_lt hc hp
    rw [List.drop_eq_getElem_cons (by simpa using hp), List.map_cons]
    refine .row ?_ ?_ ?_
    · exact (Buffer.hasNext_of_open hc).trans (by rw [decide_eq_true hp])
    · exact congrArg Reply.outcome hn
    · have hs : (next b).state = { b with cursor := ⟨some (p + 1)⟩ } := congrArg Reply.state hn
      rw [hs]
      exact delivers_buffer (b := { b with cursor := ⟨some (p + 1)⟩ }) rfl
  · rw [List.drop_of_length_le (by simpa using hp), List.map_nil]
    exact .done ((Buffer.hasNext_of_open hc).trans (by rw [decide_eq_false hp]))
termination_by b.rows.size - p

theorem delivers_failingScan {s : FailingScan} {p : Nat} (hc : s.cursor = ⟨some p⟩) :
    Delivers s ((s.rows.toList.drop p).map .ok ++ [.error FailingScan.readError]) := by
  by_cases hp : p < s.rows.size
  · have hn := FailingScan.next_of_lt hc hp
    rw [List.drop_eq_getElem_cons (by simpa using hp), List.map_cons]
    refine .row (FailingScan.hasNext_of_open hc) ?_ ?_
    · exact congrArg Reply.outcome hn
    · have hs : (next s).state = { s with cursor := ⟨some (p + 1)⟩ } := congrArg Reply.state hn
      rw [hs]
      exact delivers_failingScan (s := { s with cursor := ⟨some (p + 1)⟩ }) rfl
  · rw [List.drop_of_length_le (by simpa using hp)]
    exact .failed [] (FailingScan.hasNext_of_open hc)
      (congrArg Reply.outcome (FailingScan.next_of_le hc (Nat.le_of_not_lt hp)))
termination_by s.rows.size - p

theorem delivers_results {r : Results} {p : Nat} (hc : r.cursor = ⟨some p⟩) :
    Delivers r ((r.aggregator.groups.toList.drop p).map Group.row) := by
  by_cases hp : p < r.aggregator.groups.size
  · have hn := Results.next_of_lt hc hp
    have hh : hasNext r = .ok true := (Results.hasNext_of_open hc).trans (by rw [decide_eq_true hp])
    have ho : (next r).outcome = r.aggregator.groups[p].row := congrArg Reply.outcome hn
    rw [List.drop_eq_getElem_cons (by simpa using hp), List.map_cons, Array.getElem_toList]
    cases he : r.aggregator.groups[p].row with
    | error e => exact .failed _ hh (ho.trans he)
    | ok row =>
      refine .row hh (ho.trans he) ?_
      have hs : (next r).state = { r with cursor := ⟨some (p + 1)⟩ } := congrArg Reply.state hn
      rw [hs]
      exact delivers_results (r := { r with cursor := ⟨some (p + 1)⟩ }) rfl
  · rw [List.drop_of_length_le (by simpa using hp), List.map_nil]
    exact .done ((Results.hasNext_of_open hc).trans (by rw [decide_eq_false hp]))
termination_by r.aggregator.groups.size - p

end RowSource

/-! ## Reading results to the end -/

open RowSource in
/-- From a position on, results give the outcome of one group per call of `next`, and are exhausted after the last. -/
theorem trace_next_results (a : Aggregator) (p : Nat) :
    (trace (⟨a, ⟨some p⟩⟩ : Results) (List.replicate (a.groups.size - p + 1) .next)).1 =
      (a.groups.toList.drop p).map (fun g => g.row.map Answer.row) ++ [.error .exhausted] := by
  by_cases hp : p < a.groups.size
  · obtain ⟨n, hn⟩ : ∃ n, a.groups.size - p = n + 1 := ⟨a.groups.size - (p + 1), by omega⟩
    have ih := trace_next_results a (p + 1)
    rw [show a.groups.size - (p + 1) + 1 = n + 1 by omega] at ih
    have hr : call (⟨a, ⟨some p⟩⟩ : Results) .next = ⟨a.groups[p].row.map .row, ⟨a, ⟨some (p + 1)⟩⟩⟩ :=
      congrArg (Reply.map Answer.row) (Results.next_of_lt rfl hp)
    rw [hn, List.replicate_succ, trace, hr, List.drop_eq_getElem_cons (by simpa using hp), List.map_cons,
      List.cons_append]
    simp only [Array.getElem_toList, List.cons.injEq, true_and]
    exact ih
  · have hr : call (⟨a, ⟨some p⟩⟩ : Results) .next = ⟨.error .exhausted, ⟨a, ⟨some p⟩⟩⟩ :=
      congrArg (Reply.map Answer.row) (Results.next_of_le rfl (Nat.le_of_not_lt hp))
    rw [show a.groups.size - p = 0 by omega, List.drop_of_length_le (by simpa using hp)]
    simp only [Nat.zero_add, List.replicate_one, trace, hr, List.map_nil, List.nil_append]
termination_by a.groups.size - p

end Rollup
