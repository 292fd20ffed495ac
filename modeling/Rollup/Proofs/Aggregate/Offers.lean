import Rollup.Aggregate.Consistency

/-!
# Runs of offers

Rows are offered to an aggregator one after another, and a row that is refused does not end the run.

- `offerAll` is the aggregator after a run, and `accepted` lists the rows that were merged on the way;
- `offerAll_induction`: what every merged row keeps, with the rows merged so far, a whole run keeps;
- `reply_forM_mergeInPlace`: merging write by write up to the first refused row is `mergeAll`;
- `refused_leave_no_trace`: a refused row changes nothing, so a run without its refused rows is a run in which no row
  is refused, and it ends in the same aggregator.
-/

namespace Rollup.Aggregator

/-- The aggregator after rows were offered to it one by one. -/
def offerAll (a : Aggregator) (rows : List Row) : Aggregator :=
  rows.foldl offer a

/-- The rows of a run that are merged, in order. -/
def accepted (a : Aggregator) : List Row → List Row
  | [] => []
  | row :: rows =>
    let r := InPlace.reply (mergeInPlace row) a
    match r.outcome with
    | .ok () => row :: r.state.accepted rows
    | .error _ => r.state.accepted rows

variable {a a' : Aggregator} {row : Row} {e : Error}

@[simp] theorem offerAll_nil (a : Aggregator) : a.offerAll [] = a := rfl

@[simp] theorem offerAll_cons (a : Aggregator) (row : Row) (rows : List Row) :
    a.offerAll (row :: rows) = (a.offer row).offerAll rows := rfl

theorem offerAll_concat (a : Aggregator) (rows : List Row) (row : Row) :
    a.offerAll (rows ++ [row]) = (a.offerAll rows).offer row := by
  rw [offerAll, List.foldl_append]
  rfl

@[simp] theorem accepted_nil (a : Aggregator) : a.accepted [] = [] := rfl

theorem accepted_cons_ok (rows : List Row) (h : a.merge row = .ok a') :
    a.accepted (row :: rows) = row :: a'.accepted rows := by
  rw [accepted, reply_mergeInPlace, h, Reply.atomic_ok]

theorem accepted_cons_error (rows : List Row) (h : a.merge row = .error e) :
    a.accepted (row :: rows) = a.accepted rows := by
  rw [accepted, reply_mergeInPlace, h, Reply.atomic_error]

/-- The merged rows are rows of the run, in the same order. -/
theorem accepted_sublist (a : Aggregator) (rows : List Row) : (a.accepted rows).Sublist rows := by
  induction rows generalizing a with
  | nil => exact List.Sublist.refl []
  | cons row rows ih =>
    cases h : a.merge row with
    | ok a' => rw [accepted_cons_ok rows h]; exact (ih a').cons_cons row
    | error e => rw [accepted_cons_error rows h]; exact (ih a).cons row

/-! ## What a run keeps -/

/-- What a merge keeps, with the rows merged so far, a run of offers keeps. -/
theorem offerAll_induction {P : Aggregator → List Row → Prop}
    (hstep : ∀ {a a' : Aggregator} {merged : List Row} {row : Row}, P a merged → a.merge row = .ok a' →
      P a' (merged ++ [row]))
    (merged : List Row) (h : P a merged) (rows : List Row) : P (a.offerAll rows) (merged ++ a.accepted rows) := by
  induction rows generalizing a merged with
  | nil => rw [offerAll_nil, accepted_nil, List.append_nil]; exact h
  | cons row rows ih =>
    rw [offerAll_cons]
    cases hm : a.merge row with
    | ok a' =>
      rw [offer_of_ok hm, accepted_cons_ok rows hm, ← List.singleton_append, ← List.append_assoc]
      exact ih _ (hstep h hm)
    | error e =>
      rw [offer_of_error hm, accepted_cons_error rows hm]
      exact ih merged h

/-! ## Runs that stop -/

@[simp] theorem mergeAll_nil (a : Aggregator) : a.mergeAll [] = ⟨.ok (), a⟩ := rfl

theorem mergeAll_cons_ok (rows : List Row) (h : a.merge row = .ok a') : a.mergeAll (row :: rows) = a'.mergeAll rows :=
  absorb_cons_ok rows h

theorem mergeAll_cons_error (rows : List Row) (h : a.merge row = .error e) :
    a.mergeAll (row :: rows) = ⟨.error e, a⟩ :=
  absorb_cons_error rows h

/-- Merging rows write by write, up to the first one that is refused, is `mergeAll`. -/
theorem reply_forM_mergeInPlace (a : Aggregator) (rows : List Row) :
    InPlace.reply (rows.forM mergeInPlace) a = a.mergeAll rows :=
  InPlace.reply_forM reply_mergeInPlace a rows

/-- If all rows can be merged, then offering them merges all of them. -/
theorem of_mergeAll_ok {rows : List Row} (h : (a.mergeAll rows).outcome = .ok ()) :
    (a.mergeAll rows).state = a.offerAll rows ∧ a.accepted rows = rows := by
  induction rows generalizing a with
  | nil => exact ⟨rfl, rfl⟩
  | cons row rows ih =>
    cases hm : a.merge row with
    | ok a' =>
      rw [mergeAll_cons_ok rows hm] at h ⊢
      rw [offerAll_cons, offer_of_ok hm, accepted_cons_ok rows hm]
      exact ⟨(ih h).1, congrArg (row :: ·) (ih h).2⟩
    | error e =>
      rw [mergeAll_cons_error rows hm] at h
      cases h

/-- The merged rows of a run can all be merged again from the start, and give the aggregator of the run. -/
theorem mergeAll_accepted (a : Aggregator) (rows : List Row) :
    a.mergeAll (a.accepted rows) = ⟨.ok (), a.offerAll rows⟩ := by
  induction rows generalizing a with
  | nil => rfl
  | cons row rows ih =>
    rw [offerAll_cons]
    cases h : a.merge row with
    | ok a' => rw [accepted_cons_ok rows h, mergeAll_cons_ok _ h, offer_of_ok h]; exact ih a'
    | error e => rw [accepted_cons_error rows h, offer_of_error h]; exact ih a

/-- **Refused rows leave no trace.** After any run, a row whose merge fails leaves the aggregator exactly as it was;
and the run without its refused rows, stopped by the first failure, meets none and ends in the same aggregator. -/
theorem refused_leave_no_trace (a : Aggregator) (rows : List Row) :
    (∀ row e, (InPlace.reply (mergeInPlace row) (a.offerAll rows)).outcome = .error e →
      (InPlace.reply (mergeInPlace row) (a.offerAll rows)).state = a.offerAll rows) ∧
    InPlace.reply ((a.accepted rows).forM mergeInPlace) a = ⟨.ok (), a.offerAll rows⟩ := by
  constructor
  · intro row e h
    rw [reply_mergeInPlace] at h ⊢
    cases hm : (a.offerAll rows).merge row with
    | ok a' => rw [hm, Reply.atomic_ok] at h; cases h
    | error e' => rfl
  · rw [reply_forM_mergeInPlace]
    exact mergeAll_accepted a rows

/-- A subtotal whose sum could be added is refused for its count, and the sum stays as it was. -/
theorem refused_leave_no_trace_partialCount :
    let a := (empty ⟨none, 0, .int, .partialAverage⟩).offerAll [⟨[.int 5, .int Int64.maxValue]⟩]
    let r := InPlace.reply (mergeInPlace ⟨[.int 1, .int 1]⟩) a
    r.outcome = .error (.overflow .partialCount) ∧ r.state = a := by
  intro a r
  have h : r.outcome = .error (.overflow .partialCount) := by rfl
  exact ⟨h, (refused_leave_no_trace (empty ⟨none, 0, .int, .partialAverage⟩) _).1 _ _ h⟩

end Rollup.Aggregator
