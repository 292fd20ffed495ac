import Rollup.Aggregate.InPlace
import Rollup.Proofs.Aggregate.Quotient

/-!
# Running totals of subtotals

A partial average adds up the sums and the counts that it is given, both in 64 bits. Here its accumulator stands alone,
with any two totals to begin with, and subtotals of any sign are offered to it one after another.

- `HasTotals` says that the accumulator holds two exact totals. A subtotal is taken in if both totals still fit with it;
  otherwise the first total that does not fit is the error and nothing is written (`HasTotals.offerSubtotal_cases`).
- So a run ends with the totals of the subtotals that were taken in (`HasTotals.offerSubtotals`).
- The totals have a quotient unless the count is zero or the quotient does not fit (`HasTotals.finalize_cases`).
-/

namespace Rollup.Accumulator

open Exact

/-! ## Runs -/

/-- What a partial average is given: a sum of values and their count, both of any sign. -/
structure Subtotal where
  sum : Int64
  count : Int64
  deriving DecidableEq

/-- Offer a subtotal to an accumulator. -/
def offerSubtotal (acc : Accumulator) (x : Subtotal) : Reply Accumulator Unit :=
  InPlace.reply (updateInPlace (.subtotal x.sum x.count)) acc

/-- The accumulator after subtotals were offered to it one after another. -/
def offerSubtotals (acc : Accumulator) (xs : List Subtotal) : Accumulator :=
  xs.foldl (fun acc x => (acc.offerSubtotal x).state) acc

/-- The subtotals of a run that are taken in, in order. -/
def takenSubtotals (acc : Accumulator) : List Subtotal → List Subtotal
  | [] => []
  | x :: xs =>
    match (acc.offerSubtotal x).outcome with
    | .ok () => x :: (acc.offerSubtotal x).state.takenSubtotals xs
    | .error _ => (acc.offerSubtotal x).state.takenSubtotals xs

variable {acc : Accumulator} {s n : Int} {x : Subtotal}

theorem takenSubtotals_cons_ok (xs : List Subtotal) (h : (acc.offerSubtotal x).outcome = .ok ()) :
    acc.takenSubtotals (x :: xs) = x :: (acc.offerSubtotal x).state.takenSubtotals xs := by
  rw [takenSubtotals, h]

theorem takenSubtotals_cons_error {e : Error} (xs : List Subtotal)
    (h : (acc.offerSubtotal x).outcome = .error e) :
    acc.takenSubtotals (x :: xs) = (acc.offerSubtotal x).state.takenSubtotals xs := by
  rw [takenSubtotals, h]

/-! ## Exact totals -/

/-- An accumulator of a partial average that holds the totals `s` and `n`. -/
def HasTotals (s n : Int) (acc : Accumulator) : Prop :=
  ∃ sum count : Int64, acc = .partialAverage sum count ∧ sum.toInt = s ∧ count.toInt = n

namespace HasTotals

/-- A subtotal is written as a whole if both totals fit with it; the sum is looked at first. -/
theorem offerSubtotal_cases (h : acc.HasTotals s n) (x : Subtotal) :
    (Fits (s + x.sum.toInt) ∧ Fits (n + x.count.toInt) ∧ (acc.offerSubtotal x).outcome = .ok () ∧
      (acc.offerSubtotal x).state.HasTotals (s + x.sum.toInt) (n + x.count.toInt)) ∨
    (¬Fits (s + x.sum.toInt) ∧ acc.offerSubtotal x = ⟨.error (.overflow .partialSum), acc⟩) ∨
    (Fits (s + x.sum.toInt) ∧ ¬Fits (n + x.count.toInt) ∧
      acc.offerSubtotal x = ⟨.error (.overflow .partialCount), acc⟩) := by
  obtain ⟨sum, count, rfl, rfl, rfl⟩ := h
  rw [offerSubtotal, reply_updateInPlace, update]
  cases hs : add? sum x.sum with
  | none => exact .inr (.inl ⟨ofInt?_eq_none_iff_not_fits.mp hs, rfl⟩)
  | some sum' =>
    have hsum := add?_eq_some_iff.mp hs
    rw [← hsum]
    cases hn : add? count x.count with
    | none => exact .inr (.inr ⟨fits_toInt sum', ofInt?_eq_none_iff_not_fits.mp hn, rfl⟩)
    | some count' =>
      have hcount := add?_eq_some_iff.mp hn
      rw [← hcount]
      exact .inl ⟨fits_toInt sum', fits_toInt count', rfl, sum', count', rfl, rfl, rfl⟩

/-- A run ends with the totals of the subtotals that were taken in. -/
theorem offerSubtotals (h : acc.HasTotals s n) (xs : List Subtotal) :
    (acc.offerSubtotals xs).HasTotals (s + ((acc.takenSubtotals xs).map (·.sum.toInt)).sum)
      (n + ((acc.takenSubtotals xs).map (·.count.toInt)).sum) := by
  induction xs generalizing acc s n with
  | nil =>
    rw [takenSubtotals, List.map_nil, List.map_nil, List.sum_nil, add_zero, add_zero]
    exact h
  | cons x xs ih =>
    rw [Accumulator.offerSubtotals, List.foldl_cons]
    rcases h.offerSubtotal_cases x with ⟨-, -, hok, hstate⟩ | ⟨-, hr⟩ | ⟨-, -, hr⟩
    · rw [takenSubtotals_cons_ok xs hok, List.map_cons, List.map_cons, List.sum_cons, List.sum_cons, ← add_assoc,
        ← add_assoc]
      exact ih hstate
    · rw [takenSubtotals_cons_error xs (congrArg Reply.outcome hr), hr]
      exact ih h
    · rw [takenSubtotals_cons_error xs (congrArg Reply.outcome hr), hr]
      exact ih h

/-- Reading the totals fails at a count of zero and at a quotient that does not fit. -/
theorem finalize_cases (h : acc.HasTotals s n) :
    (n = 0 ∧ acc.finalize = .error (.argument .zeroPartialCount)) ∨
    (s = Int64.minValue.toInt ∧ n = -1 ∧ acc.finalize = .error (.overflow .partialAverage)) ∨
    (n ≠ 0 ∧ ¬(s = Int64.minValue.toInt ∧ n = -1) ∧
      ∃ q, acc.finalize = .ok (.single q) ∧ q.toInt = truncate ((s : ℚ) / n)) := by
  obtain ⟨sum, count, rfl, rfl, rfl⟩ := h
  rw [finalize]
  by_cases hzero : count = 0
  · subst hzero
    exact .inl ⟨rfl, rfl⟩
  have hcount : count.toInt ≠ 0 := fun h => hzero (Int64.toInt_inj.mp h)
  rw [if_neg hzero]
  cases hdiv : div? sum count with
  | none =>
    obtain ⟨rfl, rfl⟩ := (div?_eq_none_iff.mp hdiv).resolve_left hzero
    exact .inr (.inl ⟨rfl, rfl, rfl⟩)
  | some q =>
    refine .inr (.inr ⟨hcount, ?_, q, rfl, ?_⟩)
    · rintro ⟨hs, hn⟩
      have hnone := div?_eq_none_iff.mpr (.inr ⟨Int64.toInt_inj.mp hs, Int64.toInt_inj.mp hn⟩)
      rw [hdiv] at hnone
      cases hnone
    · rw [(div?_eq_some_iff.mp hdiv).2, tdiv_eq_truncate]

end HasTotals

/-- **The totals of a partial average are exact.** From any two totals on, whatever subtotals were offered before, the
accumulator holds the exact totals of those that were taken in. The next one is taken in exactly if both totals fit with
it; otherwise the sum is named if it does not fit, and else the count, and neither total changes. Reading fails at a
count of zero, and where the least sum is divided by minus one; everywhere else it gives the exact quotient rounded
toward zero. -/
theorem partial_totals_exact (s₀ n₀ : Int64) (xs : List Subtotal) :
    let acc := (partialAverage s₀ n₀).offerSubtotals xs
    let taken := (partialAverage s₀ n₀).takenSubtotals xs
    let s := s₀.toInt + (taken.map (·.sum.toInt)).sum
    let n := n₀.toInt + (taken.map (·.count.toInt)).sum
    acc.HasTotals s n ∧
    (∀ x : Subtotal,
      let r := acc.offerSubtotal x
      (r.outcome = .ok () ↔ Fits (s + x.sum.toInt) ∧ Fits (n + x.count.toInt)) ∧
      (r.outcome = .ok () → r.state.HasTotals (s + x.sum.toInt) (n + x.count.toInt)) ∧
      (¬Fits (s + x.sum.toInt) → r = ⟨.error (.overflow .partialSum), acc⟩) ∧
      (Fits (s + x.sum.toInt) → ¬Fits (n + x.count.toInt) → r = ⟨.error (.overflow .partialCount), acc⟩)) ∧
    (acc.finalize = .error (.argument .zeroPartialCount) ↔ n = 0) ∧
    (acc.finalize = .error (.overflow .partialAverage) ↔ s = Int64.minValue.toInt ∧ n = -1) ∧
    (n ≠ 0 → ¬(s = Int64.minValue.toInt ∧ n = -1) →
      ∃ q, acc.finalize = .ok (.single q) ∧ q.toInt = truncate ((s : ℚ) / n)) := by
  intro acc taken s n
  have h : acc.HasTotals s n := HasTotals.offerSubtotals ⟨s₀, n₀, rfl, rfl, rfl⟩ xs
  refine ⟨h, fun x => ?_, ?_⟩
  · rcases h.offerSubtotal_cases x with ⟨hs, hn, hok, hstate⟩ | ⟨hs, hr⟩ | ⟨hs, hn, hr⟩
    · exact ⟨iff_of_true hok ⟨hs, hn⟩, fun _ => hstate, fun h => absurd hs h, fun _ h => absurd hn h⟩
    · have hne : (acc.offerSubtotal x).outcome ≠ .ok () := by simp [hr]
      exact ⟨iff_of_false hne fun h => hs h.1, fun h => absurd h hne, fun _ => hr, fun h => absurd h hs⟩
    · have hne : (acc.offerSubtotal x).outcome ≠ .ok () := by simp [hr]
      exact ⟨iff_of_false hne fun h => hn h.2, fun h => absurd h hne, fun h => absurd hs h, fun _ _ => hr⟩
  · rcases h.finalize_cases with ⟨hn, hr⟩ | ⟨hs, hn, hr⟩ | ⟨hn, hs, q, hr, hq⟩
    · rw [hr, hn]
      simp [Error.overflow]
    · rw [hr, hs, hn]
      simp [Error.overflow]
    · rw [hr]
      exact ⟨iff_of_false nofun hn, iff_of_false nofun hs, fun _ _ => ⟨q, rfl, hq⟩⟩

/-- Two subtotals do not fit and leave both totals as they are, and so does a third one, which fits in neither total;
eight divided by minus three is minus two. -/
theorem partial_totals_exact_negative_count :
    let xs : List Subtotal := [⟨Int64.maxValue, 1⟩, ⟨0, Int64.minValue⟩, ⟨1, -1⟩]
    let acc := (partialAverage 7 (-2)).offerSubtotals xs
    (partialAverage 7 (-2)).takenSubtotals xs = [⟨1, -1⟩] ∧
      acc.offerSubtotal ⟨Int64.maxValue, Int64.minValue⟩ = ⟨.error (.overflow .partialSum), acc⟩ ∧
      ∃ q, acc.finalize = .ok (.single q) ∧ q.toInt = -2 := by
  intro xs acc
  have htaken : (partialAverage 7 (-2)).takenSubtotals xs = [⟨1, -1⟩] := by decide
  obtain ⟨-, hnext, -, -, hread⟩ := partial_totals_exact 7 (-2) xs
  rw [htaken] at hnext hread
  obtain ⟨q, hq, hquot⟩ := hread (by decide) (by decide)
  refine ⟨htaken, (hnext ⟨Int64.maxValue, Int64.minValue⟩).2.2.1 (by decide), q, hq, ?_⟩
  rw [hquot, ← tdiv_eq_truncate]
  rfl

end Rollup.Accumulator
