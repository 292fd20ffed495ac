import Rollup.Proofs.Aggregate.Offers
import Rollup.Proofs.Producers.Runs

/-!
# Replaying what producers sent

`Aggregator.sent` lists the rows that steps on one cell offer to its aggregator: the row of a merge, the rows of a
longer merge up to the first one that is refused, and nothing after a panic. After every run the cell holds the
aggregator that was offered these rows one by one without any handle or lock, and releasing it gives that aggregator
(`run_replays`).
-/

namespace Rollup

open Producers

namespace Producers.Step

/-- The rows that a step brings. -/
def rows : Step → List Row
  | .merge _ row => [row]
  | .mergeAll _ rows | .mergeAllPanicking _ rows => rows
  | .clone _ | .drop _ | .release _ | .reshare => []

/-- A producer panics under the lock of a cell with the given aggregator: it is told to, and no row of it is refused
first. -/
def panicsOn (a : Aggregator) : Step → Bool
  | .mergeAllPanicking _ rows => (a.mergeAll rows).outcome.isOk
  | _ => false

end Producers.Step

namespace Aggregator

/-- The rows up to the first one that is refused, that one included. -/
def attempted (a : Aggregator) : List Row → List Row
  | [] => []
  | row :: rows =>
    match a.merge row with
    | .ok a' => row :: a'.attempted rows
    | .error _ => [row]

/-- The rows that steps on one cell offer to its aggregator. -/
def sent (a : Aggregator) : List Step → List Row
  | [] => []
  | s :: steps =>
    let rows := a.attempted s.rows
    if s.panicsOn a then rows else rows ++ (a.offerAll rows).sent steps

theorem offerAll_append (a : Aggregator) (xs ys : List Row) : a.offerAll (xs ++ ys) = (a.offerAll xs).offerAll ys :=
  List.foldl_append

/-- Rows that are merged together are offered one by one, up to the first one that is refused. -/
theorem state_mergeAll (a : Aggregator) (rows : List Row) : (a.mergeAll rows).state = a.offerAll (a.attempted rows) := by
  induction rows generalizing a with
  | nil => rfl
  | cons row rows ih =>
    cases h : a.merge row with
    | ok a' => rw [mergeAll_cons_ok rows h, attempted, h, offerAll_cons, offer_of_ok h, ih]
    | error e => rw [mergeAll_cons_error rows h, attempted, h, offerAll_cons, offer_of_error h, offerAll_nil]

end Aggregator

namespace Producers

/-! ## One cell -/

/-- A step on a cell that is not poisoned offers its rows, and poisons the cell if its producer panics. -/
theorem Step.effect_of_unpoisoned (s : Step) (a : Aggregator) :
    s.effect ⟨a, false⟩ = ⟨a.offerAll (a.attempted s.rows), s.panicsOn a⟩ := by
  rw [← Aggregator.state_mergeAll]
  cases s with
  | clone | drop | merge | mergeAll | release | reshare => rfl
  | mergeAllPanicking handle rows =>
    simp only [Step.effect, Step.call?, panicInto, Step.rows, panicsOn]
    cases (a.mergeAll rows).outcome <;> rfl

/-- After steps on a cell its aggregator is the one that was offered the rows sent. -/
theorem aggregator_effects (a : Aggregator) (steps : List Step) :
    (effects ⟨a, false⟩ steps).aggregator = a.offerAll (a.sent steps) := by
  induction steps generalizing a with
  | nil => rfl
  | cons s steps ih =>
    rw [effects_cons, s.effect_of_unpoisoned, Aggregator.sent]
    cases hs : s.panicsOn a with
    | true => rw [effects_of_poisoned steps rfl, if_pos rfl]
    | false => rw [ih, if_neg Bool.false_ne_true, Aggregator.offerAll_append]

/-! ## Runs -/

variable {p : Producers} {steps : List Step} {events : List Event}

/-- **No update is lost, duplicated or reordered.** -/
theorem run_replays {a : Aggregator} (h : (ofAggregator a).run steps = some (events, p)) :
    p.cells[0]?.map Cell.aggregator = some (a.offerAll (a.sent (stepsOn 0 events))) ∧
    (∀ handle r b, p.cellOf? handle = some 0 → p.step (.release handle) = some r → r.outcome = .ok (.aggregator b) →
      b = a.offerAll (a.sent (stepsOn 0 events))) ∧
    (.reshare ∉ steps → stepsOn 0 events = steps) ∧
    ∀ s handle, s.handle? = some handle → ((∃ r, p.step s = some r) ↔ ∃ cell, p.cellOf? handle = some cell) := by
  have hk : p.cells[0]? = some (effects ⟨a, false⟩ (stepsOn 0 events)) := cells_run h rfl
  have hagg := aggregator_effects a (stepsOn 0 events)
  refine ⟨?_, ?_, ?_, ?_⟩
  · rw [hk, Option.map_some, hagg]
  · intro handle r b hc hr hb
    cases step_eq_some_iff.mp hr with
    | early | spoiled => cases hb
    | barred hcall => cases hcall
    | locked hcall => cases hcall
    | released hc' hk' =>
      cases hc.symm.trans hc'
      cases hk.symm.trans hk'
      cases hb
      exact hagg
  · exact stepsOn_of_reshare_not_mem (wellFormed_ofAggregator a) rfl h
  · intro s handle hs
    exact exists_step_iff (run_induction (fun hp hr => hr.wellFormed hp) (wellFormed_ofAggregator a) h) hs

/-- Two handles: a merge, a merge that stops at its second row, a panic, and a merge that comes too late. -/
theorem run_replays_panic :
    let a := Aggregator.empty ⟨none, 0, .int, .sum⟩
    let steps : List Step := [.clone 0, .merge 1 ⟨[.int 5]⟩, .mergeAll 0 [⟨[.int 1]⟩, ⟨[.text "x"]⟩, ⟨[.int 2]⟩],
      .mergeAllPanicking 1 [⟨[.int 7]⟩], .merge 0 ⟨[.int 9]⟩]
    ∃ events p, (ofAggregator a).run steps = some (events, p) ∧
      p.cells[0]?.map Cell.aggregator =
        some (a.offerAll [⟨[.int 5]⟩, ⟨[.int 1]⟩, ⟨[.text "x"]⟩, ⟨[.int 7]⟩]) := by
  intro a steps
  obtain ⟨events, p, h⟩ : ∃ events p, (ofAggregator a).run steps = some (events, p) := ⟨_, _, rfl⟩
  obtain ⟨hcell, -, hsteps, -⟩ := run_replays h
  have hsent : a.sent steps = [⟨[.int 5]⟩, ⟨[.int 1]⟩, ⟨[.text "x"]⟩, ⟨[.int 7]⟩] := by decide +kernel
  rw [hsteps (by decide), hsent] at hcell
  exact ⟨events, p, h, hcell⟩

end Producers

end Rollup
