import Rollup.Error

/-!
# Replies of objects with a state

A call on an object gives a `Reply`: what came of it, and the object afterwards, which a failing call may have moved
too. `absorb` puts the members of a list into a state one by one and stops at the first one that is refused; what was
put in before stays (`absorb_append`).
-/

namespace Rollup

/-- What came of a call, and the object after it. -/
structure Reply (σ α : Type) where
  outcome : Except Error α
  state : σ

variable {α β σ τ : Type}

/-- The reply with another answer in place of the one it gives. -/
def Reply.map (f : α → β) (r : Reply σ α) : Reply σ β :=
  ⟨r.outcome.map f, r.state⟩

/-- The reply with another state, made from the one it leaves. -/
def Reply.mapState (f : σ → τ) (r : Reply σ α) : Reply τ α :=
  ⟨r.outcome, f r.state⟩

@[simp] theorem Reply.outcome_mapState (f : σ → τ) (r : Reply σ α) : (r.mapState f).outcome = r.outcome := rfl

@[simp] theorem Reply.state_mapState (f : σ → τ) (r : Reply σ α) : (r.mapState f).state = f r.state := rfl

@[simp] theorem Reply.state_map (f : α → β) (r : Reply σ α) : (r.map f).state = r.state := rfl

/-! ## Absorbing a list -/

/-- Put members into a state up to the first one that is refused. -/
@[specialize] def absorb (step : β → α → Except Error β) (b : β) : List α → Reply β Unit
  | [] => ⟨.ok (), b⟩
  | x :: xs =>
    match step b x with
    | .ok b' => absorb step b' xs
    | .error e => ⟨.error e, b⟩

@[simp] theorem absorb_nil (step : β → α → Except Error β) (b : β) : absorb step b [] = ⟨.ok (), b⟩ := rfl

/-- A member that is taken in makes way for the rest. -/
theorem absorb_cons_ok {step : β → α → Except Error β} {b b' : β} {x : α} (xs : List α) (h : step b x = .ok b') :
    absorb step b (x :: xs) = absorb step b' xs := by
  simp [absorb, h]

/-- A member that is refused ends the absorbing and leaves the state as it was. -/
theorem absorb_cons_error {step : β → α → Except Error β} {b : β} {x : α} {e : Error} (xs : List α)
    (h : step b x = .error e) : absorb step b (x :: xs) = ⟨.error e, b⟩ := by
  simp [absorb, h]

/-- A list is absorbed part by part; the second part is not looked at once the first has failed. -/
theorem absorb_append (step : β → α → Except Error β) (b : β) (xs ys : List α) :
    absorb step b (xs ++ ys) =
      match absorb step b xs with
      | ⟨.ok (), b'⟩ => absorb step b' ys
      | ⟨.error e, b'⟩ => ⟨.error e, b'⟩ := by
  induction xs generalizing b with
  | nil => rfl
  | cons x xs ih =>
    cases h : step b x with
    | ok b' => rw [List.cons_append, absorb_cons_ok _ h, absorb_cons_ok _ h, ih]
    | error e => rw [List.cons_append, absorb_cons_error _ h, absorb_cons_error _ h]

end Rollup
