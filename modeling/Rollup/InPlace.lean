import Rollup.Outcome
import Rollup.Reply

/-!
# Calls that write in place

An `InPlace` call writes to an object as it goes, and what it has written stays there if it fails later on. A call is
`Reply.atomic` if it makes a whole change or none; a loop of such calls absorbs a list (`InPlace.reply_forM`).
-/

namespace Rollup

/-- A call that writes to an object as it goes; a failure leaves what has been written. -/
abbrev InPlace (σ α : Type) :=
  EStateM Error σ α

section InPlace

variable {σ α β : Type}

/-- What came of a call, and the object after it. -/
def InPlace.reply (x : InPlace σ α) (s : σ) : Reply σ α :=
  match EStateM.run x s with
  | .ok a s' => ⟨.ok a, s'⟩
  | .error e s' => ⟨.error e, s'⟩

/-- The reply of a call that makes a whole change or none. -/
def Reply.atomic (s : σ) : Except Error σ → Reply σ Unit
  | .ok s' => ⟨.ok (), s'⟩
  | .error e => ⟨.error e, s⟩

@[simp] theorem Reply.atomic_ok (s s' : σ) : Reply.atomic s (.ok s') = ⟨.ok (), s'⟩ := rfl

@[simp] theorem Reply.atomic_error (s : σ) (e : Error) : Reply.atomic s (.error e) = ⟨.error e, s⟩ := rfl

@[simp] theorem InPlace.reply_throw (e : Error) (s : σ) :
    InPlace.reply (throw e : InPlace σ α) s = ⟨.error e, s⟩ := rfl

@[simp] theorem InPlace.reply_get (s : σ) : InPlace.reply (get : InPlace σ σ) s = ⟨.ok s, s⟩ := rfl

@[simp] theorem InPlace.reply_set (s s' : σ) : InPlace.reply (set s' : InPlace σ PUnit) s = ⟨.ok (), s'⟩ := rfl

@[simp] theorem InPlace.reply_modify (f : σ → σ) (s : σ) :
    InPlace.reply (modify f : InPlace σ PUnit) s = ⟨.ok (), f s⟩ := rfl

@[simp] theorem InPlace.reply_liftExcept (x : Except Error α) (s : σ) :
    InPlace.reply (liftExcept x : InPlace σ α) s = ⟨x, s⟩ := by
  cases x <;> rfl

/-- A second call is made on what the first one leaves, unless the first one fails. -/
theorem InPlace.reply_bind (x : InPlace σ α) (f : α → InPlace σ β) (s : σ) :
    InPlace.reply (x >>= f) s =
      match InPlace.reply x s with
      | ⟨.ok a, s'⟩ => InPlace.reply (f a) s'
      | ⟨.error e, s'⟩ => ⟨.error e, s'⟩ := by
  unfold InPlace.reply
  rw [EStateM.run_bind]
  cases EStateM.run x s <;> rfl

/-- A loop of calls that each make a whole change or none stops at the first one that fails. -/
theorem InPlace.reply_forM {call : α → InPlace σ Unit} {step : σ → α → Except Error σ}
    (hcall : ∀ s x, InPlace.reply (call x) s = .atomic s (step s x)) (s : σ) (xs : List α) :
    InPlace.reply (xs.forM call) s = absorb step s xs := by
  induction xs generalizing s with
  | nil => rfl
  | cons x xs ih =>
    show InPlace.reply (call x >>= fun _ => xs.forM call) s = _
    rw [InPlace.reply_bind, hcall]
    cases h : step s x with
    | ok s' => rw [Reply.atomic_ok, absorb_cons_ok xs h]; exact ih s'
    | error e => rw [Reply.atomic_error, absorb_cons_error xs h]

end InPlace

end Rollup
