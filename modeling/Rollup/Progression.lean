import Rollup.Reply

/-!
# Progressions

A `Progression` runs through 64-bit integers in equal steps. A step is added exactly, however long it is; so a
progression ends where the next member would be past its end, and never wraps.

`Progression.absorb` puts the members into a state. It gives what `Rollup.absorb` gives for their list (`absorb_eq`),
but the members after a refused one are never made.
-/

namespace Rollup

/-- The integers `first`, `first + step` and so on, up to `last`. -/
structure Progression where
  first : Int64
  last : Int64
  step : Nat
  step_pos : 0 < step

namespace Progression

/-- The members from `n` on, which has to be one. -/
def listFrom (p : Progression) (n : Int) : List Int64 :=
  if n ≤ p.last.toInt then Int64.ofInt n :: p.listFrom (n + p.step) else []
termination_by (p.last.toInt + 1 - n).toNat
decreasing_by
  have := p.step_pos
  omega

/-- The members in order. -/
def toList (p : Progression) : List Int64 :=
  p.listFrom p.first.toInt

variable {β : Type}

/-- Put the members from `n` on into a state, up to the first one that is refused. -/
@[specialize] def absorbFrom (p : Progression) (f : β → Int64 → Except Error β) (b : β) (n : Int) : Reply β Unit :=
  if n ≤ p.last.toInt then
    match f b (Int64.ofInt n) with
    | .ok b' => p.absorbFrom f b' (n + p.step)
    | .error e => ⟨.error e, b⟩
  else
    ⟨.ok (), b⟩
termination_by (p.last.toInt + 1 - n).toNat
decreasing_by
  have := p.step_pos
  omega

/-- Put the members into a state, up to the first one that is refused. -/
@[inline] def absorb (p : Progression) (f : β → Int64 → Except Error β) (b : β) : Reply β Unit :=
  p.absorbFrom f b p.first.toInt

/-! ## The members in a list -/

theorem listFrom_of_le {p : Progression} {n : Int} (h : n ≤ p.last.toInt) :
    p.listFrom n = Int64.ofInt n :: p.listFrom (n + p.step) := by
  rw [listFrom, if_pos h]

theorem listFrom_of_lt {p : Progression} {n : Int} (h : p.last.toInt < n) : p.listFrom n = [] := by
  rw [listFrom, if_neg (by omega)]

theorem absorbFrom_eq (p : Progression) (f : β → Int64 → Except Error β) (b : β) (n : Int) :
    p.absorbFrom f b n = Rollup.absorb f b (p.listFrom n) := by
  fun_induction absorbFrom p f b n with
  | case1 b n h b' hb ih => rw [listFrom_of_le h, absorb_cons_ok _ hb, ih]
  | case2 b n h e he => rw [listFrom_of_le h, absorb_cons_error _ he]
  | case3 b n h => rw [listFrom_of_lt (by omega), absorb_nil]

/-- Absorbing a progression is absorbing the list of its members. -/
theorem absorb_eq (p : Progression) (f : β → Int64 → Except Error β) (b : β) :
    p.absorb f b = Rollup.absorb f b p.toList :=
  p.absorbFrom_eq f b _

end Progression

end Rollup
