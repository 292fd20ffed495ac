/-!
# Exact arithmetic on 64-bit integers

Sums and quotients are formed over `Int` and brought back by `Exact.ofInt?`, which answers exactly when the result
`Fits` (`ofInt?_eq_some_iff`, `ofInt?_eq_none_iff`). So `Exact.add?` and `Exact.div?` never wrap: an answer is the
exact one. Only `Exact.succClamped` stops at the greatest integer instead of failing (`toInt_succClamped`).
-/

namespace Rollup.Exact

/-- The 64-bit integer equal to `n`, if there is one. -/
def ofInt? (n : Int) : Option Int64 :=
  if Int64.minValue.toInt ≤ n ∧ n ≤ Int64.maxValue.toInt then some (Int64.ofInt n) else none

/-- An answer is the integer that was asked for. -/
theorem ofInt?_eq_some_iff {n : Int} {x : Int64} : ofInt? n = some x ↔ x.toInt = n := by
  unfold ofInt?
  split
  · rename_i h
    constructor
    · intro e
      cases e
      rw [Int64.toInt_minValue, Int64.toInt_maxValue] at h
      exact Int64.toInt_ofInt_of_le h.1 (by omega)
    · intro e
      rw [← e, Int64.ofInt_toInt]
  · rename_i h
    constructor
    · intro e
      cases e
    · intro e
      subst e
      exact absurd ⟨x.minValue_le_toInt, x.toInt_le⟩ h

/-- There is no answer exactly outside the range of 64-bit integers. -/
theorem ofInt?_eq_none_iff {n : Int} :
    ofInt? n = none ↔ n < Int64.minValue.toInt ∨ Int64.maxValue.toInt < n := by
  rw [Int64.toInt_minValue, Int64.toInt_maxValue, ofInt?, Int64.toInt_minValue, Int64.toInt_maxValue]
  split <;> simp <;> omega

@[simp] theorem ofInt?_toInt (x : Int64) : ofInt? x.toInt = some x :=
  ofInt?_eq_some_iff.mpr rfl

/-- Whether an integer is one of 64 bits. -/
def Fits (n : Int) : Prop :=
  Int64.minValue.toInt ≤ n ∧ n ≤ Int64.maxValue.toInt

instance (n : Int) : Decidable (Fits n) :=
  inferInstanceAs (Decidable (_ ∧ _))

theorem fits_toInt (x : Int64) : Fits x.toInt :=
  ⟨x.minValue_le_toInt, x.toInt_le⟩

theorem ofInt?_eq_none_iff_not_fits {n : Int} : ofInt? n = none ↔ ¬Fits n := by
  unfold ofInt? Fits
  split <;> simp_all

/-- An integer that fits is the value of a 64-bit integer. -/
theorem exists_of_fits {n : Int} (h : Fits n) : ∃ x : Int64, ofInt? n = some x ∧ x.toInt = n := by
  cases hx : ofInt? n with
  | none => exact absurd h (ofInt?_eq_none_iff_not_fits.mp hx)
  | some x => exact ⟨x, rfl, ofInt?_eq_some_iff.mp hx⟩

/-! ## Operations -/

/-- The sum of `a` and `b`, if it fits. -/
def add? (a b : Int64) : Option Int64 :=
  ofInt? (a.toInt + b.toInt)

/-- The quotient of `a` by `b` truncated toward zero, if `b` is not zero and the quotient fits. -/
def div? (a b : Int64) : Option Int64 :=
  if b = 0 then none else ofInt? (a.toInt.tdiv b.toInt)

/-- The integer after `a`; the greatest one is its own successor. -/
def succClamped (a : Int64) : Int64 :=
  Int64.ofIntClamp (a.toInt + 1)

/-- The exact successor, unless that is past the greatest integer. -/
theorem toInt_succClamped (a : Int64) : (succClamped a).toInt = min (a.toInt + 1) Int64.maxValue.toInt := by
  have hlo := a.minValue_le_toInt
  have hhi := a.toInt_le
  unfold succClamped Int64.ofIntClamp
  rw [dite_cond_eq_true (eq_true (by omega))]
  split
  · rw [Int64.toInt_ofIntLE]
    omega
  · omega

/-- An answer is the exact sum. -/
theorem add?_eq_some_iff {a b c : Int64} : add? a b = some c ↔ c.toInt = a.toInt + b.toInt :=
  ofInt?_eq_some_iff

/-- There is no answer exactly if the exact sum is out of range. -/
theorem add?_eq_none_iff {a b : Int64} :
    add? a b = none ↔ a.toInt + b.toInt < Int64.minValue.toInt ∨ Int64.maxValue.toInt < a.toInt + b.toInt :=
  ofInt?_eq_none_iff

/-- An answer is the exact quotient by an integer other than zero. -/
theorem div?_eq_some_iff {a b c : Int64} : div? a b = some c ↔ b ≠ 0 ∧ c.toInt = a.toInt.tdiv b.toInt := by
  unfold div?
  split <;> simp_all [ofInt?_eq_some_iff]

end Rollup.Exact
