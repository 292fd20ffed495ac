import Rollup.Binary64.Basic

/-!
# Arithmetic of binary64 numbers

Every operation on finite numbers forms the exact result and rounds it once. What is no number stays so, infinities
follow the rules of the format, and a product or quotient that is zero has the sign that its operands call for; a sum
that is zero is the zero above zero, unless both summands are the one below. Comparisons with what is no number are
false.
-/

namespace Rollup.Binary64

/-- The number on the other side of zero. -/
protected def neg : Binary64 → Binary64
  | nan => nan
  | infinite negative => infinite (!negative)
  | negativeZero => 0
  | finite v h => if v = 0 then negativeZero else finite (-v) h.neg

/-- The rounded sum. A zero leaves the other summand as it is. -/
protected def add : Binary64 → Binary64 → Binary64
  | nan, _ | _, nan => nan
  | infinite a, infinite b => if a = b then infinite a else nan
  | infinite a, _ => infinite a
  | _, infinite b => infinite b
  | negativeZero, negativeZero => negativeZero
  | x, y =>
    if y.value = 0 ∧ x.value ≠ 0 then x
    else if x.value = 0 ∧ y.value ≠ 0 then y
    else ofRat (x.value + y.value)

/-- The rounded product. -/
protected def mul : Binary64 → Binary64 → Binary64
  | nan, _ | _, nan => nan
  | infinite a, infinite b => infinite (a != b)
  | infinite a, y => if y.value = 0 then nan else infinite (a != y.isNegative)
  | x, infinite b => if x.value = 0 then nan else infinite (x.isNegative != b)
  | x, y =>
    if x.value * y.value = 0 then zero (x.isNegative != y.isNegative) else ofRat (x.value * y.value)

/-- The rounded quotient. -/
protected def div : Binary64 → Binary64 → Binary64
  | nan, _ | _, nan => nan
  | infinite _, infinite _ => nan
  | infinite a, y => infinite (a != y.isNegative)
  | x, infinite b => zero (x.isNegative != b)
  | x, y =>
    if y.value = 0 then
      if x.value = 0 then nan else infinite (x.isNegative != y.isNegative)
    else if x.value = 0 then zero (x.isNegative != y.isNegative)
    else ofRat (x.value / y.value)

instance : Neg Binary64 := ⟨Binary64.neg⟩
instance : Add Binary64 := ⟨Binary64.add⟩
instance : Sub Binary64 := ⟨fun x y => x + -y⟩
instance : Mul Binary64 := ⟨Binary64.mul⟩
instance : Div Binary64 := ⟨Binary64.div⟩

/-! ## Comparison -/

/-- Whether `x` lies below `y`. -/
def blt : Binary64 → Binary64 → Bool
  | nan, _ | _, nan => false
  | infinite a, infinite b => a && !b
  | infinite a, _ => a
  | _, infinite b => !b
  | x, y => x.value < y.value

instance : LT Binary64 := ⟨fun x y => blt x y⟩

instance (x y : Binary64) : Decidable (x < y) :=
  inferInstanceAs (Decidable (_ = true))

/-- The greater of two numbers. What is no number gives way to the other. -/
protected def max (x y : Binary64) : Binary64 :=
  if x = nan then y else if x < y then y else x

instance : Max Binary64 := ⟨Binary64.max⟩

/-- A number moved into the range from `lower` to `upper`. -/
def clamp (x lower upper : Binary64) : Binary64 :=
  if x < lower then lower
  else if upper < x then upper
  else x

/-! ## Integers -/

/-- The greatest integer that is not above a number. -/
def floor : Binary64 → Binary64
  | finite v _ => ofInt v.floor
  | x => x

/-- A number as an unsigned integer of 64 bits, cut off toward zero. Numbers out of range give the nearest end of it,
and what is no number gives zero. -/
def toUnsigned : Binary64 → Nat
  | nan | negativeZero => 0
  | infinite negative => if negative then 0 else UInt64.size - 1
  | finite v _ => min v.floor.toNat (UInt64.size - 1)

/-! ## Finite operands -/

variable {u v : Rat} {hu : Representable u} {hv : Representable v}

/-- A sum is formed exactly and rounded once. -/
theorem finite_add_finite : finite u hu + finite v hv = ofRat (u + v) := by
  show (if v = 0 ∧ u ≠ 0 then _ else if u = 0 ∧ v ≠ 0 then _ else _) = _
  split
  · rename_i h
    rw [h.1, Rat.add_zero, ofRat_of_representable hu h.2]
  · split
    · rename_i h
      rw [h.1, Rat.zero_add, ofRat_of_representable hv h.2]
    · rfl

end Rollup.Binary64
