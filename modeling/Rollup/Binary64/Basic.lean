import Rollup.Binary64.Rounding

/-!
# Binary64 numbers

A `Binary64` is a number of the IEEE 754 format of that name: a finite number, whose value is a rational that the
format can represent exactly, a zero below zero, an infinity, or no number at all. `ofRat` is the one way into the
format: it takes a rational to the nearest number, to an infinity if that is too large, and to the zero of its sign if
that is zero. `bits` is the encoding of a number.
-/

namespace Rollup

/-- A rational that the format can represent: of its precision, and not too large. -/
structure Binary64.Representable (v : Rat) : Prop where
  round_eq : Binary64.round v = v
  abs_lt : v.abs < 2 ^ (1024 : Int)

/-- A binary64 number. The zero above zero is the finite number with value zero. -/
inductive Binary64 where
  | nan
  | infinite (negative : Bool)
  | negativeZero
  | finite (value : Rat) (representable : Binary64.Representable value)
  deriving DecidableEq

namespace Binary64

/-- A number of binary64 precision with an exponent up to 971 is representable. -/
theorem Representable.of_mul_pow {m k : Int} (hm : m.natAbs < maxSignificand) (hk : -1074 ≤ k) (hk' : k ≤ 971) :
    Representable (m * 2 ^ k) := by
  refine ⟨round_mul_pow (Nat.le_of_lt hm) hk, ?_⟩
  have h1 := abs_mul_pow_lt (k := k) hm
  have h2 : (2 : Rat) ^ (53 + k : Int) ≤ 2 ^ (1024 : Int) := pow_le_pow (by omega)
  exact Std.lt_of_lt_of_le h1 h2

/-- An integer of 53 bits is representable. -/
theorem Representable.intCast {n : Int} (hn : n.natAbs < maxSignificand) : Representable n := by
  have h := Representable.of_mul_pow (k := 0) hn (by decide) (by decide)
  rwa [Rat.zpow_zero, Rat.mul_one] at h

theorem Representable.zero : Representable 0 :=
  Representable.intCast (n := 0) (by decide)

theorem Representable.one : Representable 1 :=
  Representable.intCast (n := 1) (by decide)

/-- A representable number is so on the other side of zero. -/
theorem Representable.neg {v : Rat} (h : Representable v) : Representable (-v) := by
  obtain ⟨m, k, hm, hk, he⟩ := exists_round_eq v
  rw [h.round_eq] at he
  refine ⟨?_, by rw [Rat.abs_neg]; exact h.abs_lt⟩
  rw [he, ← Rat.neg_mul, ← Rat.intCast_neg]
  exact round_mul_pow (by omega) hk

instance : Zero Binary64 := ⟨finite 0 .zero⟩

instance : One Binary64 := ⟨finite 1 .one⟩

/-- The zero on one side. -/
def zero (negative : Bool) : Binary64 :=
  if negative then negativeZero else 0

/-- The number nearest to a rational. -/
def ofRat (q : Rat) : Binary64 :=
  if h : (round q).abs < 2 ^ (1024 : Int) then
    if round q = 0 then zero (q < 0) else finite (round q) ⟨round_round q, h⟩
  else
    infinite (q < 0)

/-- The number nearest to an integer, which for an integer of 53 bits is the integer. -/
def ofInt (n : Int) : Binary64 :=
  if h : n.natAbs < maxSignificand then finite n (.intCast h) else ofRat n

/-- The number nearest to a natural number. -/
def ofNat (n : Nat) : Binary64 :=
  ofInt n

/-- The value of a finite number, zeros included; zero stands in for all others. -/
def value : Binary64 → Rat
  | finite v _ => v
  | nan | infinite _ | negativeZero => 0

/-- Whether a number lies below zero or is the zero below zero. -/
def isNegative : Binary64 → Bool
  | nan => false
  | infinite negative => negative
  | negativeZero => true
  | finite v _ => v < 0

@[simp] theorem value_finite (v : Rat) (h : Representable v) : (finite v h).value = v := rfl

@[simp] theorem value_zero : (0 : Binary64).value = 0 := rfl

@[simp] theorem value_one : (1 : Binary64).value = 1 := rfl

/-- A representable rational other than zero is its own nearest number. -/
theorem ofRat_of_representable {v : Rat} (h : Representable v) (h0 : v ≠ 0) : ofRat v = finite v h := by
  have habs : (round v).abs < 2 ^ (1024 : Int) := by
    rw [h.round_eq]
    exact h.abs_lt
  unfold ofRat
  rw [dite_cond_eq_true (eq_true habs), if_neg (by rw [h.round_eq]; exact h0)]
  simp only [h.round_eq]

/-- The number nearest to zero is the zero above zero. -/
theorem ofRat_zero : ofRat 0 = 0 := by
  unfold ofRat
  simp only [round_zero]
  rw [dite_cond_eq_true (eq_true (by decide +kernel)), if_pos trivial, decide_eq_false Rat.lt_irrefl]
  rfl

/-- An integer goes the way of the rational that it is. -/
theorem ofInt_eq (n : Int) : ofInt n = ofRat n := by
  unfold ofInt
  split
  · rename_i h
    by_cases h0 : n = 0
    · subst h0
      exact ofRat_zero.symm
    · exact (ofRat_of_representable (.intCast h) (by simpa using h0)).symm
  · rfl

/-! ## Encoding -/

/-- The encoding of a number above zero: the multiple that it is of its grid follows the number of its grid, and the
leading one of the multiple is added to that number. -/
def magnitudeBits (v : Rat) : Nat :=
  (grain v + 1074).toNat <<< 52 + (v / 2 ^ grain v).floor.toNat

/-- The 64 bits of a number. -/
def bits : Binary64 → Nat
  | nan => 2047 <<< 52 + 1 <<< 51
  | infinite negative => (if negative then 1 <<< 63 else 0) + 2047 <<< 52
  | negativeZero => 1 <<< 63
  | finite v _ =>
    if v = 0 then 0
    else if v < 0 then 1 <<< 63 + magnitudeBits (-v)
    else magnitudeBits v

end Binary64

end Rollup
