/-!
# Values

A `Value` is a 64-bit integer or a text and carries its `ValueType`. Values of different types are never equal; they
are ordered by type first and then by content, text by code points (`instTransOrd`, `instLawfulEqOrd`: the order is
total and tells all values apart, so values can be keys of an ordered map). `ToValue` holds the conversions that lose
nothing.
-/

namespace Rollup

/-- The type of a value. -/
inductive ValueType where
  | int
  | text
  deriving DecidableEq, Repr

/-- A type as it is written in schemas and messages. -/
def ValueType.name : ValueType → String
  | .int => "INT"
  | .text => "TEXT"

/-- Integers come before texts. -/
def ValueType.rank : ValueType → Nat
  | .int => 0
  | .text => 1

instance : Ord ValueType := ⟨fun a b => compare a.rank b.rank⟩

/-- A scalar that carries its type. -/
inductive Value where
  | int (n : Int64)
  | text (s : String)
  deriving DecidableEq, Repr

namespace Value

/-- The type that a value carries. -/
def type : Value → ValueType
  | int _ => .int
  | text _ => .text

/-- The content of an integer value. -/
def int? : Value → Option Int64
  | int n => some n
  | text _ => none

/-- The content of a text value. -/
def text? : Value → Option String
  | int _ => none
  | text s => some s

/-- A value as it is shown: digits, or the text between double quotes with nothing escaped. -/
def display : Value → String
  | int n => toString n.toInt
  | text s => "\"" ++ s ++ "\""

theorem type_eq_int_iff {v : Value} : v.type = .int ↔ ∃ n, v = .int n := by
  cases v <;> simp [type]

theorem type_eq_text_iff {v : Value} : v.type = .text ↔ ∃ s, v = .text s := by
  cases v <;> simp [type]

/-! ## Order -/

/-- Integers come before texts; two values of one type compare by content. -/
protected def compare : Value → Value → Ordering
  | int a, int b => compare a b
  | int _, text _ => .lt
  | text _, int _ => .gt
  | text a, text b => compare a b

instance : Ord Value := ⟨Value.compare⟩

theorem compare_int_int (a b : Int64) : compare (int a) (int b) = compare a b := rfl

theorem compare_text_text (a b : String) : compare (text a) (text b) = compare a b := rfl

instance instTransOrd : Std.TransOrd Value where
  eq_swap {a b} := by
    match a, b with
    | int m, int n => exact (Std.OrientedOrd.eq_swap : compare m n = (compare n m).swap)
    | text s, text t => exact (Std.OrientedOrd.eq_swap : compare s t = (compare t s).swap)
    | int _, text _ => rfl
    | text _, int _ => rfl
  isLE_trans {a b c} hab hbc := by
    match a, b, c, hab, hbc with
    | int m, int n, int k, hab, hbc =>
      rw [compare_int_int] at *
      exact Std.TransCmp.isLE_trans hab hbc
    | text s, text t, text u, hab, hbc =>
      rw [compare_text_text] at *
      exact Std.TransCmp.isLE_trans hab hbc
    | int _, _, text _, _, _ => rfl
    | text _, int _, _, hab, _ => exact (Bool.false_ne_true hab).elim
    | _, text _, int _, _, hbc => exact (Bool.false_ne_true hbc).elim

instance instLawfulEqOrd : Std.LawfulEqOrd Value where
  eq_of_compare {a b} h := by
    match a, b, h with
    | int m, int n, h =>
      rw [compare_int_int] at h
      exact congrArg int (Std.LawfulEqCmp.eq_of_compare h)
    | text s, text t, h =>
      rw [compare_text_text] at h
      exact congrArg text (Std.LawfulEqCmp.eq_of_compare h)
    | int _, text _, h => exact Ordering.noConfusion h
    | text _, int _, h => exact Ordering.noConfusion h

/-- Whether `a` comes before `b` or equals it. -/
def ble (a b : Value) : Bool :=
  (compare a b).isLE

/-- The values from least to greatest. -/
def sort (values : List Value) : List Value :=
  values.mergeSort ble

end Value

/-! ## Conversions -/

/-- Types whose members can be taken for values without loss. -/
class ToValue (α : Type) where
  toValue : α → Value

export ToValue (toValue)

instance : ToValue Int8 := ⟨fun n => .int n.toInt64⟩
instance : ToValue Int16 := ⟨fun n => .int n.toInt64⟩
instance : ToValue Int32 := ⟨fun n => .int n.toInt64⟩
instance : ToValue Int64 := ⟨.int⟩
instance : ToValue UInt8 := ⟨fun n => .int (.ofNat n.toNat)⟩
instance : ToValue UInt16 := ⟨fun n => .int (.ofNat n.toNat)⟩
instance : ToValue UInt32 := ⟨fun n => .int (.ofNat n.toNat)⟩
instance : ToValue String := ⟨.text⟩

end Rollup
