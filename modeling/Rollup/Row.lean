import Rollup.Error
import Rollup.Outcome

/-!
# Rows

A `Row` is a list of values. It carries no schema; `Row.Conforms` says that it fits one. `Row.get` looks a field up
and `Row.getTyped`, `Row.getInt` and `Row.getText` ask for a value of a known type; a position past the end is reported
before any type.
-/

namespace Rollup

/-- A row of values. -/
structure Row where
  values : List Value
  deriving DecidableEq, Repr

namespace Row

/-- The number of values. -/
def width (row : Row) : Nat :=
  row.values.length

/-- The value at a position, or the error that the row is too short. -/
def get (row : Row) (index : Nat) : Except Error Value :=
  match row.values[index]? with
  | some v => .ok v
  | none => .error (.argument (.fieldOutOfRange index row.width))

/-- The value at a position, which must be of the given type. -/
def getTyped (row : Row) (index : Nat) (place : Place) (type : ValueType) : Except Error Value := do
  let v ← row.get index
  if v.type = type then return v else throw (.mismatch place type v.type)

/-- The integer at a position. -/
def getInt (row : Row) (index : Nat) (place : Place) : Except Error Int64 := do
  let v ← row.get index
  match v with
  | .int n => return n
  | .text _ => throw (.mismatch place .int .text)

/-- The text at a position. -/
def getText (row : Row) (index : Nat) (place : Place) : Except Error String := do
  let v ← row.get index
  match v with
  | .text s => return s
  | .int _ => throw (.mismatch place .text .int)

/-- A row has the width of a schema and a value of the right type in every field. -/
def Conforms (row : Row) (schema : Schema) : Prop :=
  row.values.map Value.type = schema.fields.map Field.type

instance (row : Row) (schema : Schema) : Decidable (row.Conforms schema) :=
  inferInstanceAs (Decidable (_ = _))

theorem get_eq_ok_iff {row : Row} {index : Nat} {v : Value} :
    row.get index = .ok v ↔ row.values[index]? = some v := by
  unfold get
  split <;> simp_all

/-- A typed look-up gives the value at the position exactly if it has the type. -/
theorem getTyped_eq_ok_iff {row : Row} {index : Nat} {place : Place} {type : ValueType} {v : Value} :
    row.getTyped index place type = .ok v ↔ row.values[index]? = some v ∧ v.type = type := by
  rw [getTyped, Outcome.bind_eq_ok_iff]
  constructor
  · rintro ⟨w, hw, h⟩
    split at h
    · cases h
      exact ⟨get_eq_ok_iff.mp hw, ‹_›⟩
    · cases h
  · rintro ⟨hv, ht⟩
    exact ⟨v, get_eq_ok_iff.mpr hv, if_pos ht⟩

theorem getInt_eq_ok_iff {row : Row} {index : Nat} {place : Place} {n : Int64} :
    row.getInt index place = .ok n ↔ row.values[index]? = some (.int n) := by
  rw [getInt, Outcome.bind_eq_ok_iff]
  constructor
  · rintro ⟨w, hw, h⟩
    cases w <;> cases h
    exact get_eq_ok_iff.mp hw
  · intro hv
    exact ⟨.int n, get_eq_ok_iff.mpr hv, rfl⟩

theorem getText_eq_ok_iff {row : Row} {index : Nat} {place : Place} {s : String} :
    row.getText index place = .ok s ↔ row.values[index]? = some (.text s) := by
  rw [getText, Outcome.bind_eq_ok_iff]
  constructor
  · rintro ⟨w, hw, h⟩
    cases w <;> cases h
    exact get_eq_ok_iff.mp hw
  · intro hv
    exact ⟨.text s, get_eq_ok_iff.mpr hv, rfl⟩

end Row

end Rollup
