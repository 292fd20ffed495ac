import Rollup.Value

/-!
# Schemas

A `Schema` lists the named, typed fields of a row in order. Names may repeat; `Schema.indexOf?` finds the first field
of a name.
-/

namespace Rollup

/-- A named, typed field. -/
structure Field where
  name : String
  type : ValueType
  deriving DecidableEq, Repr

/-- The fields of a row, in order. -/
structure Schema where
  fields : List Field
  deriving DecidableEq, Repr

namespace Schema

/-- A schema from pairs of a name and a type. -/
def ofPairs (pairs : List (String × ValueType)) : Schema :=
  ⟨pairs.map fun (name, type) => ⟨name, type⟩⟩

/-- The number of fields. -/
def width (s : Schema) : Nat :=
  s.fields.length

/-- The field at a position. -/
def field? (s : Schema) (index : Nat) : Option Field :=
  s.fields[index]?

/-- The position of the first field with the given name. -/
def indexOf? (s : Schema) (name : String) : Option Nat :=
  s.fields.findIdx? fun f => f.name == name

/-- A schema as it is shown: `(dept TEXT, salary INT)`. -/
def display (s : Schema) : String :=
  "(" ++ ", ".intercalate (s.fields.map fun f => f.name ++ " " ++ f.type.name) ++ ")"

@[simp] theorem field?_eq (s : Schema) (index : Nat) : s.field? index = s.fields[index]? := rfl

end Schema

end Rollup
