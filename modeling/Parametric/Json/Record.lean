import Parametric.Json.Value

/-!
Records as JSON: an object with the fields as members in any order, other members being ignored,
or an array of the fields in their order.
-/

namespace Parametric.Json

/-- The fields that a JSON value gives for a record. -/
structure Fields where
  members : List (String × Json)
  /-- Whether the record was written as an array. -/
  positional : Bool

/-- Whether a key occurs at most once. -/
def occursOnce (members : List (String × Json)) (key : String) : Bool :=
  (members.filter (·.1 == key)).length ≤ 1

/-- The fields of a record with the given field names, none of which may be given twice. -/
def fields? (names : List String) : Json → Option Fields
  | .obj members =>
    if names.all (occursOnce members) then some ⟨members, false⟩ else none
  | .arr items => if items.length ≤ names.length then some ⟨names.zip items, true⟩ else none
  | _ => none

namespace Fields

/-- The value of a field, if it is given. -/
def get? (fields : Fields) (name : String) : Option Json := fields.members.lookup name

variable {α : Type}

def required (fields : Fields) (name : String) (read : Json → Option α) : Option α :=
  (fields.get? name).bind read

/-- A field with a value for when it is not given. -/
def withDefault (fields : Fields) (name : String) (read : Json → Option α) (default : α) :
    Option α :=
  match fields.get? name with
  | none => some default
  | some value => read value

/-- A field that may be `null` or not given. -/
def optional (fields : Fields) (name : String) (read : Json → Option α) : Option (Option α) :=
  fields.withDefault name (nullable? read) none

/-- A field that may be `null`, and not given only where fields are named. -/
def nullable (fields : Fields) (name : String) (read : Json → Option α) : Option (Option α) :=
  match fields.get? name with
  | none => if fields.positional then none else some none
  | some value => nullable? read value

end Fields

end Parametric.Json
