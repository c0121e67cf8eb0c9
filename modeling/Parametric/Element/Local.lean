import Parametric.Element.Access

/-!
Elements that are held in memory.
-/

namespace Parametric

/-- The calls that an element refuses. -/
structure Refusals where
  /-- The names of parameters that cannot be added. -/
  names : List String := []
  list : Bool := false
  update : Bool := false
  remove : Bool := false
  save : Bool := false
deriving DecidableEq, Repr, Inhabited

structure LocalElement where
  id : String
  category : String
  parameters : List CarriedParameter := []
  /-- How often the element was saved. -/
  saves : Nat := 0
  refusals : Refusals := {}
  cancelsOnSave : Bool := false
deriving DecidableEq, Repr, Inhabited

namespace LocalElement

def has (e : LocalElement) (name : String) : Bool := e.parameters.any (·.key == keyOf name)

def missing (e : LocalElement) (name : String) : String :=
  s!"element '{e.id}' has no parameter '{name}'"

def add (e : LocalElement) (d : Definition) : Reply LocalElement :=
  if e.refusals.names.any (Text.sameAscii · d.name) then
    ⟨e, some s!"element '{e.id}' rejected '{d.name}'"⟩
  else if e.has d.name then ⟨e, some s!"element '{e.id}' already has '{d.name}'"⟩
  else ⟨{ e with parameters := e.parameters ++ [.ofDefinition d] }, none⟩

/-- Parameters with the first one of a key replaced. -/
def replaceFirst (key : String) (new : CarriedParameter) :
    List CarriedParameter → List CarriedParameter
  | [] => []
  | p :: rest => if p.key == key then new :: rest else p :: replaceFirst key new rest

/-- Puts the parameter of a definition in place of the first one of a name. -/
def update (e : LocalElement) (name : String) (d : Definition) : Reply LocalElement :=
  if e.refusals.update then ⟨e, some "cannot update"⟩
  else if e.has name then
    ⟨{ e with parameters := replaceFirst (keyOf name) (.ofDefinition d) e.parameters }, none⟩
  else ⟨e, some (e.missing name)⟩

/-- Removes the first parameter of a name. -/
def remove (e : LocalElement) (name : String) : Reply LocalElement :=
  if e.refusals.remove then ⟨e, some s!"element '{e.id}' does not support removing '{name}'"⟩
  else if e.has name then
    ⟨{ e with parameters := e.parameters.eraseP (·.key == keyOf name) }, none⟩
  else ⟨e, some (e.missing name)⟩

def save (e : LocalElement) : Reply LocalElement :=
  if e.refusals.save then ⟨e, some "cannot save: read only"⟩
  else ⟨{ e with saves := e.saves + 1 }, none⟩

instance : ElementAccess LocalElement where
  id e := e.id
  category e := e.category
  list e := if e.refusals.list then .error "cannot list" else .ok e.parameters
  add := add
  update := update
  remove := remove
  save := save
  cancelsOnSave e := e.cancelsOnSave

def capture (e : LocalElement) : Capture := ⟨e.id, e.category, e.parameters⟩

def ofJson? (value : Json) : Option LocalElement := do
  let fields ← value.fields? ["id", "category", "parameters"]
  return {
    id := ← fields.required "id" Json.text?
    category := ← fields.required "category" Json.text?
    parameters := ← fields.withDefault "parameters" (Json.list? CarriedParameter.ofJson?) [] }

def toJson (e : LocalElement) : Json :=
  .obj [("id", .str e.id), ("category", .str e.category),
    ("parameters", .arr (e.parameters.map CarriedParameter.toJson))]

end LocalElement

end Parametric
