import Parametric.Definition.Basic

/-!
Parameters as elements carry them, and captures of all the parameters of an element.
-/

namespace Parametric

structure CarriedParameter where
  name : String
  identity : Option Identity := none
  kind : ValueKind
  group : String := ""
  formula : Option String := none
  perElement : Bool := false
deriving DecidableEq, Repr, Inhabited

namespace CarriedParameter

def ofDefinition (d : Definition) : CarriedParameter :=
  ⟨d.name, some d.identity, d.kind, d.group, d.formula, d.perElement⟩

/-- The definition under another name and token that a parameter could have been made by. -/
def toDefinition (p : CarriedParameter) (now : Instant) (identity : Identity) (name : String) :
    Definition where
  identity := identity
  name := name
  kind := p.kind
  group := p.group
  formula := p.formula
  perElement := p.perElement
  createdAt := now

def key (p : CarriedParameter) : String := keyOf p.name

def toJson (p : CarriedParameter) : Json :=
  .obj ([("name", .str p.name)] ++
    Json.optionalMember "identity" (p.identity.map fun token => .str token.text) ++
    [("kind", .str p.kind.name), ("group", .str p.group)] ++
    Json.optionalMember "formula" (p.formula.map .str) ++
    [("is_instance", .bool p.perElement)])

def ofJson? (value : Json) : Option CarriedParameter := do
  let fields ← value.fields? ["name", "identity", "kind", "group", "formula", "is_instance"]
  return {
    name := ← fields.required "name" Json.text?
    identity := ← fields.optional "identity" Identity.ofJson?
    kind := ← fields.required "kind" ValueKind.ofJson?
    group := ← fields.withDefault "group" Json.text? ""
    formula := ← fields.optional "formula" Json.text?
    perElement := ← fields.withDefault "is_instance" Json.bool? false }

end CarriedParameter

structure Capture where
  elementId : String
  category : String
  parameters : List CarriedParameter := []
deriving DecidableEq, Repr, Inhabited

namespace Capture

def has (c : Capture) (name : String) : Bool := c.parameters.any (·.key == keyOf name)

def ofJson? (value : Json) : Option Capture := do
  let fields ← value.fields? ["element_id", "category", "parameters"]
  return {
    elementId := ← fields.required "element_id" Json.text?
    category := ← fields.required "category" Json.text?
    parameters := ← fields.withDefault "parameters" (Json.list? CarriedParameter.ofJson?) [] }

end Capture

end Parametric
