import Parametric.Definition.Basic

/-!
Proposed definitions, and batches of them.
-/

namespace Parametric

/-- A definition that is asked for. Its kind and token are texts that are checked later. -/
structure Proposal where
  name : String
  kind : String
  /-- The group; without one the default group of the settings is taken. -/
  group : Option String := none
  visible : Bool := true
  formula : Option String := none
  description : Option String := none
  /-- The token of a definition that comes from another registry. -/
  identity : Option String := none
  category : Option String := none
  perElement : Bool := false
  allowMissing : Bool := false
deriving DecidableEq, Repr, Inhabited

namespace Proposal

def source? (p : Proposal) : Option String := p.formula.filter fun f => !Text.isBlankText f

/-- The proposal that asks for a given definition. -/
def ofDefinition (d : Definition) : Proposal where
  name := d.name
  kind := d.kind.name
  group := some d.group
  visible := d.visible
  formula := d.formula
  description := d.description
  identity := some d.identity.text
  category := d.category
  perElement := d.perElement
  allowMissing := d.allowMissing

def fieldNames : List String :=
  ["name", "kind", "group", "visible", "formula", "description", "identity", "category",
   "is_instance", "allow_missing"]

def ofFields? (fields : Json.Fields) : Option Proposal := do
  return {
    name := ← fields.required "name" Json.text?
    kind := ← fields.required "kind" Json.text?
    group := ← fields.optional "group" Json.text?
    visible := ← fields.withDefault "visible" Json.bool? true
    formula := ← fields.optional "formula" Json.text?
    description := ← fields.optional "description" Json.text?
    identity := ← fields.optional "identity" Json.text?
    category := ← fields.optional "category" Json.text?
    perElement := ← fields.withDefault "is_instance" Json.bool? false
    allowMissing := ← fields.withDefault "allow_missing" Json.bool? false }

def ofJson? (value : Json) : Option Proposal := (value.fields? fieldNames).bind ofFields?

def toJson (p : Proposal) : Json :=
  .obj ([("name", .str p.name), ("kind", .str p.kind)] ++
    Json.optionalMember "group" (p.group.map .str) ++ [("visible", .bool p.visible)] ++
    Json.optionalMember "formula" (p.formula.map .str) ++
    Json.optionalMember "description" (p.description.map .str) ++
    Json.optionalMember "identity" (p.identity.map .str) ++
    Json.optionalMember "category" (p.category.map .str) ++
    [("is_instance", .bool p.perElement), ("allow_missing", .bool p.allowMissing)])

end Proposal

/-- Definitions that are asked for together. -/
structure Batch where
  entries : List Proposal := []
  /-- Whether the kinds of registered definitions may be changed. -/
  overridesConflicts : Bool := false
  /-- The message of the commit. -/
  message : Option String := none
deriving DecidableEq, Repr, Inhabited

def Batch.ofJson? (value : Json) : Option Batch := do
  let fields ← value.fields? ["entries", "override_conflicts", "message"]
  return {
    entries := ← fields.required "entries" (Json.list? Proposal.ofJson?)
    overridesConflicts := ← fields.withDefault "override_conflicts" Json.bool? false
    message := ← fields.optional "message" Json.text? }

end Parametric
