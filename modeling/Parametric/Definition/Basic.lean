import Parametric.Definition.Identity
import Parametric.Definition.Kind
import Parametric.Json.Record
import Parametric.Name.Key
import Parametric.Settings.Codec
import Parametric.Time.Instant

/-!
Parameter definitions.
-/

namespace Parametric

/-- A named and typed parameter. -/
structure Definition where
  identity : Identity
  name : String
  kind : ValueKind
  group : String
  visible : Bool := true
  /-- The formula that computes the value. -/
  formula : Option String := none
  description : Option String := none
  /-- The category of elements that the definition was made for. -/
  category : Option String := none
  /-- Whether each element has a value of its own. -/
  perElement : Bool := false
  /-- Whether the formula may reference names that are not registered. -/
  allowMissing : Bool := false
  createdAt : Instant
  /-- How often the definition was added to elements or referenced by formulas. -/
  uses : Nat := 0
deriving DecidableEq, Repr, Inhabited

namespace Definition

def key (d : Definition) : String := keyOf d.name

/-- Whether a definition carries a formula that is not blank. -/
def isComputed (d : Definition) : Bool := d.formula.any fun f => !Text.isBlankText f

/-- Whether two definitions agree in all but the time of creation and the usage count. -/
def agreesWith (a b : Definition) : Bool :=
  a.identity == b.identity && a.name == b.name && a.kind == b.kind && a.group == b.group &&
    a.visible == b.visible && a.formula == b.formula && a.description == b.description &&
    a.category == b.category && a.perElement == b.perElement && a.allowMissing == b.allowMissing

def toJson (d : Definition) : Json :=
  .obj ([("identity", .str d.identity.text), ("name", .str d.name), ("kind", .str d.kind.name),
      ("group", .str d.group), ("visible", .bool d.visible)] ++
    Json.optionalMember "formula" (d.formula.map .str) ++
    Json.optionalMember "description" (d.description.map .str) ++
    Json.optionalMember "category" (d.category.map .str) ++
    [("is_instance", .bool d.perElement), ("allow_missing", .bool d.allowMissing),
      ("created_at", .str d.createdAt.text), ("usage_count", .ofNat d.uses)])

def instant? (value : Json) : Option Instant := value.text?.bind Instant.parse?

def ofJson? (value : Json) : Option Definition := do
  let fields ← value.fields? ["identity", "name", "kind", "group", "visible", "formula",
    "description", "category", "is_instance", "allow_missing", "created_at", "usage_count"]
  return {
    identity := ← fields.required "identity" Identity.ofJson?
    name := ← fields.required "name" Json.text?
    kind := ← fields.required "kind" ValueKind.ofJson?
    group := ← fields.required "group" Json.text?
    visible := ← fields.withDefault "visible" Json.bool? true
    formula := ← fields.optional "formula" Json.text?
    description := ← fields.optional "description" Json.text?
    category := ← fields.optional "category" Json.text?
    perElement := ← fields.withDefault "is_instance" Json.bool? false
    allowMissing := ← fields.withDefault "allow_missing" Json.bool? false
    createdAt := ← fields.required "created_at" instant?
    uses := ← fields.withDefault "usage_count" Json.nat? 0 }

end Definition

end Parametric
