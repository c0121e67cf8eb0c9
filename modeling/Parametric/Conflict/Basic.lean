import Parametric.Definition.Identity
import Parametric.Json.Value
import Parametric.Settings.Codec

/-!
Conflicts: disagreements about one parameter between elements and the registry.
-/

namespace Parametric

inductive Conflict.Kind where
  | identity
  | valueKind
  | grouping
  | naming
  | formula
deriving DecidableEq, Repr, Inhabited

def Conflict.Kind.all : List Conflict.Kind := [.identity, .valueKind, .grouping, .naming, .formula]

def Conflict.Kind.name : Conflict.Kind → String
  | .identity => "identity_mismatch"
  | .valueKind => "value_kind_mismatch"
  | .grouping => "grouping_mismatch"
  | .naming => "naming_violation"
  | .formula => "formula_mismatch"

inductive Severity where
  | informational
  | warning
  | critical
deriving DecidableEq, Repr, Inhabited

def Severity.name : Severity → String
  | .informational => "informational"
  | .warning => "warning"
  | .critical => "critical"

def Conflict.Kind.severity : Conflict.Kind → Severity
  | .valueKind => .critical
  | .grouping => .informational
  | .identity | .naming | .formula => .warning

/-- A disagreement about one parameter. -/
structure Conflict where
  kind : Conflict.Kind
  /-- The name of the parameter, in the registered spelling if it is registered. -/
  parameter : String
  /-- The elements that take part, and the registry if it does. -/
  sources : List String
  details : String
  suggestion : Option String := none
  betterName : Option String := none
  /-- The token that every copy should have. -/
  standardIdentity : Option Identity := none
deriving DecidableEq, Repr, Inhabited

def Conflict.severity (c : Conflict) : Severity := c.kind.severity

/-- What stands for the registry among the sources of a conflict. -/
def registrySource : String := "registry"

def Conflict.toJson (c : Conflict) : Json :=
  .obj ([("kind", .str c.kind.name), ("severity", .str c.severity.name),
      ("parameter", .str c.parameter), ("sources", .ofTexts c.sources),
      ("details", .str c.details)] ++
    Json.optionalMember "suggested_resolution" (c.suggestion.map .str) ++
    Json.optionalMember "suggested_name" (c.betterName.map .str) ++
    Json.optionalMember "canonical_identity"
      (c.standardIdentity.map fun token => .str token.text))

structure ConflictSurvey where
  elementCount : Nat := 0
  conflicts : List Conflict := []
deriving DecidableEq, Repr, Inhabited

namespace ConflictSurvey

def byKind (a : ConflictSurvey) : SortedMap Nat := .tally (a.conflicts.map (·.kind.name))

def bySeverity (a : ConflictSurvey) : SortedMap Nat :=
  .tally (a.conflicts.map (·.severity.name))

def blockers (a : ConflictSurvey) : Nat :=
  (a.bySeverity.get? Severity.critical.name).getD 0

/-- Whether no critical conflict stands in the way of a merge. -/
def canMerge (a : ConflictSurvey) : Bool := a.blockers == 0

def about (a : ConflictSurvey) (kind : Conflict.Kind) : List Conflict :=
  a.conflicts.filter (·.kind == kind)

def toJson (a : ConflictSurvey) : Json :=
  .obj [("elements_analyzed", .ofNat a.elementCount),
    ("conflicts", .arr (a.conflicts.map Conflict.toJson)),
    ("by_kind", a.byKind.toJson .ofNat), ("by_severity", a.bySeverity.toJson .ofNat)]

end ConflictSurvey

end Parametric
