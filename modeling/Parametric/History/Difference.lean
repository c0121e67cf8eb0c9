import Parametric.History.Snapshot
import Parametric.Text.LineDiff

/-!
Differences between two registries, by name.
-/

namespace Parametric

/-- The names of the fields in which two definitions differ, apart from the time of creation and
the usage count. -/
def Definition.differingFields (a b : Definition) : List String :=
  let fields := [("identity", a.identity != b.identity), ("name", a.name != b.name),
    ("kind", a.kind != b.kind), ("group", a.group != b.group), ("visible", a.visible != b.visible),
    ("formula", a.formula != b.formula), ("description", a.description != b.description),
    ("category", a.category != b.category), ("is_instance", a.perElement != b.perElement),
    ("allow_missing", a.allowMissing != b.allowMissing)]
  (fields.filter (·.2)).map (·.1)

def LineDiff.Mark.sign : LineDiff.Mark → Char
  | .kept => ' '
  | .deleted => '-'
  | .inserted => '+'

/-- The lines of two formulas with what becomes of them; no formula counts as an empty one. -/
def formulaComparison (old new : Option String) : String :=
  let linesOf := fun text : Option String =>
    Text.linesWithEnds ((text.getD "").toList ++ ['\n'])
  .ofList ((LineDiff.marks (linesOf old) (linesOf new)).flatMap fun (mark, line) =>
    mark.sign :: line)

/-- A definition that two registries have in different shapes. -/
structure Modification where
  name : String
  differingFields : List String
  formulaLines : Option String := none
deriving DecidableEq, Repr, Inhabited

/-- How a definition differs from one of the same name, if it does. -/
def Definition.modification? (old new : Definition) : Option Modification :=
  let fields := old.differingFields new
  if fields.isEmpty then none
  else
    some ⟨new.name, fields,
      if old.formula = new.formula then none else some (formulaComparison old.formula new.formula)⟩

structure Difference where
  source : SnapshotNumber
  target : SnapshotNumber
  added : List String
  removed : List String
  modified : List Modification
deriving DecidableEq, Repr, Inhabited

def Difference.isEmpty (d : Difference) : Bool :=
  d.added.isEmpty && d.removed.isEmpty && d.modified.isEmpty

def Registry.namesMissingIn (r other : Registry) : List String :=
  (r.definitions.filter fun d => !other.contains d.name).map (·.name)

/-- The difference between the registries of two snapshots. -/
def Registry.difference (source : SnapshotNumber) (a : Registry) (target : SnapshotNumber)
    (b : Registry) : Difference where
  source := source
  target := target
  added := b.namesMissingIn a
  removed := a.namesMissingIn b
  modified := a.definitions.filterMap fun old => (b.get? old.name).bind old.modification?

def Modification.toJson (m : Modification) : Json :=
  .obj ([("name", .str m.name), ("changed_fields", .ofTexts m.differingFields)] ++
    Json.optionalMember "formula_diff" (m.formulaLines.map .str))

def Difference.toJson (d : Difference) : Json :=
  .obj [("from", d.source.toJson), ("to", d.target.toJson), ("added", .ofTexts d.added),
    ("removed", .ofTexts d.removed), ("modified", .arr (d.modified.map Modification.toJson))]

end Parametric
