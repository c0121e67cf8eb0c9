import Parametric.Definition.Basic
import Parametric.Version.Semantic

/-!
Revisions of the registry.
-/

namespace Parametric

/-- A version of the registry, with the time when it came about and the version before it. -/
structure Revision where
  version : Version
  createdAt : Instant
  predecessor : Option String := none
deriving DecidableEq, Repr, Inhabited

namespace Revision

/-- The revision of a version without a predecessor; a `v` may stand before the version. -/
def parse? (now : Instant) (text : String) : Option Revision :=
  let version := match text.toList with
    | 'v' :: rest => Version.parse? (.ofList rest)
    | _ => Version.parse? text
  version.map (⟨·, now, none⟩)

def advance (r : Revision) (step : VersionStep) (now : Instant) : Revision :=
  ⟨r.version.advance step, now, some r.version.text⟩

def tag (r : Revision) : String := "v" ++ r.version.text

def toJson (r : Revision) : Json :=
  .obj [("version", .str r.version.text), ("created_at", .str r.createdAt.text),
    ("previous_version", .ofText? r.predecessor)]

def ofJson? (value : Json) : Option Revision := do
  let fields ← value.fields? ["version", "created_at", "previous_version"]
  return {
    version := ← fields.required "version" fun v => v.text?.bind Version.parse?
    createdAt := ← fields.required "created_at" Definition.instant?
    predecessor := ← fields.nullable "previous_version" Json.text? }

end Revision

end Parametric
