import Parametric.Failure
import Parametric.Formula.Stored
import Parametric.Registry.Basic
import Parametric.Text.Lines
import Parametric.Version.Revision

/-!
Snapshots: copies of the registry and of the formula table that never change.
-/

namespace Parametric

structure SnapshotNumber where
  number : Nat
deriving DecidableEq, Repr, Inhabited

namespace SnapshotNumber

/-- A snapshot number as it is shown, with at least four digits. -/
def text (id : SnapshotNumber) : String := "snap-" ++ Time.padded 4 id.number

/-- Reads a snapshot number, alone or as it is shown. -/
def parse? (text : String) : Option SnapshotNumber :=
  let trimmed := Text.trim text
  let digits := match trimmed.toList with
    | 's' :: 'n' :: 'a' :: 'p' :: '-' :: rest => .ofList rest
    | _ => trimmed
  (Text.nat? digits).map (⟨·⟩)

/-- What is said about a text that is no snapshot number. -/
def invalidMessage (text : String) : String := s!"invalid snapshot id '{text}'"

def toJson (id : SnapshotNumber) : Json := .ofNat id.number

def ofJson? (value : Json) : Option SnapshotNumber := value.nat?.map (⟨·⟩)

end SnapshotNumber

/-- A copy of the registry and the formula table. -/
structure Snapshot where
  id : SnapshotNumber
  description : String
  createdAt : Instant
  /-- The revision of the registry at that time. -/
  revision : Revision
  registry : Registry
  formulas : Formulas
  checksum : String
deriving DecidableEq, Repr, Inhabited

namespace Snapshot

def toJson (s : Snapshot) : Json :=
  .obj [("id", s.id.toJson), ("description", .str s.description),
    ("created_at", .str s.createdAt.text), ("revision", s.revision.toJson),
    ("registry", s.registry.toJson), ("formulas", s.formulas.toJson StoredFormula.toJson),
    ("checksum", .str s.checksum)]

def ofJson? (value : Json) : Option Snapshot := do
  let fields ← value.fields?
    ["id", "description", "created_at", "revision", "registry", "formulas", "checksum"]
  return {
    id := ← fields.required "id" SnapshotNumber.ofJson?
    description := ← fields.required "description" Json.text?
    createdAt := ← fields.required "created_at" Definition.instant?
    revision := ← fields.required "revision" Revision.ofJson?
    registry := ← fields.required "registry" Registry.ofJson?
    formulas := ← fields.required "formulas" (SortedMap.ofJson? StoredFormula.ofJson?)
    checksum := ← fields.required "checksum" Json.text? }

/-- What a list of snapshots says about one. -/
def summaryJson (s : Snapshot) : Json :=
  .obj [("id", s.id.toJson), ("description", .str s.description),
    ("created_at", .str s.createdAt.text), ("revision", .str s.revision.version.text),
    ("parameter_count", .ofNat s.registry.size)]

/-- Whether the registry of a snapshot still has the digest it was taken with. -/
def verify (s : Snapshot) : Except Failure Unit :=
  let actual := s.registry.checksum
  if actual = s.checksum then .ok () else .error (.checksumMismatch s.checksum actual)

end Snapshot

end Parametric
