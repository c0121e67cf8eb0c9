import Parametric.Definition.Basic
import Parametric.Version.Revision

/-!
Changes of definitions, and the records that are kept of them.
-/

namespace Parametric

inductive Change.Kind where
  | created
  | updated
  | deleted
  /-- Recorded under the old name; the new one counts as updated. -/
  | renamed
deriving DecidableEq, Repr, Inhabited

def Change.Kind.words : List (String × Change.Kind) :=
  [("created", .created), ("updated", .updated), ("deleted", .deleted), ("renamed", .renamed)]

/-- A change of one definition: the definition after it, or before it where it is gone. -/
structure Change where
  kind : Change.Kind
  definition : Definition
deriving DecidableEq, Repr, Inhabited

/-- What changes do to the version: deletions count most, then creations, then updates. -/
def VersionStep.ofChanges? (changes : List Change) : Option VersionStep :=
  if changes.any (·.kind == .deleted) then some .major
  else if changes.any (·.kind == .created) then some .minor
  else if changes.isEmpty then none
  else some .patch

structure Event where
  name : String
  change : Change.Kind
  definition : Definition
  /-- The version that the change led to. -/
  revision : String
  timestamp : Instant
  message : String
deriving DecidableEq, Repr, Inhabited

def Event.toJson (e : Event) : Json :=
  .obj [("name", .str e.name), ("change", .str (wordFor Change.Kind.words e.change)),
    ("definition", e.definition.toJson), ("revision", .str e.revision),
    ("timestamp", .str e.timestamp.text), ("message", .str e.message)]

def Event.ofJson? (value : Json) : Option Event := do
  let fields ← value.fields?
    ["name", "change", "definition", "revision", "timestamp", "message"]
  return {
    name := ← fields.required "name" Json.text?
    change := ← fields.required "change" (Json.oneOf? Change.Kind.words)
    definition := ← fields.required "definition" Definition.ofJson?
    revision := ← fields.required "revision" Json.text?
    timestamp := ← fields.required "timestamp" Definition.instant?
    message := ← fields.required "message" Json.text? }

/-- An entry of the log of the whole registry. -/
structure Commit where
  revision : Revision
  message : String
  author : Option String := none
  timestamp : Instant
  /-- The names of the changed definitions in ascending order. -/
  changes : List String
deriving DecidableEq, Repr, Inhabited

def Commit.toJson (c : Commit) : Json :=
  .obj ([("revision", c.revision.toJson), ("message", .str c.message)] ++
    Json.optionalMember "author" (c.author.map .str) ++
    [("timestamp", .str c.timestamp.text), ("changes", .ofTexts c.changes)])

def Commit.ofJson? (value : Json) : Option Commit := do
  let fields ← value.fields? ["revision", "message", "author", "timestamp", "changes"]
  return {
    revision := ← fields.required "revision" Revision.ofJson?
    message := ← fields.required "message" Json.text?
    author := ← fields.optional "author" Json.text?
    timestamp := ← fields.required "timestamp" Definition.instant?
    changes := ← fields.required "changes" (Json.list? Json.text?) }

end Parametric
