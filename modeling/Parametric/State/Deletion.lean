import Parametric.Issue
import Parametric.State.Basic

/-!
Deletion of definitions.
-/

namespace Parametric

inductive Deletion.Status where
  | deleted
  | notFound
  /-- Formulas still reference the definition. -/
  | hasDependents
  | reserved
deriving DecidableEq, Repr, Inhabited

def Deletion.Status.name : Deletion.Status → String
  | .deleted => "deleted"
  | .notFound => "not_found"
  | .hasDependents => "has_dependents"
  | .reserved => "reserved"

structure Deletion where
  status : Deletion.Status
  /-- The registered name, or the given one if it is not registered. -/
  name : String
  /-- The results of the formulas that referenced the definition. -/
  dependents : List String := []
  errors : List Issue := []
  warnings : List Issue := []
  revision : Option String := none
deriving DecidableEq, Repr, Inhabited

def Deletion.refused (status : Deletion.Status) (name : String) (dependents : List String)
    (kind : Issue.Kind) (message : String) : Deletion where
  status := status
  name := name
  dependents := dependents
  errors := [.about kind name message]

def Deletion.toJson (d : Deletion) : Json :=
  .obj ([("status", .str d.status.name), ("name", .str d.name),
      ("dependents", .ofTexts d.dependents), ("errors", .arr (d.errors.map Issue.toJson)),
      ("warnings", .arr (d.warnings.map Issue.toJson))] ++
    Json.optionalMember "revision" (d.revision.map .str))

namespace State

/-- The state without a definition and without its formula. -/
def dropDefinition (s : State) (d : Definition) : State :=
  let s := { s with registry := s.registry.remove d.name }
  if s.formulas.contains (keyOf d.name) then
    { s with
      formulas := s.formulas.erase (keyOf d.name)
      graph := s.graph.dropFormula d.name }
  else s

/-- Deletes a definition; one that formulas reference only if `force` is set. -/
def delete (s : State) (settings : Settings) (now : Instant) (name : String) (force : Bool) :
    Deletion × State :=
  if settings.registry.reserves name then
    (.refused .reserved name [] .validation "reserved system name", s)
  else
    match s.registry.get? name with
    | none => (.refused .notFound name [] .notFound "unknown parameter", s)
    | some d =>
      let dependents := s.graph.users d.name
      if !dependents.isEmpty && !force then
        (.refused .hasDependents d.name dependents .validation
          ("referenced by " ++ ", ".intercalate dependents), s)
      else
        let warnings := if dependents.isEmpty then []
          else [Issue.warning d.name ("formulas left dangling: " ++ ", ".intercalate dependents)]
        let s := s.dropDefinition d
        let s := { s with
          history := s.history.recordChanges now ("delete " ++ d.name)
            settings.registry.defaultAuthor [⟨.deleted, d⟩] }
        (⟨.deleted, d.name, dependents, [], warnings, some s.versionText⟩, s)

end State

end Parametric
