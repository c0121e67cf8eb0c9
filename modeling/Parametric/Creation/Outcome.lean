import Parametric.Conflict.Basic
import Parametric.Issue

/-!
Results of batches.
-/

namespace Parametric

inductive BatchOutcome.Status where
  | completed
  /-- Some entries failed, and the others were committed. -/
  | completedWithErrors
  /-- The batch has no entries. -/
  | rejected
  | validationFailed
  | conflictsDetected
  | cancelled
deriving DecidableEq, Repr, Inhabited

def BatchOutcome.Status.name : BatchOutcome.Status → String
  | .completed => "completed"
  | .completedWithErrors => "completed_with_errors"
  | .rejected => "rejected"
  | .validationFailed => "validation_failed"
  | .conflictsDetected => "conflicts_detected"
  | .cancelled => "cancelled"

structure BatchOutcome where
  status : BatchOutcome.Status
  createdNames : List String := []
  updatedNames : List String := []
  skipped : Nat := 0
  failed : Nat := 0
  errors : List Issue := []
  warnings : List Issue := []
  conflicts : List Conflict := []
  revision : Option String := none
deriving DecidableEq, Repr, Inhabited

namespace BatchOutcome

def created (r : BatchOutcome) : Nat := r.createdNames.length

def updated (r : BatchOutcome) : Nat := r.updatedNames.length

/-- Whether everything that was asked for was committed. -/
def isComplete (r : BatchOutcome) : Bool := r.status == .completed

def names (r : BatchOutcome) : List String := r.createdNames ++ r.updatedNames

def members (r : BatchOutcome) : List (String × Json) :=
  [("status", .str r.status.name), ("created", .ofNat r.created), ("updated", .ofNat r.updated),
    ("skipped", .ofNat r.skipped), ("failed", .ofNat r.failed),
    ("errors", .arr (r.errors.map Issue.toJson)), ("warnings", .arr (r.warnings.map Issue.toJson)),
    ("conflicts", .arr (r.conflicts.map Conflict.toJson)),
    ("created_names", .ofTexts r.createdNames), ("updated_names", .ofTexts r.updatedNames)] ++
    Json.optionalMember "revision" (r.revision.map .str)

def toJson (r : BatchOutcome) : Json := .obj r.members

end BatchOutcome

end Parametric
