import Parametric.Failure
import Parametric.Json.Record

/-!
Issues: problems that are listed in the result of an operation.
-/

namespace Parametric

inductive Issue.Kind where
  /-- The request is malformed and nothing was attempted. -/
  | structural
  /-- A check failed and the whole request was refused. -/
  | validation
  /-- A disagreement with existing definitions. -/
  | conflict
  /-- A failure of one entry among others. -/
  | item
  /-- A formula would depend on itself. -/
  | cycle
  | notFound
  | warning
deriving DecidableEq, Repr, Inhabited

def Issue.Kind.name : Issue.Kind → String
  | .structural => "structural"
  | .validation => "validation"
  | .conflict => "conflict"
  | .item => "item"
  | .cycle => "cycle"
  | .notFound => "not_found"
  | .warning => "warning"

def Issue.Kind.all : List Issue.Kind :=
  [.structural, .validation, .conflict, .item, .cycle, .notFound, .warning]

def Issue.Kind.named? (name : String) : Option Issue.Kind := Issue.Kind.all.find? (·.name == name)

structure Issue where
  kind : Issue.Kind
  subject : Option String := none
  message : String
deriving DecidableEq, Repr, Inhabited

def Issue.about (kind : Issue.Kind) (subject message : String) : Issue :=
  ⟨kind, some subject, message⟩

def Issue.warning (subject message : String) : Issue := .about .warning subject message

def Issue.describe (issue : Issue) : String :=
  match issue.subject with
  | some subject => "[" ++ issue.kind.name ++ s!"] {subject}: " ++ issue.message
  | none => "[" ++ issue.kind.name ++ "] " ++ issue.message

def Issue.ofFailure (failure : Failure) : Issue :=
  let kind := match failure with
    | .notFound _ _ => .notFound
    | .syntaxError _ _ | .translation _ => .structural
    | .cycle _ => .cycle
    | _ => .item
  ⟨kind, none, failure.message⟩

def Issue.toJson (issue : Issue) : Json :=
  .obj ([("kind", .str issue.kind.name)] ++
    Json.optionalMember "subject" (issue.subject.map .str) ++
    [("message", .str issue.message)])

end Parametric
