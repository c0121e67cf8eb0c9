import Parametric.Name.Convention
import Parametric.Text.Blank
import Parametric.Text.Quoted

/-!
Reports on names that do not follow a convention.
-/

namespace Parametric

inductive NameProblem where
  | empty
  | invalidCharacters (found : List Char)
  | tooLong (length limit : Nat)
  | missingLeading (expected : String)
  | conventionViolation (expected : String)
deriving DecidableEq, Repr

def NameProblem.kind : NameProblem → String
  | .empty => "empty"
  | .invalidCharacters _ => "invalid_characters"
  | .tooLong _ _ => "too_long"
  | .missingLeading _ => "missing_prefix"
  | .conventionViolation _ => "convention_violation"

def NameProblem.code : NameProblem → String
  | .empty => "N001"
  | .invalidCharacters _ => "N002"
  | .tooLong _ _ => "N003"
  | .missingLeading _ => "N004"
  | .conventionViolation _ => "N005"

def NameProblem.message : NameProblem → String
  | .empty => "Name is empty"
  | .invalidCharacters found =>
    "Name contains invalid characters: [" ++ ", ".intercalate (found.map Text.quotedChar) ++ "]"
  | .tooLong length limit => s!"Name is {length} characters long, maximum is {limit}"
  | .missingLeading expected => s!"Name must start with '{expected}'"
  | .conventionViolation expected =>
    s!"Name does not follow the naming convention, expected '{expected}'"

def NameProblem.describe (p : NameProblem) : String := "[" ++ p.code ++ "] " ++ p.message

structure NameReport where
  problems : List NameProblem
  /-- The normalized name, where it differs from the given one. -/
  suggestion : Option String
deriving DecidableEq, Repr

def NameReport.isClean (r : NameReport) : Bool := r.problems.isEmpty

namespace Convention

def allows (c : Convention) (char : Char) : Bool :=
  char.isAlphanum || c.separator.toList.contains char || char == '_' || char == '-' ||
    char == '.' || char == ' '

/-- A problem that is listed only under a condition. -/
def problemIf (condition : Bool) (problem : NameProblem) : List NameProblem :=
  if condition then [problem] else []

def validate (c : Convention) (name : String) : NameReport :=
  let trimmed := Text.trim name
  if trimmed == "" then ⟨[.empty], none⟩
  else
    let bad := trimmed.toList.filter fun char => !c.allows char
    let normalized := c.normalize trimmed
    let problems :=
      problemIf (!bad.isEmpty) (.invalidCharacters bad) ++
      problemIf (trimmed.length > c.maxLength) (.tooLong trimmed.length c.maxLength) ++
      problemIf (!c.hasLeading (c.join (wordsOf trimmed.toList)))
        (.missingLeading (.ofList (c.join c.leadingWords))) ++
      problemIf (normalized != trimmed) (.conventionViolation normalized)
    ⟨problems, if normalized != name then some normalized else none⟩

def isClean (c : Convention) (name : String) : Bool := (c.validate name).isClean

end Convention

end Parametric
