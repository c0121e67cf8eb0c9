import Parametric.Dependency.Order
import Parametric.Dependency.Search
import Parametric.Formula.Inference
import Parametric.Formula.Parser
import Parametric.Formula.Simplify
import Parametric.Formula.Spelling
import Parametric.Issue
import Parametric.Settings.Basic
import Parametric.State.Basic

/-!
Plans of formulas: everything that is checked and computed before a formula is committed.
-/

namespace Parametric

open Formula (SyntaxError Spellings)

/-- What is allowed when a formula is compiled. -/
structure CompileOptions where
  /-- Whether names that are not known only give warnings. -/
  allowMissing : Bool := false
  /-- The kind that the result should have, before that of the registry. -/
  declaredKind : Option ValueKind := none
  /-- Further names that may be referenced. -/
  furtherNames : List String := []
  /-- Whether nothing is committed. -/
  preview : Bool := false
deriving DecidableEq, Repr, Inhabited

/-- A formula that passed all checks. -/
structure PlannedFormula where
  result : String
  /-- The text that was compiled. -/
  source : String
  /-- The referenced names in the order of the expression. -/
  references : List String
  /-- The result and all it depends on, what is needed first before the rest. -/
  schedule : List String
  /-- The compiled text. -/
  target : String
  inferred : Dimension
  warnings : List String
deriving DecidableEq, Repr, Inhabited

inductive CompileError where
  | emptyResult
  | notAnAssignment (text : String)
  | malformed (result : String) (error : SyntaxError)
  | unknownNames (names : List String)
  /-- The formula would depend on itself; there may have been warnings about unknown names. -/
  | cycle (result : String) (path unknown : List String)

namespace CompileError

def issueAbout (result : String) (failure : Failure) : Issue :=
  { Issue.ofFailure failure with subject := some result }

def issues : CompileError → List Issue
  | .emptyResult => [⟨.structural, none, "formula result name is empty"⟩]
  | .notAnAssignment text =>
    [⟨.structural, none, s!"expected '<name> = <expression>', got '{Text.trim text}'"⟩]
  | .malformed result error => [issueAbout result (.ofSyntax error)]
  | .unknownNames names =>
    names.map fun name => .about .notFound name s!"unknown parameter '{name}'"
  | .cycle result path _ => [issueAbout result (.cycle path)]

def cycle? : CompileError → Option (List String)
  | .cycle _ path _ => some path
  | _ => none

end CompileError

/-- The warning about a name that is not known. -/
def missingWarning (name : String) : Issue := .warning name s!"unknown parameter '{name}' (allowed)"

/-- The warnings that came before an error. -/
def CompileError.warnings : CompileError → List Issue
  | .cycle _ _ unknown => unknown.map missingWarning
  | _ => []

/-- The extra name that a reference means, in any ASCII letter case. -/
def CompileOptions.extraName? (options : CompileOptions) (name : String) : Option String :=
  options.furtherNames.find? fun extra => Text.sameAscii (Text.trim extra) (Text.trim name)

def State.kindOf? (s : State) (settings : Settings) (name : String) : Option ValueKind :=
  (s.registry.get? name).map (·.kind) <|> settings.declaredKind? name

/-- The name that a reference in the formula of a result means. -/
def State.resolve? (s : State) (options : CompileOptions) (result name : String) :
    Option String :=
  if keyOf name = keyOf result then some result
  else s.spelling? name <|> options.extraName? name

/-- A plan with the names that are not known. -/
structure CheckedPlan where
  plan : PlannedFormula
  unknown : List String
deriving DecidableEq, Repr, Inhabited

def CheckedPlan.issues (c : CheckedPlan) : List Issue :=
  c.unknown.map missingWarning ++ c.plan.warnings.map (.warning c.plan.result)

/-- The plan of an expression without unknown names that closes no cycle. -/
def State.planOf (s : State) (settings : Settings) (options : CompileOptions)
    (result source : String) (e : Formula.Term) : PlannedFormula :=
  let inference := Formula.infer (s.kindOf? settings) e
  let expected := options.declaredKind <|> s.kindOf? settings result
  let simplified := Formula.optimize e
  let references := simplified.expr.references
  { result := result
    source := source
    references := references
    schedule := (s.graph.setReferences result references).schedule [result]
    target := simplified.expr.render settings.formula.style
    inferred := inference.dimension
    warnings := inference.warnings ++
      (Formula.kindWarning? result inference.dimension expected).toList ++ simplified.warnings }

def State.plan (s : State) (settings : Settings) (options : CompileOptions)
    (name source : String) : Except CompileError CheckedPlan := do
  let trimmed := Text.trim name
  if trimmed = "" then throw .emptyResult
  let result := (s.spelling? trimmed).getD trimmed
  let parsed ← (Formula.parse source).mapError (.malformed result)
  let meaning := s.resolve? options result
  let unknown := parsed.references.filter fun reference => (meaning reference).isNone
  if !options.allowMissing && !unknown.isEmpty then throw (.unknownNames unknown)
  -- from here on each known name stands in the spelling of what it means
  let e := parsed.respelled (.ofNames meaning parsed.references)
  match s.graph.cycleWith result e.references with
  | some path => throw (.cycle result path unknown)
  | none => return ⟨s.planOf settings options result source e, unknown⟩

def Dimension.toJson : Dimension → Json
  | .length power => .obj [("length", .int power)]
  | .angle => .str "angle"
  | .currency => .str "currency"
  | .dimensionless => .str "dimensionless"
  | .boolean => .str "boolean"
  | .text => .str "text"
  | .unknown => .str "unknown"

def PlannedFormula.toJson (p : PlannedFormula) : Json :=
  .obj [("result", .str p.result), ("source", .str p.source),
    ("references", .ofTexts p.references), ("evaluation_order", .ofTexts p.schedule),
    ("target", .str p.target), ("inferred", p.inferred.toJson), ("warnings", .ofTexts p.warnings)]

end Parametric
