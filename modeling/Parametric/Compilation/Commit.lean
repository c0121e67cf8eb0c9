import Parametric.Compilation.Plan
import Parametric.Formula.Assignment
import Parametric.Formula.CaseAnalysis

/-!
Committed formulas: a plan becomes the formula of its result, and formulas are removed again.
-/

namespace Parametric

/-- What becomes of a formula that is compiled. -/
inductive Compilation where
  | rejected (error : CompileError)
  /-- The formula passed all checks and is not committed. -/
  | previewed (plan : PlannedFormula) (warnings : List Issue)
  | committed (plan : PlannedFormula) (warnings : List Issue) (revision : String)

namespace Compilation

def isCommitted : Compilation → Bool
  | .committed .. => true
  | _ => false

/-- An outcome with further warnings, if it can have any. -/
def warn (more : List Issue) : Compilation → Compilation
  | .rejected error => .rejected error
  | .previewed plan warnings => .previewed plan (warnings ++ more)
  | .committed plan warnings revision => .committed plan (warnings ++ more) revision

def compiledMembers (plan : PlannedFormula) (warnings : List Issue) (committed : Bool) :
    List (String × Json) :=
  [("stage", .str "compiled"), ("committed", .bool committed), ("plan", plan.toJson),
    ("errors", .arr []), ("warnings", .arr (warnings.map Issue.toJson))]

def toJson : Compilation → Json
  | .rejected error =>
    .obj ([("stage", .str "rejected"), ("committed", .bool false),
        ("errors", .arr (error.issues.map Issue.toJson)),
        ("warnings", .arr (error.warnings.map Issue.toJson))] ++
      Json.optionalMember "cycle" (error.cycle?.map .ofTexts))
  | .previewed plan warnings => .obj (compiledMembers plan warnings false)
  | .committed plan warnings revision =>
    .obj (compiledMembers plan warnings true ++ [("revision", .str revision)])

end Compilation

namespace State

def record (s : State) (settings : Settings) (now : Instant) (message : String)
    (changes : List Change) (step : VersionStep) : State :=
  { s with
    history := s.history.record now message settings.registry.defaultAuthor changes step }

/-- The state with the formula of a registered definition changed, and that change; a definition
that already has the formula stays as it is. -/
def setFormulaText (s : State) (name text : String) : State × List Change :=
  match s.registry.get? name with
  | none => (s, [])
  | some d =>
    if d.formula = some text then (s, [])
    else
      let changed := { d with formula := some text }
      ({ s with registry := s.registry.modify name fun _ => changed }, [⟨.updated, changed⟩])

def commitPlan (s : State) (settings : Settings) (now : Instant) (p : PlannedFormula) : State :=
  let s := s.putFormula ⟨p.result, p.target, p.source, p.references, now⟩
  let (s, changes) := s.setFormulaText p.result p.target
  (s.countUses p.references).record settings now ("compile formula " ++ p.result) changes .patch

def compile (s : State) (settings : Settings) (now : Instant) (options : CompileOptions)
    (result source : String) : Compilation × State :=
  match s.plan settings options result source with
  | .error error => (.rejected error, s)
  | .ok checked =>
    if options.preview then (.previewed checked.plan checked.issues, s)
    else
      let s := s.commitPlan settings now checked.plan
      (.committed checked.plan checked.issues s.versionText, s)

def compileText (s : State) (settings : Settings) (now : Instant) (options : CompileOptions)
    (text : String) : Compilation × State :=
  match Formula.Assignment.parse? text with
  | some a => s.compile settings now options a.result a.expression
  | none => (.rejected (.notAnAssignment text), s)

/-- Compiles an expression that was put together from parts. -/
def compileParts (s : State) (settings : Settings) (now : Instant) (options : CompileOptions)
    (result : String) (parts : Except Formula.SyntaxError Formula.Term) :
    Compilation × State :=
  match parts with
  | .ok e => s.compile settings now options result (e.render {})
  | .error error => (.rejected (.malformed result error), s)

/-- The state without the formula of a result, if there is one. Formulas that reference the result
keep its name. -/
def dropFormula (s : State) (settings : Settings) (now : Instant) (name : String) :
    Option State :=
  (s.formulas.formula? name).map fun removed =>
    let result := removed.result
    let changes := ((s.registry.get? result).map fun d =>
      (⟨.updated, { d with formula := none }⟩ : Change)).toList
    { s with
      registry := s.registry.modify result fun d => { d with formula := none }
      formulas := s.formulas.erase (keyOf name)
      graph := s.graph.dropFormula result
      }.record settings now ("remove formula " ++ result) changes .patch

end State

end Parametric
