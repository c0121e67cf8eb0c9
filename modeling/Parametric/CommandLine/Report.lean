import Parametric.CommandLine.Command
import Parametric.Engine.Operations

/-!
What the commands of the program print.
-/

namespace Parametric.CommandLine

/-- What a command prints, what it remarks on the side, and why it fails, if it does. -/
structure Report where
  output : String := ""
  remarks : List String := []
  failure : Option String := none
deriving DecidableEq, Repr, Inhabited

/-- Lines of text, each with its end. -/
def linesText (lines : List String) : String := String.join (lines.map (· ++ "\n"))

def nameLines (c : Convention) (name : String) : List String :=
  (name ++ " -> " ++ c.normalize name) ::
    (c.validate name).problems.map fun problem => "    " ++ problem.describe

def normalize (c : Convention) (names : List String) : Report where
  output := linesText (names.flatMap (nameLines c))

def compiled (before : List String) : Compilation → Report
  | .rejected error =>
    { output := linesText (before ++ [(Compilation.rejected error).toJson.pretty])
      failure := some "formula rejected" }
  | outcome => { output := linesText (before ++ [outcome.toJson.pretty]) }

def compile (e : Engine) (now : Instant) (assignment : String) (options : CompileOptions) :
    Report × Engine :=
  let (outcome, e) := e.compileText now options assignment
  (compiled [] outcome, e)

def translate (e : Engine) (now : Instant) (sentence : String) (options : CompileOptions) :
    Report × Engine :=
  match e.translate now options sentence with
  | .error failure => ({ failure := some failure.message }, e)
  | .ok (a, outcome, e) => (compiled [a.result ++ " = " ++ a.expression] outcome, e)

/-- A number at the end of three columns. -/
def column (n : Nat) : String :=
  let digits := Nat.repr n
  .ofList (List.replicate (3 - digits.length) ' ') ++ digits

def numberedLines (number : Nat) : List String → List String
  | [] => []
  | name :: rest => (column number ++ ". " ++ name) :: numberedLines (number + 1) rest

/-- The order in which formulas can be evaluated; all of them if none are named. -/
def order (s : State) (names : List String) (drawing : Bool) : Report :=
  if drawing then { output := s.graph.dot }
  else
    let names := if names.isEmpty then s.formulas.values.map (·.result) else names
    { output := linesText (numberedLines 1 (s.graph.schedule names)) }

def remark (word : String) (issue : Issue) : String := word ++ ": " ++ issue.describe

def load (e : Engine) (now : Instant) (format : FileFormat) (text : String) :
    Report × Engine :=
  match e.importText now format text false with
  | .error failure => ({ failure := some failure.message }, e)
  | .ok (warnings, result, e) =>
    ({ remarks := warnings.map (remark "warning") ++ result.errors.map (remark "error") }, e)

/-- Converts the text of an exchange file; the new text comes with the report. -/
def convert (settings : Settings) (now : Instant) (supply : TokenSupply)
    (source target : FileFormat) (text input output : String) : Report × Option String :=
  match source.decode now supply text with
  | .error failure => ({ failure := some failure.message }, none)
  | .ok (decoded, _) =>
    ({ output := s!"Converted {decoded.definitions.length} definitions: {input} -> {output}\n"
       remarks := decoded.warnings.map (remark "warning") },
      some (target.encode settings.prettyExport decoded.definitions))

def severityLabel : Severity → String
  | .informational => "Informational"
  | .warning => "Warning"
  | .critical => "Critical"

def conflictLines (c : Conflict) : List String :=
  ("[" ++ severityLabel c.severity ++ "] " ++ c.kind.name ++ " " ++ c.parameter ++ ": " ++
      c.details ++ " (" ++ ", ".intercalate c.sources ++ ")") ::
    (c.suggestion.map ("    suggestion: " ++ ·)).toList

def conflicts (e : Engine) (text : String) (strict : Bool) : Report :=
  match (Json.read? text).bind (Json.list? Capture.ofJson?) with
  | none => { failure := some Failure.json.message }
  | some captures =>
    let found := e.survey captures
    let count := found.conflicts.length
    let summary :=
      s!"{found.elementCount} elements, {count} conflicts, {found.blockers} critical"
    { output := linesText (found.conflicts.flatMap conflictLines ++ [summary])
      failure := if strict && !found.canMerge then some "critical conflicts found" else none }

end Parametric.CommandLine
