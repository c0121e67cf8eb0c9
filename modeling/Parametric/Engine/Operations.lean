import Parametric.Compilation.Commit
import Parametric.Conflict.Detection
import Parametric.Conflict.Resolution
import Parametric.Creation.Commit
import Parametric.Engine.Basic
import Parametric.Exchange.Format
import Parametric.Search.Hit
import Parametric.Sentence.Translation
import Parametric.State.Deletion
import Parametric.State.Rollback
import Parametric.Synchronization.Apply

/-!
The operations of an engine. Each one changes the state and then writes it to the store; if the
store refuses, the change stands and the result carries a warning.
-/

namespace Parametric.Engine

/-! ## Definitions -/

def create (e : Engine) (now : Instant) (batch : Batch) (cancelled : Bool) :
    BatchOutcome × Engine :=
  let (result, state, supply) := e.state.create e.settings now e.supply batch cancelled
  let e := { e with supply := supply }
  if result.revision.isSome then
    let (warnings, e) := e.commit state
    ({ result with warnings := result.warnings ++ warnings }, e)
  else (result, { e with state := state })

/-- The batch that creates or updates given definitions. -/
def batchOf (definitions : List Definition) : Batch where
  entries := definitions.map .ofDefinition
  message := some s!"import {definitions.length} definitions"

def importDefinitions (e : Engine) (now : Instant) (definitions : List Definition)
    (cancelled : Bool) : BatchOutcome × Engine :=
  e.create now (batchOf definitions) cancelled

/-- Creates or updates the definitions in the text of an exchange file. The warnings about the text
come with the result. -/
def importText (e : Engine) (now : Instant) (format : FileFormat) (text : String)
    (cancelled : Bool) : Except Failure (List Issue × BatchOutcome × Engine) := do
  let (decoded, supply) ← format.decode now e.supply text
  return (decoded.warnings,
    { e with supply := supply }.importDefinitions now decoded.definitions cancelled)

def exportText (e : Engine) (format : FileFormat) : String :=
  format.encode e.settings.prettyExport e.state.registry.definitions

/-- The batch that creates the definitions of a template for a category. -/
def templateBatch (t : Template) (category : String) (options : TemplateUse) : Batch where
  entries := t.proposalsFor category options
  message := some s!"template {t.id} for {category}"

def instantiate (e : Engine) (now : Instant) (id category : String)
    (options : TemplateUse) (cancelled : Bool) : Except Failure (BatchOutcome × Engine) :=
  match e.templates.get? id with
  | some t => .ok (e.create now (templateBatch t category options) cancelled)
  | none => .error (.notFound "template" id)

def delete (e : Engine) (now : Instant) (name : String) (force : Bool) : Deletion × Engine :=
  let (result, state) := e.state.delete e.settings now name force
  if result.revision.isSome then
    let (warnings, e) := e.commit state
    ({ result with warnings := result.warnings ++ warnings }, e)
  else (result, e)

/-! ## Formulas -/

/-- An outcome with the state after it, which is stored if a formula was committed. -/
def afterCompile (e : Engine) (step : Compilation × State) : Compilation × Engine :=
  let (outcome, state) := step
  if outcome.isCommitted then
    let (warnings, e) := e.commit state
    (outcome.warn warnings, e)
  else (outcome, e)

def compile (e : Engine) (now : Instant) (options : CompileOptions) (result source : String) :
    Compilation × Engine :=
  e.afterCompile (e.state.compile e.settings now options result source)

def compileText (e : Engine) (now : Instant) (options : CompileOptions) (text : String) :
    Compilation × Engine :=
  e.afterCompile (e.state.compileText e.settings now options text)

def compileCases (e : Engine) (now : Instant) (options : CompileOptions) (result : String)
    (branches : List Formula.CaseArm) (otherwise : String) : Compilation × Engine :=
  e.afterCompile (e.state.compileParts e.settings now options result
    (Formula.conditional branches otherwise))

def compileTable (e : Engine) (now : Instant) (options : CompileOptions) (result key : String)
    (table : List (String × String)) (otherwise : String) : Compilation × Engine :=
  e.afterCompile (e.state.compileParts e.settings now options result
    (Formula.lookup key table otherwise))

/-- Removes the formula of a result, and says whether there was one. -/
def dropFormula (e : Engine) (now : Instant) (name : String) : Bool × Engine :=
  match e.state.dropFormula e.settings now name with
  | some state => (true, (e.commit state).2)
  | none => (false, e)

def toAssignment (e : Engine) (sentence : String) : Except Failure Formula.Assignment :=
  (Sentence.toAssignment e.settings.naming sentence).mapError Sentence.Cause.failure

/-- Compiles a sentence; the assignment that it says comes with the outcome. -/
def translate (e : Engine) (now : Instant) (options : CompileOptions) (sentence : String) :
    Except Failure (Formula.Assignment × Compilation × Engine) := do
  let a ← e.toAssignment sentence
  return (a, e.compile now options a.result a.expression)

/-! ## Snapshots -/

/-- What snapshots are described by that were not given a description. -/
def manualDescription : String := "manual snapshot"

/-- Takes a snapshot. It is taken also if it cannot be stored. -/
def addSnapshot (e : Engine) (now : Instant) (description : Option String) :
    SnapshotNumber × Engine :=
  let id := e.state.history.nextSnapshot
  (id, (e.commit (e.state.addSnapshot now (description.getD manualDescription))).2)

/-- Rolls back to a snapshot. The rollback stands also if it cannot be stored. -/
def rollback (e : Engine) (now : Instant) (id : SnapshotNumber) : Rollback × Engine :=
  let (result, state) := e.state.rollback e.settings now id
  if result.status = .notFound then (result, e)
  else
    let e := { e with state := state }
    match e.save with
    | .ok e => (result, e)
    | .error failure =>
      ({ result with
         status := .persistenceFailed
         errors := [⟨.item, none, failure.message⟩] }, e)

/-! ## Elements -/

def planSync (e : Engine) (options : SyncRequest) (captures : List Capture)
    (cancelled : Bool) : SyncPlan :=
  e.state.registry.planSync e.settings e.templates options captures cancelled

def survey (e : Engine) (captures : List Capture) : ConflictSurvey :=
  .detect captures e.state.registry e.settings.naming

variable {ε : Type} [ElementAccess ε]

/-- Carries out a plan on elements, and counts the uses of definitions. -/
def carryOut (e : Engine) (plan : SyncPlan) (elements : List ε) (cancelled : Bool) :
    SyncReport × List ε × Engine :=
  let applied := plan.applyTo e.state.registry cancelled elements
  if applied.used.isEmpty then (applied.report, applied.elements, e)
  else
    let (warnings, e) := e.commit (e.state.countUses applied.used)
    ({ applied.report with warnings := applied.report.warnings ++ warnings },
      applied.elements, e)

/-- Resolves conflicts in the registry and on elements. -/
def settle (e : Engine) (now : Instant) (survey : ConflictSurvey)
    (policy : ResolutionPolicy) (elements : List ε) : Resolution × List ε × Engine :=
  let resolved := e.state.resolve e.settings now e.supply survey policy elements
  let e := { e with supply := resolved.supply }
  if resolved.result.revision.isSome then
    let (warnings, e) := e.commit resolved.state
    ({ resolved.result with warnings := resolved.result.warnings ++ warnings },
      resolved.elements, e)
  else (resolved.result, resolved.elements, { e with state := resolved.state })

end Parametric.Engine
