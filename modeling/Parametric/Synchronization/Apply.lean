import Parametric.Element.Access
import Parametric.Synchronization.Plan

/-!
Carrying out synchronization plans on elements.
-/

namespace Parametric

structure SyncReport where
  updatedElements : Nat := 0
  added : Nat := 0
  removed : Nat := 0
  failed : Nat := 0
  cancelled : Bool := false
  errors : List Issue := []
  warnings : List Issue := []
deriving DecidableEq, Repr, Inhabited

def SyncReport.toJson (r : SyncReport) : Json :=
  .obj [("elements_updated", .ofNat r.updatedElements), ("added", .ofNat r.added),
    ("removed", .ofNat r.removed), ("failed", .ofNat r.failed), ("cancelled", .bool r.cancelled),
    ("errors", .arr (r.errors.map Issue.toJson)),
    ("warnings", .arr (r.warnings.map Issue.toJson))]

section Elements

variable {ε : Type} [ElementAccess ε]

open ElementAccess

/-- An element after some calls, with what they did; a problem ends the calls. -/
structure ElementProgress (ε : Type) where
  element : ε
  /-- The registered names of the parameters that were added. -/
  added : List String := []
  removed : Nat := 0
  problem : Option String := none
  /-- Whether the operation was cancelled when the element was saved. -/
  cancels : Bool := false

/-- Adds parameters until one cannot be added. -/
def ElementProgress.addAll (r : Registry) (p : ElementProgress ε) : List String → ElementProgress ε
  | [] => p
  | name :: rest =>
    match r.get? name with
    | none => { p with problem := some s!"'{name}' is not registered" }
    | some d =>
      let reply := add p.element d
      match reply.problem with
      | some message =>
        { p with element := reply.element, problem := some (s!"adding '{name}': " ++ message) }
      | none => addAll r { p with element := reply.element, added := p.added ++ [d.name] } rest

/-- Removes parameters until one cannot be removed. -/
def ElementProgress.removeAll (p : ElementProgress ε) : List String → ElementProgress ε
  | [] => p
  | name :: rest =>
    let reply := remove p.element name
    match reply.problem with
    | some message =>
      { p with element := reply.element, problem := some (s!"removing '{name}': " ++ message) }
    | none => removeAll { p with element := reply.element, removed := p.removed + 1 } rest

def ElementProgress.save (p : ElementProgress ε) : ElementProgress ε :=
  let reply := ElementAccess.save p.element
  { p with
    element := reply.element
    problem := reply.problem.map ("save failed: " ++ ·)
    cancels := cancelsOnSave p.element }

/-- Goes on unless there was a problem. -/
def ElementProgress.andThen (p : ElementProgress ε)
    (next : ElementProgress ε → ElementProgress ε) : ElementProgress ε :=
  if p.problem.isSome then p else next p

def ElementTask.applyTo (task : ElementTask) (r : Registry) (element : ε) : ElementProgress ε :=
  let start : ElementProgress ε := { element := element }
  ((start.addAll r task.additions).andThen (·.removeAll task.removals)).andThen ElementProgress.save

/-- Elements with the report on them and the names of all parameters that were added. -/
structure Applied (ε : Type) where
  elements : List ε := []
  report : SyncReport := {}
  used : List String := []

def SyncReport.note (report : SyncReport) (id : String) (p : ElementProgress ε) : SyncReport :=
  let report := { report with
    added := report.added + p.added.length
    removed := report.removed + p.removed }
  match p.problem with
  | some message =>
    { report with
      failed := report.failed + 1
      errors := report.errors ++ [.about .item id message] }
  | none => { report with updatedElements := report.updatedElements + 1 }

/-- Carries out a plan on elements, one after the other, until the operation is cancelled. -/
def SyncPlan.applyFrom (plan : SyncPlan) (r : Registry) (done : Applied ε)
    (cancelled : Bool) : List ε → Applied ε
  | [] => done
  | element :: rest =>
    if cancelled then
      { done with
        elements := done.elements ++ element :: rest
        report := { done.report with cancelled := true } }
    else
      -- an element that could not be planned for is passed over like one without a task
      match (plan.taskFor? (ElementAccess.id element)).filter (·.error.isNone) with
      | none =>
        plan.applyFrom r { done with elements := done.elements ++ [element] } cancelled rest
      | some task =>
        let p := task.applyTo r element
        plan.applyFrom r
          { elements := done.elements ++ [p.element]
            report := done.report.note (ElementAccess.id element) p
            used := done.used ++ p.added }
          p.cancels rest

/-- Carries out a plan, unless it is a preview. -/
def SyncPlan.applyTo (plan : SyncPlan) (r : Registry) (cancelled : Bool) (elements : List ε) :
    Applied ε :=
  if plan.status = .preview then
    { elements := elements
      report := { warnings := [⟨.warning, none, "preview plans are not applied"⟩] } }
  else plan.applyFrom r {} cancelled elements

end Elements

end Parametric
