import Parametric.History.Log

/-!
The state of an engine, and the part of it that is stored.
-/

namespace Parametric

/-- What is stored of a state; the graph follows from the formulas. -/
structure StoredState where
  registry : Registry := {}
  formulas : Formulas := ∅
  history : History
deriving DecidableEq, Repr, Inhabited

namespace StoredState

def toJson (s : StoredState) : Json :=
  .obj [("registry", s.registry.toJson), ("formulas", s.formulas.toJson StoredFormula.toJson),
    ("history", s.history.toJson)]

/-- Reads a stored state; a missing history starts at the given time. -/
def ofJson? (now : Instant) (value : Json) : Option StoredState := do
  let fields ← value.fields? ["registry", "formulas", "history"]
  return {
    registry := ← fields.required "registry" Registry.ofJson?
    formulas := ← fields.withDefault "formulas" (SortedMap.ofJson? StoredFormula.ofJson?) ∅
    history := ← fields.withDefault "history" History.ofJson? (.start now) }

end StoredState

/-- The registry with its formulas, their dependency graph and the history. -/
structure State where
  registry : Registry := {}
  formulas : Formulas := ∅
  graph : Graph := {}
  history : History
deriving DecidableEq, Repr, Inhabited

namespace State

def start (now : Instant) : State := { history := .start now }

def ofStored (s : StoredState) : State := ⟨s.registry, s.formulas, s.formulas.graph, s.history⟩

def stored (s : State) : StoredState := ⟨s.registry, s.formulas, s.history⟩

/-- The spelling of a name: the registered one, or else the one of a formula's result. -/
def spelling? (s : State) (name : String) : Option String :=
  s.registry.spelling? name <|> (s.formulas.formula? name).map (·.result)

def putFormula (s : State) (f : StoredFormula) : State :=
  { s with
    formulas := s.formulas.insert (keyOf f.result) f
    graph := s.graph.setReferences f.result f.references }

def versionText (s : State) : String := s.history.revision.version.text

/-- The state with one more use of every named definition. -/
def countUses (s : State) (names : List String) : State :=
  { s with
    registry := names.foldl (fun r name =>
      r.modify name fun d => { d with uses := d.uses + 1 }) s.registry }

end State

end Parametric
