import Parametric.State.Basic

/-!
Renaming of registered definitions.
-/

namespace Parametric

inductive RenameError where
  | notRegistered (name : String)
  | alreadyExists (name : String)
  /-- Formulas reference the definition by its name. -/
  | referenced (name : String) (dependents : List String)
deriving DecidableEq, Repr

def RenameError.message : RenameError → String
  | .notRegistered name => s!"'{name}' is not registered"
  | .alreadyExists name => s!"'{name}' already exists"
  | .referenced name dependents => s!"'{name}' is referenced by " ++ ", ".intercalate dependents

/-- A definition before and after it was renamed, and the state afterwards. -/
structure Renamed where
  previous : Definition
  current : Definition
  state : State
deriving DecidableEq, Repr, Inhabited

def Renamed.changes (r : Renamed) : List Change :=
  (if r.previous.key = r.current.key then [] else [⟨.renamed, r.previous⟩]) ++
    [⟨.updated, r.current⟩]

/-- The formula table with the formula of a result under another name. -/
def Formulas.moveResult (t : Formulas) (old new : String) : Formulas :=
  match t.formula? old with
  | some f => SortedMap.insert (t.erase (keyOf old)) (keyOf new) { f with result := new }
  | none => t

namespace State

def moveDefinition (s : State) (d : Definition) (new : String) : State :=
  { s with
    registry := (s.registry.remove d.name).put { d with name := new }
    formulas := s.formulas.moveResult d.name new
    graph := s.graph.rename d.name new }

/-- Renames a definition, which keeps its token. Names that are taken and definitions that formulas
reference are refused. -/
def rename (s : State) (old new : String) : Except RenameError Renamed :=
  match s.registry.get? old with
  | none => .error (.notRegistered old)
  | some d =>
    let dependents := s.graph.users d.name
    -- under the same key it is the definition itself that has the new name
    if keyOf old ≠ keyOf new ∧ s.registry.contains new then .error (.alreadyExists new)
    else if dependents ≠ [] then .error (.referenced d.name dependents)
    else .ok ⟨d, { d with name := new }, s.moveDefinition d new⟩

end State

end Parametric
