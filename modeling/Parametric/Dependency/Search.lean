import Parametric.Dependency.Graph

/-!
Searches in the dependency graph: what is reachable from a name, and whether a name reaches itself.
-/

namespace Parametric

/-- The direction in which edges are followed. -/
inductive Direction where
  /-- To the names that a formula references. -/
  | references
  /-- To the formulas that reference a name. -/
  | dependents
deriving DecidableEq, Repr

/-- A name that is reached, and the number of edges on the way to it. -/
structure Reached where
  name : String
  depth : Nat
deriving DecidableEq, Repr

namespace Graph

/-- The nodes next to a node, in the order in which their edges were added. -/
def neighbours (g : Graph) (direction : Direction) (id : Nat) : List Nat :=
  match direction with
  | .references => ((g.edgesFrom id).map (·.target)).reverse
  | .dependents => ((g.edgesTo id).map (·.source)).reverse

/-- Visits the nodes of a stack and all that can be reached from them, each once; gives them with
the depths at which they were on the stack. -/
def visit (g : Graph) (direction : Direction) :
    Nat → List Nat → List (Nat × Nat) → List (Nat × Nat)
  | 0, _, _ => []
  | _ + 1, _, [] => []
  | steps + 1, visited, (id, depth) :: stack =>
    if visited.contains id then g.visit direction steps visited stack
    else
      (id, depth) :: g.visit direction steps (id :: visited)
        ((g.neighbours direction id).map (·, depth + 1) ++ stack)

/-- A node and all that can be reached from it. Every edge puts a node on the stack at most once. -/
def visitFrom (g : Graph) (direction : Direction) (id : Nat) : List (Nat × Nat) :=
  g.visit direction (g.numEdges + 1) [] [(id, 0)]

/-- Names by depth, and in ascending order at one depth. -/
def Reached.le (a b : Reached) : Bool :=
  a.depth < b.depth || (a.depth == b.depth && a.name ≤ b.name)

/-- The names other than the start that can be reached from a name. -/
def reachable (g : Graph) (name : String) (direction : Direction) : List Reached :=
  match g.node? name with
  | none => []
  | some start =>
    let found := (g.visitFrom direction start).filterMap fun (id, depth) =>
      if id = start then none else (g.nameOf? id).map (⟨·, depth⟩)
    found.mergeSort Reached.le

/-! ## Cycles -/

/-- Follows references from the last node of a path, given backwards with the untried successors
of each of its nodes, until one of them is `start`. -/
def pathBack (g : Graph) (start : Nat) :
    Nat → List Nat → List Nat → List (List Nat) → Option (List Nat)
  | 0, _, _, _ => none
  | _ + 1, _, _, [] => none
  | steps + 1, visited, path, [] :: frontier => g.pathBack start steps visited path.tail frontier
  | steps + 1, visited, path, (next :: pending) :: frontier =>
    -- `start` is not among the visited nodes, so that a way back to it is never cut off
    if next = start then some (start :: path).reverse
    else if visited.contains next then
      g.pathBack start steps visited path (pending :: frontier)
    else
      g.pathBack start steps (next :: visited) (next :: path)
        (g.successors next :: pending :: frontier)

/-- The names on a way from a name back to itself, if there is one. -/
def loopAt (g : Graph) (name : String) : Option (List String) := do
  let start ← g.node? name
  let path ← g.pathBack start (g.numEdges + g.numNodes + 2) [] [start] [g.successors start]
  return g.labels path

/-- The cycle that a formula would close, if any. -/
def cycleWith (g : Graph) (result : String) (references : List String) : Option (List String) :=
  (g.setReferences result references).loopAt result

/-- The graph with the references of several formulas, one after the other. -/
def setAll (g : Graph) (formulas : List (String × List String)) : Graph :=
  formulas.foldl (fun g f => g.setReferences f.1 f.2) g

/-- The cycle that several formulas together would close, if any. -/
def cycleWithAll (g : Graph) (formulas : List (String × List String)) :
    Option (List String) :=
  let changed := g.setAll formulas
  formulas.findSome? fun f => changed.loopAt f.1

end Graph

end Parametric
