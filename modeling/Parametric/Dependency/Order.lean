import Parametric.Dependency.Graph

/-!
The order in which formulas can be evaluated, and a drawing of the graph.
-/

namespace Parametric.Graph

/-- What a walk has done so far: the keys that are finished, and the order, backwards. -/
structure Progress where
  done : List String := []
  order : List String := []

def Progress.finish (p : Progress) (name : String) : Progress :=
  ⟨keyOf name :: p.done, name :: p.order⟩

/-- Walks the nodes of a stack; a node is finished when it comes up again after all it references.
The nodes in `opened` have been met before. -/
def walk (g : Graph) : Nat → Progress → List Nat → List (Nat × Bool) → Progress
  | 0, p, _, _ => p
  | _ + 1, p, _, [] => p
  | steps + 1, p, opened, (id, expanded) :: stack =>
    match g.nameOf? id with
    | none => g.walk steps p opened stack
    | some name =>
      if p.done.contains (keyOf name) then g.walk steps p opened stack
      else if expanded then g.walk steps (p.finish name) opened stack
      -- met again before it is finished: the node is on a cycle
      else if opened.contains id then g.walk steps p opened stack
      else
        g.walk steps p (id :: opened)
          ((g.successors id).map (·, false) ++ (id, true) :: stack)

/-- Adds a name and all it depends on. -/
def orderName (g : Graph) (p : Progress) (name : String) : Progress :=
  match g.node? name with
  | some id => g.walk (2 * g.numNodes + g.numEdges + 2) p [] [(id, false)]
  | none => if p.done.contains (keyOf name) then p else p.finish name

/-- The given names and all they depend on; what a formula references comes before its result. -/
def schedule (g : Graph) (names : List String) : List String :=
  (names.foldl g.orderName {}).order.reverse

/-- The formulas among the given names that reference no other formulas. -/
def leafFormulas (g : Graph) (names : List String) : List String :=
  names.filter fun name => g.computes name && (g.needs name).all (!g.computes ·)

/-! ## Drawing -/

def escaped (name : String) : String :=
  .ofList (name.toList.flatMap fun c => if c == '\\' || c == '"' then ['\\', c] else [c])

/-- The line of a node; results of formulas stand out. -/
def dotNode (g : Graph) (name : String) : String :=
  "  \"" ++ escaped name ++ "\" [fillcolor=\"" ++
    (if g.computes name then "#FF9800" else "#9E9E9E") ++ "\"];\n"

def dotEdge (source target : String) : String :=
  "  \"" ++ escaped source ++ "\" -> \"" ++ escaped target ++ "\";\n"

/-- Pairs of texts in ascending order. -/
def ascendingPairs (pairs : List (String × String)) : List (String × String) :=
  pairs.mergeSort fun a b => a.1 < b.1 || (a.1 == b.1 && a.2 ≤ b.2)

def dot (g : Graph) : String :=
  let names := ascending (g.nodes.map (·.name))
  let edges := ascendingPairs (g.edges.filterMap fun e => do
    return (← g.nameOf? e.source, ← g.nameOf? e.target))
  "digraph FormulaGraph \x7b\n" ++
    "  rankdir=LR;\n" ++
    "  node [shape=box, style=\"filled,rounded\", fontname=\"Helvetica\", fontsize=10];\n\n" ++
    String.join (names.map g.dotNode) ++ "\n" ++
    String.join (edges.map fun (s, t) => dotEdge s t) ++ "\x7d\n"

end Parametric.Graph
