import Parametric.Name.Key
import Parametric.SortedMap

/-!
The dependency graph of formulas: an edge leads from the result of a formula to each name that the
formula references.
-/

namespace Parametric

/-- A node with its number, which never changes, and its name. -/
structure Node where
  id : Nat
  name : String
deriving DecidableEq, Repr, Inhabited

/-- An edge from a result to a name, with the position of the reference in the formula. -/
structure Edge where
  source : Nat
  target : Nat
  position : Nat
deriving DecidableEq, Repr, Inhabited

/-- A dependency graph. -/
structure Graph where
  nodes : List Node := []
  /-- The node that a key stands for. -/
  index : SortedMap Nat := ∅
  /-- The keys of names that are results of formulas. -/
  results : SortedMap Unit := ∅
  /-- The edges, the newest first. -/
  edges : List Edge := []
  /-- The number of the next new node. -/
  nextId : Nat := 0
deriving DecidableEq, Repr, Inhabited

/-- Texts in ascending order. -/
def ascending (texts : List String) : List String := texts.mergeSort fun a b => a ≤ b

namespace Graph

def nameOf? (g : Graph) (id : Nat) : Option String := (g.nodes.find? (·.id == id)).map (·.name)

def labels (g : Graph) (ids : List Nat) : List String := ids.filterMap g.nameOf?

def node? (g : Graph) (name : String) : Option Nat := g.index.get? (keyOf name)

def contains (g : Graph) (name : String) : Bool := (g.node? name).isSome

def computes (g : Graph) (name : String) : Bool := g.results.contains (keyOf name)

def numNodes (g : Graph) : Nat := g.nodes.length

def numEdges (g : Graph) : Nat := g.edges.length

def edgesFrom (g : Graph) (id : Nat) : List Edge := g.edges.filter (·.source == id)

def edgesTo (g : Graph) (id : Nat) : List Edge := g.edges.filter (·.target == id)

/-- The nodes that a node references, each once, in the order of the references. -/
def successors (g : Graph) (id : Nat) : List Nat :=
  (((g.edgesFrom id).mergeSort fun a b => a.position ≤ b.position).map (·.target)).eraseDups

/-- The names of all results of formulas, in ascending order. -/
def resultNames (g : Graph) : List String :=
  ascending ((g.results.keys.filterMap g.index.get?).filterMap g.nameOf?)

/-- The names that a formula references, in the order of the references. -/
def needs (g : Graph) (name : String) : List String :=
  match g.node? name with
  | some id => g.labels (g.successors id)
  | none => []

/-- The results of the formulas that reference a name, in ascending order. -/
def users (g : Graph) (name : String) : List String :=
  match g.node? name with
  | some id => ascending (g.labels ((g.edgesTo id).map (·.source))).eraseDups
  | none => []

/-! ## Changes -/

/-- The node of a name, and the graph with that node. -/
def withNode (g : Graph) (name : String) : Nat × Graph :=
  match g.node? name with
  | some id => (id, g)
  | none =>
    (g.nextId, { g with
      nodes := ⟨g.nextId, Text.trim name⟩ :: g.nodes
      index := g.index.insert (keyOf name) g.nextId
      nextId := g.nextId + 1 })

/-- The graph without the edges that leave a node. -/
def clearFrom (g : Graph) (id : Nat) : Graph :=
  { g with edges := g.edges.filter (·.source != id) }

/-- The graph with edges from a node to names, whose positions count from `position`. -/
def addEdges (g : Graph) (source position : Nat) : List String → Graph
  | [] => g
  | name :: rest =>
    let (target, g) := g.withNode name
    { g with edges := ⟨source, target, position⟩ :: g.edges }.addEdges source (position + 1) rest

/-- The graph with the references of a formula, in place of any earlier ones. -/
def setReferences (g : Graph) (result : String) (references : List String) : Graph :=
  let (id, g) := g.withNode result
  let g := (g.clearFrom id).addEdges id 0 references
  { g with results := g.results.insert (keyOf result) () }

def ofFormulas (formulas : List (String × List String)) : Graph :=
  formulas.foldl (fun g f => g.setReferences f.1 f.2) {}

/-- The graph without a node that neither has edges nor is the result of a formula. -/
def prune (g : Graph) (id : Nat) : Graph :=
  match g.nameOf? id with
  | none => g
  | some name =>
    if !(g.edgesTo id).isEmpty || !(g.edgesFrom id).isEmpty || g.computes name then g
    else { g with
      nodes := g.nodes.filter (·.id != id)
      index := g.index.erase (keyOf name) }

/-- The graph without the formula of a result, and without the nodes that this leaves alone. -/
def dropFormula (g : Graph) (result : String) : Graph :=
  match g.node? result with
  | none => g
  | some id =>
    let targets := g.successors id
    let g := g.clearFrom id
    let g := { g with results := g.results.erase (keyOf result) }
    targets.foldl prune (g.prune id)

/-- The graph with the node of a name under another name. -/
def rename (g : Graph) (old new : String) : Graph :=
  match g.node? old with
  | none => g
  | some id =>
    let results := if g.results.contains (keyOf old) then
        (g.results.erase (keyOf old)).insert (keyOf new) ()
      else g.results
    { g with
      nodes := g.nodes.map fun node => if node.id == id then ⟨id, new⟩ else node
      index := (g.index.erase (keyOf old)).insert (keyOf new) id
      results := results }

end Graph

end Parametric
