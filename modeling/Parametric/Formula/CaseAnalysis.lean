import Parametric.Formula.Parser

/-!
Formulas that choose between values: chains of conditions, and tables of keys. Each part is
parsed on its own, so that an error names the part it is in.
-/

namespace Parametric.Formula

structure CaseArm where
  condition : String
  value : String
deriving DecidableEq, Repr

def parseWithin (part source : String) : Except SyntaxError Term :=
  (parse source).mapError fun e => { e with cause := .within part e.cause }

/-- Conditions and values before a last value, as nested conditionals. -/
def conditionalChain (arms : List (Term × Term)) (otherwise : Term) : Term :=
  arms.foldr (fun (condition, value) rest => .call .cond [condition, value, rest]) otherwise

/-- Parses pairs of texts; `number` counts them from one in the names of the parts. -/
def parsePairs (noun first second : String) (number : Nat) :
    List (String × String) → Except SyntaxError (List (Term × Term))
  | [] => return []
  | (a, b) :: rest => do
    let e ← parseWithin s!"{noun} {number} {first}" a
    let f ← parseWithin s!"{noun} {number} {second}" b
    return (e, f) :: (← parsePairs noun first second (number + 1) rest)

/-- The value of the first branch whose condition holds, or else the default. -/
def conditional (branches : List CaseArm) (otherwise : String) : Except SyntaxError Term := do
  let arms ← parsePairs "branch" "condition" "value" 1
    (branches.map fun b => (b.condition, b.value))
  return conditionalChain arms (← parseWithin "default value" otherwise)

/-- The value of the first row whose key equals the given key, or else the default. -/
def lookup (key : String) (table : List (String × String)) (otherwise : String) :
    Except SyntaxError Term := do
  let subject ← parseWithin "lookup key" key
  let rows ← parsePairs "row" "key" "value" 1 table
  let otherwise ← parseWithin "default value" otherwise
  return conditionalChain (rows.map fun (k, v) => (.binary .eq subject k, v)) otherwise

end Parametric.Formula
