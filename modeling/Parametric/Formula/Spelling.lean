import Parametric.Formula.Expr

/-!
Uniform spelling of the names in a formula.
-/

namespace Parametric.Formula

/-- The keys of names with their spellings. -/
abbrev Spellings := List (String × String)

def Spellings.ofNames (spelling? : String → Option String) (names : List String) : Spellings :=
  names.filterMap fun name => (spelling? name).map (keyOf name, ·)

/-- A name in its spelling, if it has one. -/
def Spellings.apply (spellings : Spellings) (name : String) : String :=
  (spellings.lookup (keyOf name)).getD name

/-- An expression with its names in their spellings. -/
def Expr.respelled {ν : Type} (spellings : Spellings) (e : Expr ν) : Expr ν :=
  e.mapNames spellings.apply

end Parametric.Formula
