import Parametric.Text.Blank

/-!
Assignments: a name, an equals sign and an expression.
-/

namespace Parametric.Formula

/-- The name of a result and the text of the expression that computes it. -/
structure Assignment where
  result : String
  expression : String
deriving DecidableEq, Repr, Inhabited

namespace Assignment

/-- What surrounds a character: whether it is in a text literal or in a bracketed name. -/
structure Surroundings where
  inText : Bool := false
  inBrackets : Bool := false

/-- The surroundings after one more character. -/
def Surroundings.step (s : Surroundings) (c : Char) : Surroundings :=
  if c == '"' && !s.inBrackets then { s with inText := !s.inText }
  else if c == '[' && !s.inText then { s with inBrackets := true }
  else if c == ']' && !s.inText then { s with inBrackets := false }
  else s

/-- Whether an equals sign between two characters is part of a comparison. -/
def isCompared (before after : Option Char) : Bool :=
  before.any (fun c => c == '<' || c == '>' || c == '!' || c == '=') || after == some '='

/-- The texts around the first equals sign that stands outside of literals, names and comparisons;
`done` is the text before `rest`, backwards. -/
def splitFrom (s : Surroundings) (done rest : List Char) : Option (List Char × List Char) :=
  match rest with
  | [] => none
  | c :: rest =>
    if c == '=' && !s.inText && !s.inBrackets && !isCompared done.head? rest.head? then
      some (done.reverse, rest)
    else splitFrom (s.step c) (c :: done) rest

/-- The name that the left side of an assignment spells, with or without brackets. -/
def leftName? (left : List Char) : Option String :=
  match Text.stripBy Text.isBlank left with
  | '[' :: rest =>
    let inner := rest.takeWhile (· != ']')
    if inner.isEmpty || rest.drop inner.length != [']'] then none
    else some (Text.trim (.ofList inner))
  | c :: rest =>
    if (c.isAlpha || c == '_') && rest.all fun d => d.isAlphanum || d == '_' || d == ' ' then
      some (.ofList (c :: rest))
    else none
  | [] => none

def parse? (text : String) : Option Assignment := do
  let (left, right) ← splitFrom {} [] text.toList
  return ⟨← leftName? left, Text.trim (.ofList right)⟩

end Assignment

end Parametric.Formula
