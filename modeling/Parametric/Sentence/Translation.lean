import Parametric.Formula.Assignment
import Parametric.Formula.Printer
import Parametric.Name.Convention
import Parametric.Sentence.Phrase
import Parametric.Sentence.Separator

/-!
Translation of sentences into formula text.
-/

namespace Parametric.Sentence

structure Draft where
  /-- The finished pieces, backwards. -/
  pieces : List String := []
  /-- The words of the name that is being read, backwards. -/
  words : List String := []
  /-- The functions whose operand has not ended. -/
  unclosed : Nat := 0
  /-- For every open conditional, from the innermost out, the number of its branches. -/
  conditionals : List Nat := []
deriving DecidableEq, Repr, Inhabited

def wordsText (c : Convention) (words : List String) : String :=
  let joined := " ".intercalate words
  let lowered := Text.lowerAscii joined
  if lowered == "pi" || lowered == "true" || lowered == "false" then lowered
  else Formula.nameText (c.normalize joined)

namespace Draft

def push (d : Draft) (piece : String) : Draft := { d with pieces := piece :: d.pieces }

/-- A draft with closing parentheses at the end of its last piece. -/
def close (d : Draft) (count : Nat) : Draft :=
  match d.pieces with
  | [] => d
  | last :: rest => { d with pieces := (last ++ .ofList (List.replicate count ')')) :: rest }

def endName (c : Convention) (d : Draft) : Draft :=
  let words := d.words.reverse.filter fun word => !isArticle word
  let d := { d with words := [] }
  if words.isEmpty then d else d.push (wordsText c words)

/-- A draft in which the operands of all open functions have ended. -/
def endOperand (c : Convention) (d : Draft) : Draft :=
  { (d.endName c).close d.unclosed with unclosed := 0 }

def phrase (c : Convention) (d : Draft) : Phrase → Except Cause Draft
  | .operator symbol => .ok ((d.endOperand c).push symbol)
  | .power exponent => .ok ((d.endName c).push exponent)
  | .function name =>
    .ok { (d.endName c).push (name ++ "(") with unclosed := d.unclosed + 1 }
  | .condition => .ok { (d.endOperand c).push "if(" with conditionals := 0 :: d.conditionals }
  | .branch =>
    match d.conditionals with
    | [] => .error .branchOutside
    | seen :: outer =>
      if seen ≥ 2 then .error .tooManyBranches
      else .ok { (d.endOperand c).push "," with conditionals := (seen + 1) :: outer }

/-- A draft after a token that starts no phrase. -/
def token (c : Convention) (d : Draft) : Token → Draft
  | .word text => { d with words := text :: d.words }
  | .number text => (d.endName c).push text
  | .symbol "(" => (d.endName c).push "("
  | .symbol text => (d.endOperand c).push text

def read (c : Convention) (d : Draft) (tokens : List Token) : Except Cause Draft :=
  match tokens with
  | [] => .ok d
  | token :: rest =>
    match phraseAt? (token :: rest) with
    | some (phrase, length) => do
      let d ← d.phrase c phrase
      d.read c (rest.drop (length - 1))
    | none => (d.token c token).read c rest
termination_by tokens.length
decreasing_by
  · simp only [List.length_cons, List.length_drop]; omega
  · simp

end Draft

/-- Pieces in one text: blanks stand between them except after an opening parenthesis and before a
comma or a closing parenthesis. -/
def joinPieces : List String → String
  | [] => ""
  | [piece] => piece
  | piece :: next :: rest =>
    let glued := piece.toList.getLast? == some '(' || next == "," || next == ")"
    piece ++ (if glued then "" else " ") ++ joinPieces (next :: rest)

/-- The formula text of a draft; every conditional has to have two branches. -/
def Draft.finish (c : Convention) (d : Draft) : Except Cause String :=
  if d.conditionals.any (· != 2) then .error .missingBranch
  else .ok (joinPieces ((d.endOperand c).close d.conditionals.length).pieces.reverse)

def expressionText (c : Convention) (text : String) : Except Cause String := do
  let tokens := tokens text.toList
  if tokens.isEmpty then throw .emptyExpression
  (← Draft.read c {} tokens).finish c

def toAssignment (c : Convention) (sentence : String) : Except Cause Formula.Assignment := do
  let (left, right) ← split sentence
  let words := (Text.words left).filter fun word => !isArticle word
  let result := c.normalize (" ".intercalate words)
  if result == "" then throw (.noResult (Text.trim sentence))
  return ⟨result, ← expressionText c right⟩

end Parametric.Sentence
