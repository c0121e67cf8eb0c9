import Parametric.Formula.Expr
import Parametric.Formula.Lexer

/-!
Parsing of formulas by precedence: comparisons, sums, products, negation and powers, from the
loosest to the tightest.
-/

namespace Parametric.Formula

abbrev Term := Expr Float

/-- The deepest nesting of open parts and of operators in one chain. -/
def nestingLimit : Nat := 256

def peek : List Token → Token
  | [] => ⟨.eof, 0⟩
  | token :: _ => token

def errorAt {α : Type} (cause : SyntaxCause) (tokens : List Token) : Except SyntaxError α :=
  .error ⟨cause, (peek tokens).position⟩

/-- Takes the parenthesis that closes the one at `opened`. -/
def closing (opened : Nat) (tokens : List Token) : Except SyntaxError (List Token) :=
  match (peek tokens).kind with
  | .rightParen => .ok tokens.tail
  | .eof => .error ⟨.neverClosed, opened⟩
  | found => errorAt (.expectedClose found) tokens

/-- Reads a term from the start of a list of tokens, and gives the tokens after it. -/
abbrev TermReader := List Token → Except SyntaxError (Term × List Token)

/-- Arguments up to the closing parenthesis, at most `bound` of them. -/
def arguments (item : TermReader) (opened : Nat) :
    Nat → List Token → Except SyntaxError (List Term × List Token)
  | 0, tokens => errorAt .nestedTooDeeply tokens
  | bound + 1, tokens => do
    let (arg, tokens) ← item tokens
    match (peek tokens).kind with
    | .comma =>
      let (args, tokens) ← arguments item opened bound tokens.tail
      return (arg :: args, tokens)
    | _ =>
      let tokens ← closing opened tokens
      return ([arg], tokens)

/-- The call of `name`, which stands at `position`; the tokens start at the parenthesis. -/
def functionCall (item : TermReader) (name : String) (position : Nat) (tokens : List Token) :
    Except SyntaxError (Term × List Token) := do
  let some function := Function.named? name | .error ⟨.unknownFunction name, position⟩
  let opened := (peek tokens).position
  let (args, tokens) ←
    match (peek tokens.tail).kind with
    | .rightParen => pure ([], tokens.tail.tail)
    | _ => arguments item opened tokens.length tokens.tail
  if function.accepts args.length then return (.call function args, tokens)
  else .error ⟨.wrongArgumentCount function args.length, position⟩

/-- A name that is not followed by a parenthesis: a constant or a reference. -/
def constantOrReference (name : String) : Term :=
  if Text.sameAscii name "true" then .boolean true
  else if Text.sameAscii name "false" then .boolean false
  else if Text.sameAscii name "pi" then .call .pi []
  else .reference name

/-- An operand; `item` parses what stands inside it, from a least precedence upwards. -/
def operand (item : Nat → TermReader) (tokens : List Token) :
    Except SyntaxError (Term × List Token) := do
  let ⟨kind, position⟩ := peek tokens
  let rest := tokens.tail
  match kind with
  | .number value => return (.number value, rest)
  | .text value => return (.text value, rest)
  | .bracketed name => return (.reference name, rest)
  | .minus =>
    let (inner, rest) ← item negationPrecedence rest
    return (.negate inner, rest)
  -- a sign that does nothing leaves no trace
  | .plus => item negationPrecedence rest
  | .leftParen =>
    let (inner, rest) ← item 0 rest
    let rest ← closing position rest
    return (.group inner, rest)
  | .ident name =>
    match (peek rest).kind with
    | .leftParen => functionCall (item 0) name position rest
    | _ => return (constantOrReference name, rest)
  | .rightParen => .error ⟨.unexpectedClose, position⟩
  | .eof => .error ⟨.unexpectedEnd, position⟩
  | other => .error ⟨.unexpectedToken other, position⟩

mutual
/-- An expression whose operators bind at least as tightly as `least`, nested at most as deep
as the first argument allows. -/
def expression : Nat → Nat → List Token → Except SyntaxError (Term × List Token)
  | 0, _, tokens => errorAt .nestedTooDeeply tokens
  | depth + 1, least, tokens =>
    match operand (expression depth) tokens with
    | .error e => .error e
    | .ok (lhs, rest) => operators depth least lhs rest

/-- The operators and operands that follow `lhs`; each operator counts as one level. -/
def operators : Nat → Nat → Term → List Token → Except SyntaxError (Term × List Token)
  | depth, least, lhs, tokens =>
    match (peek tokens).kind.operator? with
    | none => .ok (lhs, tokens)
    | some op =>
      if op.precedence < least then .ok (lhs, tokens)
      else
        match depth with
        | 0 => errorAt .nestedTooDeeply tokens.tail
        | depth + 1 =>
          -- an operator of the same precedence is left to the loop, unless the right part takes it
          let next := if op.groupsRight then op.precedence else op.precedence + 1
          match expression depth next tokens.tail with
          | .error e => .error e
          | .ok (rhs, rest) => operators depth least (.binary op lhs rhs) rest
end

def parseTokens (tokens : List Token) : Except SyntaxError Term := do
  if let .eof := (peek tokens).kind then errorAt .emptyExpression tokens
  let (e, rest) ← expression nestingLimit 0 tokens
  match (peek rest).kind with
  | .eof => return e
  | .rightParen => errorAt .unexpectedClose rest
  | other => errorAt (.unexpectedToken other) rest

def parse (source : String) : Except SyntaxError Term := do
  parseTokens (← tokenize source)

end Parametric.Formula
