import Parametric.Formula.Token

/-!
What can be wrong with formula text, and how it is reported.
-/

namespace Parametric.Formula

/-- The ways in which formula text can be wrong. -/
inductive SyntaxCause where
  | invalidNumber (text : String)
  | unterminatedText
  | unterminatedName
  | emptyName
  | unexpectedCharacter (c : Char)
  | emptyExpression
  | nestedTooDeeply
  | unexpectedClose
  | unexpectedToken (kind : Lexeme)
  | unexpectedEnd
  | unknownFunction (name : String)
  | wrongArgumentCount (function : Function) (count : Nat)
  | neverClosed
  | expectedClose (found : Lexeme)
  /-- An error in one part of a formula that is put together from several texts. -/
  | within (part : String) (cause : SyntaxCause)
deriving Repr, Inhabited

def SyntaxCause.message : SyntaxCause → String
  | .invalidNumber text => s!"invalid number '{text}'"
  | .unterminatedText => "unterminated text literal"
  | .unterminatedName => "unterminated bracketed name"
  | .emptyName => "empty bracketed name"
  | .unexpectedCharacter c => s!"unexpected character '{c}'"
  | .emptyExpression => "empty expression"
  | .nestedTooDeeply => "expression nested too deeply"
  | .unexpectedClose => "unbalanced parentheses: unexpected ')'"
  | .unexpectedToken kind => "unexpected token " ++ kind.describe
  | .unexpectedEnd => "unexpected end of expression"
  | .unknownFunction name => s!"unknown function '{name}'"
  | .wrongArgumentCount function count =>
    "function '" ++ function.name ++ "' takes " ++ function.arityText ++
      s!" argument(s), got {count}"
  | .neverClosed => "unbalanced parentheses: '(' is never closed"
  | .expectedClose found => "expected ')', found " ++ found.describe
  | .within part cause => part ++ ": " ++ cause.message

/-- A cause and the number of characters before the place where it shows. -/
structure SyntaxError where
  cause : SyntaxCause
  position : Nat
deriving Repr, Inhabited

end Parametric.Formula
