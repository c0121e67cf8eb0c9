import Parametric.Formula.Operator
import Parametric.Number.Notation
import Parametric.Text.Quoted

/-!
Tokens of formula text.
-/

namespace Parametric.Formula

/-- What a token is. -/
inductive Lexeme where
  | number (value : Float)
  | text (value : String)
  | ident (name : String)
  /-- A name in square brackets, which may hold blanks. -/
  | bracketed (name : String)
  | plus | minus | star | slash | percent | caret
  | eq | ne | lt | gt | le | ge
  | leftParen | rightParen | comma
  /-- The end of the text. -/
  | eof
deriving Repr, Inhabited

/-- A token and the number of characters before it. -/
structure Token where
  kind : Lexeme
  position : Nat
deriving Repr, Inhabited

/-- The name of a kind of token without content. -/
def Lexeme.label : Lexeme → String
  | .number _ => "Number"
  | .text _ => "Text"
  | .ident _ => "Ident"
  | .bracketed _ => "Bracketed"
  | .plus => "Plus"
  | .minus => "Minus"
  | .star => "Star"
  | .slash => "Slash"
  | .percent => "Percent"
  | .caret => "Caret"
  | .eq => "Eq"
  | .ne => "Ne"
  | .lt => "Lt"
  | .gt => "Gt"
  | .le => "Le"
  | .ge => "Ge"
  | .leftParen => "LParen"
  | .rightParen => "RParen"
  | .comma => "Comma"
  | .eof => "Eof"

/-- A token as messages show it: its name, with the content in parentheses. -/
def Lexeme.describe (kind : Lexeme) : String :=
  match kind with
  | .number value => kind.label ++ "(" ++ Number.detailed value ++ ")"
  | .text value | .ident value | .bracketed value =>
    kind.label ++ "(" ++ Text.quoted value ++ ")"
  | _ => kind.label

def Lexeme.operator? : Lexeme → Option BinaryOperator
  | .plus => some .add
  | .minus => some .sub
  | .star => some .mul
  | .slash => some .div
  | .percent => some .rem
  | .caret => some .pow
  | .eq => some .eq
  | .ne => some .ne
  | .lt => some .lt
  | .gt => some .gt
  | .le => some .le
  | .ge => some .ge
  | _ => none

end Parametric.Formula
