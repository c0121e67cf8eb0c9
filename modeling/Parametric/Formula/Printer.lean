import Parametric.Formula.Numeral

/-!
Writing formulas with no more parentheses than their grouping needs.
-/

namespace Parametric.Formula

inductive LetterCase where
  | lower | upper
deriving DecidableEq, Repr, Inhabited

/-- How formulas are written. -/
structure Style where
  functionCase : LetterCase := .lower
  /-- Whether operators and commas are set off by spaces. -/
  spaced : Bool := true
deriving DecidableEq, Repr, Inhabited

/-- Whether a name can stand without brackets. -/
def isPlainName (name : String) : Bool :=
  match name.toList with
  | [] => false
  | c :: rest =>
    (c.isAlpha || c == '_') && rest.all (fun d => d.isAlphanum || d == '_') &&
      ["true", "false", "pi"].all (!Text.sameAscii name ·)

/-- A name as it is written in a formula, in brackets unless it is plain. -/
def nameText (name : String) : String :=
  if isPlainName name then name else "[" ++ name ++ "]"

def Style.function (style : Style) (f : Function) : String :=
  match style.functionCase with
  | .lower => f.name
  | .upper => Text.upperAscii f.name

def Style.operator (style : Style) (op : BinaryOperator) : String :=
  if style.spaced then " " ++ op.symbol ++ " " else op.symbol

def Style.separator (style : Style) : String := if style.spaced then ", " else ","

namespace Expr

variable {ν : Type} [Numeral ν]

/-- How tightly the outermost operation of an expression binds; `none` for what needs no
parentheses anywhere. -/
def precedence? : Expr ν → Option Nat
  | .group inner => inner.precedence?
  | .binary op _ _ => some op.precedence
  | .negate _ => some negationPrecedence
  | .number value => if Numeral.isNegative value then some negationPrecedence else none
  | _ => none

/-- Whether an expression binds less tightly than `level`. -/
def isLooserThan (e : Expr ν) (level : Nat) : Bool := e.precedence?.any (· < level)

/-- Whether the right operand of a left-associative operator may share its chain. -/
def continuesChain (op : BinaryOperator) (rhs : Expr ν) : Bool :=
  match op, rhs.ungrouped with
  | .add, .binary .add _ _ => true
  | .mul, .binary .mul _ _ => true
  | _, _ => false

/-- Whether the left operand of `op` needs parentheses. -/
def needsParensLeft (op : BinaryOperator) (lhs : Expr ν) : Bool :=
  if op.groupsRight then lhs.isLooserThan (op.precedence + 1)
  else lhs.isLooserThan op.precedence

/-- Whether the right operand of `op` needs parentheses. -/
def needsParensRight (op : BinaryOperator) (rhs : Expr ν) : Bool :=
  if op.groupsRight then rhs.isLooserThan op.precedence
  else rhs.isLooserThan (op.precedence + 1) &&
    (rhs.isLooserThan op.precedence || !continuesChain op rhs)

/-- Text in parentheses where they are needed. -/
def parenthesized (needed : Bool) (text : String) : String :=
  if needed then "(" ++ text ++ ")" else text

mutual
def render (style : Style) : Expr ν → String
  | .number value => Numeral.text value
  | .text value => "\"" ++ value ++ "\""
  | .boolean value => if value then "true" else "false"
  | .reference name => nameText name
  | .group inner => inner.render style
  | .negate operand =>
    "-" ++ parenthesized (operand.isLooserThan negationPrecedence) (operand.render style)
  | .binary op lhs rhs =>
    parenthesized (needsParensLeft op lhs) (lhs.render style) ++ style.operator op ++
      parenthesized (needsParensRight op rhs) (rhs.render style)
  | .call function args =>
    style.function function ++ "(" ++ renderArgs style args ++ ")"

def renderArgs (style : Style) : List (Expr ν) → String
  | [] => ""
  | [arg] => arg.render style
  | arg :: rest => arg.render style ++ style.separator ++ renderArgs style rest
end

end Expr

end Parametric.Formula
