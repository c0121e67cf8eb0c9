import Parametric.Text.Ascii

/-!
Operators and built-in functions of formulas.
-/

namespace Parametric.Formula

inductive Function where
  | sqrt | abs | round | cond | and | or | not | sin | cos | tan | asin | acos | atan
  | log | ln | exp | pi
deriving DecidableEq, Repr, Inhabited

/-- The function that a name or an alias denotes, in any letter case. -/
def Function.named? (name : String) : Option Function :=
  match Text.lowerAscii name with
  | "sqrt" | "squareroot" => some .sqrt
  | "abs" => some .abs
  | "round" => some .round
  | "if" => some .cond
  | "and" => some .and
  | "or" => some .or
  | "not" => some .not
  | "sin" => some .sin
  | "cos" => some .cos
  | "tan" => some .tan
  | "asin" | "arcsin" => some .asin
  | "acos" | "arccos" => some .acos
  | "atan" | "arctan" => some .atan
  | "log" => some .log
  | "ln" => some .ln
  | "exp" => some .exp
  | "pi" => some .pi
  | _ => none

def Function.name : Function → String
  | .sqrt => "sqrt"
  | .abs => "abs"
  | .round => "round"
  | .cond => "if"
  | .and => "and"
  | .or => "or"
  | .not => "not"
  | .sin => "sin"
  | .cos => "cos"
  | .tan => "tan"
  | .asin => "asin"
  | .acos => "acos"
  | .atan => "atan"
  | .log => "log"
  | .ln => "ln"
  | .exp => "exp"
  | .pi => "pi"

/-- The least and, if there is one, the greatest number of arguments. -/
def Function.arity : Function → Nat × Option Nat
  | .pi => (0, some 0)
  | .round => (1, some 2)
  | .cond => (3, some 3)
  | .and | .or => (1, none)
  | _ => (1, some 1)

/-- Whether a function takes `count` arguments. -/
def Function.accepts (f : Function) (count : Nat) : Bool :=
  f.arity.1 ≤ count && f.arity.2.all (count ≤ ·)

def Function.arityText (f : Function) : String :=
  match f.arity with
  | (least, none) => s!"at least {least}"
  | (least, some most) => if most = least then toString least else s!"{least} to {most}"

inductive BinaryOperator where
  | add | sub | mul | div | rem | pow | eq | ne | lt | gt | le | ge
deriving DecidableEq, Repr, Inhabited

/-- How tightly an operator binds; comparisons are loosest. -/
def BinaryOperator.precedence : BinaryOperator → Nat
  | .eq | .ne | .lt | .gt | .le | .ge => 1
  | .add | .sub => 2
  | .mul | .div | .rem => 3
  | .pow => 5

/-- How tightly negation binds: looser than powers, tighter than products. -/
def negationPrecedence : Nat := 4

/-- Powers group to the right, all other operators to the left. -/
def BinaryOperator.groupsRight (op : BinaryOperator) : Bool := op == .pow

def BinaryOperator.compares (op : BinaryOperator) : Bool := op.precedence == 1

def BinaryOperator.symbol : BinaryOperator → String
  | .add => "+"
  | .sub => "-"
  | .mul => "*"
  | .div => "/"
  | .rem => "%"
  | .pow => "^"
  | .eq => "="
  | .ne => "<>"
  | .lt => "<"
  | .gt => ">"
  | .le => "<="
  | .ge => ">="

end Parametric.Formula
