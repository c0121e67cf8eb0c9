import Parametric.Formula.Operator
import Parametric.Name.Key

/-!
Formula expressions over literals of a type `ν`, and what can be read off or replaced in them.
-/

namespace Parametric.Formula

inductive Expr (ν : Type) where
  | number (value : ν)
  | text (value : String)
  | boolean (value : Bool)
  /-- A parameter or the result of another formula. -/
  | reference (name : String)
  | negate (operand : Expr ν)
  | binary (op : BinaryOperator) (lhs rhs : Expr ν)
  | call (function : Function) (args : List (Expr ν))
  /-- Parentheses that stood in the source. -/
  | group (inner : Expr ν)
deriving Repr, Inhabited, BEq

namespace Expr

variable {ν : Type}

mutual
/-- The referenced names from left to right, repetitions included. -/
def names : Expr ν → List String
  | .number _ | .text _ | .boolean _ => []
  | .reference name => [name]
  | .negate operand => operand.names
  | .binary _ lhs rhs => lhs.names ++ rhs.names
  | .call _ args => namesAll args
  | .group inner => inner.names

def namesAll : List (Expr ν) → List String
  | [] => []
  | e :: rest => e.names ++ namesAll rest
end

/-- The referenced names, each once in the spelling that comes first. -/
def references (e : Expr ν) : List String := distinctNames e.names

mutual
def mapNames (f : String → String) : Expr ν → Expr ν
  | .number value => .number value
  | .text value => .text value
  | .boolean value => .boolean value
  | .reference name => .reference (f name)
  | .negate operand => .negate (operand.mapNames f)
  | .binary op lhs rhs => .binary op (lhs.mapNames f) (rhs.mapNames f)
  | .call function args => .call function (mapNamesAll f args)
  | .group inner => .group (inner.mapNames f)

def mapNamesAll (f : String → String) : List (Expr ν) → List (Expr ν)
  | [] => []
  | e :: rest => e.mapNames f :: mapNamesAll f rest
end

mutual
/-- All parts of an expression, the whole before its operands. -/
def parts : Expr ν → List (Expr ν)
  | .number value => [.number value]
  | .text value => [.text value]
  | .boolean value => [.boolean value]
  | .reference name => [.reference name]
  | .negate operand => .negate operand :: operand.parts
  | .binary op lhs rhs => .binary op lhs rhs :: (lhs.parts ++ rhs.parts)
  | .call function args => .call function args :: partsAll args
  | .group inner => .group inner :: inner.parts

def partsAll : List (Expr ν) → List (Expr ν)
  | [] => []
  | e :: rest => e.parts ++ partsAll rest
end

/-- The number of conditionals along the chain of final branches. -/
def branchDepth : Expr ν → Nat
  | .call .cond (_ :: _ :: otherwise :: _) => 1 + otherwise.branchDepth
  | .call .cond _ => 1
  | .group inner => inner.branchDepth
  | _ => 0

/-- An expression without the parentheses around the whole of it. -/
def ungrouped : Expr ν → Expr ν
  | .group inner => inner.ungrouped
  | e => e

end Expr

end Parametric.Formula
