import Parametric.Formula.Printer

/-!
Simplification in one pass from the leaves up: parentheses are dropped, operations on literals
are folded, and operations that change nothing are removed.
-/

namespace Parametric.Formula

namespace Expr

variable {ν : Type} [Arithmetic ν]

open Arithmetic

def evalBinary (op : BinaryOperator) (a b : ν) : Option (Expr ν) :=
  match op with
  | .add => (add a b).map .number
  | .sub => (sub a b).map .number
  | .mul => (mul a b).map .number
  | .div => (div a b).map .number
  | .rem => (rem a b).map .number
  | .pow => (pow a b).map .number
  | .eq => some (.boolean (eq a b))
  | .ne => some (.boolean (!eq a b))
  | .lt => some (.boolean (lt a b))
  | .gt => some (.boolean (lt b a))
  | .le => some (.boolean (le a b))
  | .ge => some (.boolean (le b a))

def number? : Expr ν → Option ν
  | .number value => some value
  | _ => none

def boolean? : Expr ν → Option Bool
  | .boolean value => some value
  | _ => none

def isZero (e : Expr ν) : Bool := e.number?.any Arithmetic.isZero

def isOne (e : Expr ν) : Bool := e.number?.any Arithmetic.isOne

/-- The literal that a function of literals gives; `pi` and conditionals stay as they are. -/
def evalCall (function : Function) (args : List (Expr ν)) : Option (Expr ν) :=
  match function with
  | .pi | .cond => none
  | .not =>
    match args with
    | [.boolean b] => some (.boolean (!b))
    | _ => none
  | .and => (args.mapM boolean?).map fun values => .boolean (values.all id)
  | .or => (args.mapM boolean?).map fun values => .boolean (values.any id)
  | _ => (args.mapM number?).bind fun values => (apply function values).map .number

/-- The operand that is left when the other one is a unit of the operator. -/
def withoutUnit (op : BinaryOperator) (lhs rhs : Expr ν) : Option (Expr ν) :=
  match op with
  | .mul => if rhs.isOne then some lhs else if lhs.isOne then some rhs else none
  | .add => if rhs.isZero then some lhs else if lhs.isZero then some rhs else none
  | .sub => if rhs.isZero then some lhs else none
  | .div | .pow => if rhs.isOne then some lhs else none
  | _ => none

/-- The negation of a simplified operand, with the number of rewrites. -/
def simplifyNegate : Expr ν → Expr ν × Nat
  | .number value => (.number (Arithmetic.negate value), 1)
  | e => (.negate e, 0)

def simplifyBinary (op : BinaryOperator) (lhs rhs : Expr ν) : Expr ν × Nat :=
  let folded := match lhs, rhs with
    | .number a, .number b => evalBinary op a b
    | _, _ => none
  match folded with
  | some e => (e, 1)
  | none =>
    match withoutUnit op lhs rhs with
    | some e => (e, 1)
    | none => (.binary op lhs rhs, 0)

def simplifyCall (function : Function) (args : List (Expr ν)) : Expr ν × Nat :=
  match function, args with
  | .cond, [.boolean true, value, _] => (value, 1)
  | .cond, [.boolean false, _, value] => (value, 1)
  | _, _ =>
    match evalCall function args with
    | some e => (e, 1)
    | none => (.call function args, 0)

mutual
def simplify : Expr ν → Expr ν × Nat
  | .group inner =>
    let (e, n) := inner.simplify
    (e, n + 1)
  | .negate operand =>
    let (e, n) := operand.simplify
    let (e, m) := simplifyNegate e
    (e, n + m)
  | .binary op lhs rhs =>
    let (l, n) := lhs.simplify
    let (r, m) := rhs.simplify
    let (e, k) := simplifyBinary op l r
    (e, n + m + k)
  | .call function args =>
    let (args, n) := simplifyAll args
    let (e, m) := simplifyCall function args
    (e, n + m)
  | e => (e, 0)

def simplifyAll : List (Expr ν) → List (Expr ν) × Nat
  | [] => ([], 0)
  | e :: rest =>
    let (e, n) := e.simplify
    let (rest, m) := simplifyAll rest
    (e :: rest, n + m)
end

/-- The texts of all binary operations and calls inside an expression. -/
def compoundTexts (e : Expr ν) : List String :=
  e.parts.filterMap fun part =>
    match part with
    | .binary _ _ _ | .call _ _ => some (part.render {})
    | _ => none

/-- Warnings about operations and calls that occur more than once, by their texts. -/
def repetitionWarnings (e : Expr ν) : List String :=
  let texts := e.compoundTexts
  ((texts.eraseDups.mergeSort fun a b => a ≤ b).filter fun text => texts.count text > 1).map
    fun text => s!"sub-expression '{text}' is computed " ++ toString (texts.count text) ++ " times"

end Expr

/-- A simplified expression and what was noticed about it. -/
structure Simplified (ν : Type) where
  expr : Expr ν
  rewrites : Nat
  warnings : List String

/-- Simplifies an expression and looks for repeated parts of the result. -/
def optimize {ν : Type} [Arithmetic ν] (e : Expr ν) : Simplified ν :=
  let (simple, rewrites) := e.simplify
  ⟨simple, rewrites, simple.repetitionWarnings⟩

end Parametric.Formula
