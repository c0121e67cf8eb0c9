import Parametric.Definition.Kind
import Parametric.Formula.Numeral

/-!
Dimensions of formulas, inferred from the kinds of the names in them. Disagreements are warnings
and make the dimension unknown.
-/

namespace Parametric.Formula

/-- A power of a length, where its exponent fits into eight bits. -/
def lengthPower (power : Int) : Dimension :=
  if power < -128 || power > 127 then .unknown
  else if power = 0 then .dimensionless
  else .length power

/-- The dimension of a sum or of two alternatives, if they have one in common. -/
def commonDimension : Dimension → Dimension → Option Dimension
  | a, b =>
    if a = b then some a
    else match a, b with
      | .unknown, _ | _, .unknown => some .unknown
      -- plain numbers go with everything
      | .dimensionless, other | other, .dimensionless => some other
      | _, _ => none

def productDimension : Dimension → Dimension → Dimension
  | .length a, .length b => lengthPower (a + b)
  | .dimensionless, other | other, .dimensionless => other
  | _, _ => .unknown

def quotientDimension : Dimension → Dimension → Dimension
  | .length a, .length b => lengthPower (a - b)
  | other, .dimensionless => other
  | .dimensionless, .length b => lengthPower (-b)
  | a, b => if a = b && a.isDefinite then .dimensionless else .unknown

/-- The integer that a literal exponent stands for, if it is one below 16 in magnitude. -/
def literalExponent? : Expr Float → Option Int
  | .number value => if isIntegral value && value.abs < 16.0 then some (truncated value) else none
  | _ => none

/-- The dimension of a power; the exponent matters for lengths. -/
def powerDimension (base : Dimension) (exponent : Expr Float) : Dimension :=
  match base, literalExponent? exponent with
  | .length power, some n => lengthPower (power * n)
  | .dimensionless, _ => .dimensionless
  | _, _ => .unknown

def rootDimension : Dimension → Dimension
  | .length power => if power % 2 = 0 then lengthPower (power / 2) else .unknown
  | .dimensionless => .dimensionless
  | _ => .unknown

/-- The dimension of a binary operation, with the warnings about its operands. -/
def binaryDimension (op : BinaryOperator) (left right : Dimension) (rhs : Expr Float) :
    Dimension × List String :=
  match op with
  | .add | .sub =>
    match commonDimension left right with
    | some d => (d, [])
    | none => (.unknown, ["adding " ++ left.describe ++ " and " ++ right.describe])
  | .mul => (productDimension left right, [])
  | .div => (quotientDimension left right, [])
  | .rem => (left, [])
  | .pow => (powerDimension left rhs, [])
  | .eq | .ne | .lt | .gt | .le | .ge => (.boolean, [])

/-- The dimension of a call, with the warnings about its arguments. -/
def callDimension (function : Function) (args : List Dimension) : Dimension × List String :=
  let first := args.head?.getD .unknown
  match function with
  | .sqrt => (rootDimension first, [])
  | .abs | .round => (first, [])
  | .cond =>
    let yes := args[1]?.getD .unknown
    let no := args[2]?.getD .unknown
    match commonDimension yes no with
    | some d => (d, [])
    | none => (.unknown, ["if branches yield " ++ yes.describe ++ " and " ++ no.describe])
  | .and | .or | .not => (.boolean, [])
  | .asin | .acos | .atan => (.angle, [])
  | .sin | .cos | .tan | .log | .ln | .exp | .pi => (.dimensionless, [])

mutual
/-- The dimension of an expression under the kinds of names, with all warnings in order. -/
def inferDimension (kindOf : String → Option ValueKind) : Expr Float → Dimension × List String
  | .number _ => (.dimensionless, [])
  | .text _ => (.text, [])
  | .boolean _ => (.boolean, [])
  | .reference name => (((kindOf name).map (·.dimension)).getD .unknown, [])
  | .group inner => inferDimension kindOf inner
  | .negate operand => inferDimension kindOf operand
  | .binary op lhs rhs =>
    let (left, warnings) := inferDimension kindOf lhs
    let (right, more) := inferDimension kindOf rhs
    let (d, last) := binaryDimension op left right rhs
    (d, warnings ++ more ++ last)
  | .call function args =>
    let (dimensions, warnings) := inferDimensions kindOf args
    let (d, last) := callDimension function dimensions
    (d, warnings ++ last)

/-- The dimensions of a list of expressions, with all warnings in order. -/
def inferDimensions (kindOf : String → Option ValueKind) :
    List (Expr Float) → List Dimension × List String
  | [] => ([], [])
  | e :: rest =>
    let (d, warnings) := inferDimension kindOf e
    let (ds, more) := inferDimensions kindOf rest
    (d :: ds, warnings ++ more)
end

structure Inference where
  dimension : Dimension
  warnings : List String
deriving DecidableEq, Repr

def infer (kindOf : String → Option ValueKind) (e : Expr Float) : Inference :=
  let (dimension, warnings) := inferDimension kindOf e
  ⟨dimension, warnings⟩

/-- The warning about a formula whose dimension is not that of the declared kind. -/
def kindWarning? (result : String) (inferred : Dimension) (expected : Option ValueKind) :
    Option String := do
  let kind ← expected
  if !inferred.isDefinite || !kind.dimension.isDefinite || inferred = kind.dimension then none
  else some (s!"'{result}' is declared as " ++ kind.name ++ " but the formula yields " ++
    inferred.describe)

end Parametric.Formula
