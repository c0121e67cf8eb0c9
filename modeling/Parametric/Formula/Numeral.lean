import Parametric.Formula.Expr
import Parametric.Number.Notation

/-!
What formulas need to know about their number literals: how they are written and how operations
on them are folded.
-/

namespace Parametric.Formula

class Numeral (ν : Type) where
  /-- Whether the literal is written with a minus sign that binds like a negation. -/
  isNegative : ν → Bool
  text : ν → String

/-- Literals that can be computed with; a result is missing where it is not a finite number. -/
class Arithmetic (ν : Type) extends Numeral ν where
  isZero : ν → Bool
  isOne : ν → Bool
  negate : ν → ν
  add : ν → ν → Option ν
  sub : ν → ν → Option ν
  mul : ν → ν → Option ν
  div : ν → ν → Option ν
  rem : ν → ν → Option ν
  pow : ν → ν → Option ν
  eq : ν → ν → Bool
  lt : ν → ν → Bool
  le : ν → ν → Bool
  /-- The value of a numeric function at its arguments. -/
  apply : Function → List ν → Option ν

/-- Whether a number is integral; infinities and NaN are not. -/
def isIntegral (x : Float) : Bool := (Number.Dyadic.ofFloat? x).any (·.isIntegral)

/-- The integer next to a number in the direction of zero. -/
def truncated (x : Float) : Int := ((Number.Dyadic.ofFloat? x).map (·.truncate)).getD 0

/-- Integral numbers below 10^15 are written as integers, all others as the shortest decimal. -/
def numberText (x : Float) : String :=
  if isIntegral x && x.abs < 1e15 then toString (truncated x) else Number.plain x

/-- A number rounded to twelve decimal places, where that is finite. -/
def roundTwelve (x : Float) : Float :=
  let rounded := (x * 1e12).round / 1e12
  if rounded.isFinite then rounded else x

/-- A rounded number, if it is finite. -/
def finiteRounded (x : Float) : Option Float :=
  if x.isFinite then some (roundTwelve x) else none

/-- A number rounded to a number of places, of which the fractional part is ignored. -/
def roundPlaces (x places : Float) : Float :=
  let scale := Float.pow 10.0 (if places < 0.0 then places.ceil else places.floor)
  (x * scale).round / scale

/-- The value of a function of numbers, which may not be finite. -/
def applyFloat : Function → List Float → Option Float
  | .sqrt, x :: _ => some x.sqrt
  | .abs, x :: _ => some x.abs
  | .round, x :: places => some (roundPlaces x (places.head?.getD 0.0))
  | .sin, x :: _ => some x.sin
  | .cos, x :: _ => some x.cos
  | .tan, x :: _ => some x.tan
  | .asin, x :: _ => some x.asin
  | .acos, x :: _ => some x.acos
  | .atan, x :: _ => some x.atan
  | .log, x :: _ => some x.log10
  | .ln, x :: _ => some x.log
  | .exp, x :: _ => some x.exp
  | _, _ => none

instance : Arithmetic Float where
  isNegative x := x < 0.0
  text := numberText
  isZero x := x == 0.0
  isOne x := x == 1.0
  negate x := -x
  add x y := finiteRounded (x + y)
  sub x y := finiteRounded (x - y)
  mul x y := finiteRounded (x * y)
  div x y := finiteRounded (x / y)
  rem x y := finiteRounded (Number.remainder x y)
  pow x y := finiteRounded (Float.pow x y)
  eq x y := x == y
  lt x y := x < y
  le x y := x ≤ y
  apply f args := (applyFloat f args).bind finiteRounded

end Parametric.Formula
