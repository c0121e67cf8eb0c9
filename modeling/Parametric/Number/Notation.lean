import Parametric.Number.Shortest

/-!
Text of numbers: positional everywhere, or with an exponent where the number is very large or
very small.
-/

namespace Parametric.Number

def zeros (n : Nat) : List Char := List.replicate n '0'

/-- A decimal without an exponent, and without a point where it is integral. -/
def Decimal.positional (d : Decimal) : List Char :=
  let digits := Nat.toDigits 10 d.digits
  if d.exponent ≥ 0 then digits ++ zeros d.exponent.toNat
  else
    let places := d.exponent.natAbs
    let padded := zeros (places + 1 - digits.length) ++ digits
    padded.take (padded.length - places) ++ '.' :: padded.drop (padded.length - places)

/-- A decimal with one digit before the point and an exponent. -/
def Decimal.scientific (d : Decimal) : List Char :=
  let digits := Nat.toDigits 10 d.digits
  let exponent : Int := d.exponent + (digits.length - 1 : Nat)
  let fraction := if digits.length > 1 then '.' :: digits.drop 1 else []
  digits.take 1 ++ fraction ++ 'e' :: (toString exponent).toList

/-- The sign of a number, if it is to be written. -/
def signed (negative : Bool) (digits : List Char) : String :=
  .ofList (if negative then '-' :: digits else digits)

/-- Names of the numbers that are not finite. -/
def nonFinite (x : Float) : String :=
  if x.isNaN then "NaN" else if isNegativeSign x then "-inf" else "inf"

/-- The shortest text that reads back, never with an exponent. -/
def plain (x : Float) : String :=
  match Dyadic.ofFloat? x with
  | none => nonFinite x
  | some d => signed d.negative d.shortest.positional

/-- Whether a number is written with an exponent in messages. -/
def usesExponent (x : Float) : Bool :=
  (x.abs != 0.0 && x.abs < 1e-4) || x.abs ≥ 1e16

/-- The text of a number in messages: the shortest that reads back, with a point or an exponent. -/
def detailed (x : Float) : String :=
  match Dyadic.ofFloat? x with
  | none => nonFinite x
  | some d =>
    if usesExponent x then signed d.negative d.shortest.scientific
    else
      let text := d.shortest.positional
      signed d.negative (if text.contains '.' then text else text ++ ['.', '0'])

end Parametric.Number
