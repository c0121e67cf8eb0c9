import Parametric.Number.Power

/-!
Finite floating-point numbers as exact multiples of powers of two.
-/

namespace Parametric.Number

/-- The number `mantissa * 2 ^ exponent`, negated if `negative`. -/
structure Dyadic where
  negative : Bool
  mantissa : Nat
  exponent : Int
deriving DecidableEq, Repr

/-- The exact value of a finite number; infinities and NaN have none. -/
def Dyadic.ofFloat? (x : Float) : Option Dyadic :=
  let bits := x.toBits.toNat
  let field : Nat := bits / twoTo 52 % twoTo 11
  let fraction : Nat := bits % twoTo 52
  let negative := bits / twoTo 63 == 1
  if field == 2047 then none
  else if field == 0 then some ⟨negative, fraction, -1074⟩
  else some ⟨negative, fraction + twoTo 52, field - 1075⟩

/-- Whether a number has no fractional part. -/
def Dyadic.isIntegral (d : Dyadic) : Bool :=
  d.exponent ≥ 0 || d.mantissa % twoTo d.exponent.natAbs == 0

/-- The integer that remains when the fractional part is cut off. -/
def Dyadic.truncate (d : Dyadic) : Int :=
  let magnitude : Nat :=
    if d.exponent ≥ 0 then d.mantissa * twoTo d.exponent.toNat
    else d.mantissa / twoTo d.exponent.natAbs
  if d.negative then -magnitude else magnitude

def isNegativeSign (x : Float) : Bool := x.toBits.toNat / twoTo 63 == 1

/-- The remainder of a division that rounds toward zero; it has the sign of the dividend. -/
def remainder (x y : Float) : Float :=
  match Dyadic.ofFloat? x, Dyadic.ofFloat? y with
  | none, _ => 0.0 / 0.0
  | some _, none => if y.isNaN then y else x
  | some a, some b =>
    if b.mantissa == 0 then 0.0 / 0.0
    else
      let low := min a.exponent b.exponent
      let dividend := a.mantissa * twoTo (a.exponent - low).toNat
      let divisor := b.mantissa * twoTo (b.exponent - low).toNat
      let r := (Float.ofNat (dividend % divisor)).scaleB low
      if a.negative then -r else r

end Parametric.Number
