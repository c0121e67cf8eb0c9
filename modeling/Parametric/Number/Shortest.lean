import Parametric.Number.Binary

/-!
The decimal of fewest digits that reads back as a given number.
-/

namespace Parametric.Number

/-- The decimal `digits * 10 ^ exponent`. -/
structure Decimal where
  digits : Nat
  exponent : Int
deriving DecidableEq, Repr

/-- Compares `a * 10 ^ e` with `b * 2 ^ q`. -/
def compareScaled (a : Nat) (e : Int) (b : Nat) (q : Int) : Ordering :=
  compare (a * tenTo e.toNat * twoTo (-q).toNat) (b * twoTo q.toNat * tenTo (-e).toNat)

/-- The numbers between `low * 2 ^ scale` and `high * 2 ^ scale`, ends included if `closed`. -/
structure Interval where
  low : Nat
  high : Nat
  scale : Int
  closed : Bool

/-- The numbers that round to `d`: up to half the distance to either neighbour. -/
def Dyadic.rounding (d : Dyadic) : Interval where
  low :=
    if d.mantissa == twoTo 52 && d.exponent > -1074 then 4 * d.mantissa - 1
    else 4 * d.mantissa - 2
  high := 4 * d.mantissa + 2
  scale := d.exponent - 2
  closed := d.mantissa % 2 == 0

def Interval.has (i : Interval) (d : Decimal) : Bool :=
  let low := compareScaled d.digits d.exponent i.low i.scale
  let high := compareScaled d.digits d.exponent i.high i.scale
  (low == .gt && high == .lt) || (i.closed && (low == .eq || high == .eq))

def digitCount (n : Nat) : Nat := (Nat.toDigits 10 n).length

/-- The exponent `e` with `10 ^ (e - 1) ≤ d < 10 ^ e`. -/
def Dyadic.magnitude (d : Dyadic) : Int :=
  let num := d.mantissa * twoTo d.exponent.toNat
  let den := twoTo (-d.exponent).toNat
  if num ≥ den then digitCount (num / den)
  else
    let length := digitCount (den / num)
    if num * tenTo (length - 1) == den then 2 - length else 1 - length

/-- The grid point at or below `d` among the multiples of `10 ^ e`. -/
def Dyadic.gridFloor (d : Dyadic) (e : Int) : Nat :=
  d.mantissa * twoTo d.exponent.toNat * tenTo (-e).toNat /
    (twoTo (-d.exponent).toNat * tenTo e.toNat)

/-- Whether `d` is at least half way from the grid point `n` to `n + 1`. -/
def Dyadic.nearerAbove (d : Dyadic) (n : Nat) (e : Int) : Bool :=
  compareScaled (2 * n + 1) e (2 * d.mantissa) d.exponent != .gt

/-- The point of a grid that reads back as `d`; of two the nearer, and half way the upper one. -/
def Dyadic.onGrid? (d : Dyadic) (e : Int) : Option Decimal :=
  let n := d.gridFloor e
  let below : Decimal := ⟨n, e⟩
  let above : Decimal := ⟨n + 1, e⟩
  match d.rounding.has below, d.rounding.has above with
  | true, true => some (if d.nearerAbove n e then above else below)
  | true, false => some below
  | false, true => some above
  | false, false => none

/-- A decimal without trailing zeros in its digits. -/
def Decimal.reduce (d : Decimal) : Decimal :=
  let zeros := ((Nat.toDigits 10 d.digits).reverse.takeWhile (· == '0')).length
  if d.digits == 0 then ⟨0, 0⟩ else ⟨d.digits / tenTo zeros, d.exponent + zeros⟩

/-- The fewest digits that read back as `d`, and of those the nearest; seventeen always suffice. -/
def Dyadic.shortest (d : Dyadic) : Decimal :=
  if d.mantissa == 0 then ⟨0, 0⟩
  else
    match (List.range 17).findSome? fun n => d.onGrid? (d.magnitude - (n + 1 : Nat)) with
    | some found => found.reduce
    | none => ⟨d.gridFloor 0, 0⟩

end Parametric.Number
