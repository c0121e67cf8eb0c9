/-!
Reading decimal text as the nearest floating-point number.
-/

namespace Parametric.Number

def digitsValue (digits : List Char) : Nat :=
  digits.foldl (fun n c => 10 * n + (c.toNat - '0'.toNat)) 0

/-- The number nearest to `digits * 10 ^ exponent`. -/
def nearest (digits : List Char) (exponent : Int) : Float :=
  let digits := digits.dropWhile (· == '0')
  let magnitude : Int := exponent + digits.length
  if digits.isEmpty || magnitude < -400 then 0.0
  else if magnitude > 400 then 1.0 / 0.0
  else Float.ofScientific (digitsValue digits) (exponent < 0) exponent.natAbs

/-- Reads digits, all of the text. -/
def natural? (text : List Char) : Option Nat :=
  if text.isEmpty || !text.all Char.isDigit then none else some (digitsValue text)

/-- Reads an optional sign and digits, all of the text. -/
def exponent? : List Char → Option Int
  | '-' :: digits => (natural? digits).map fun n => -(n : Int)
  | '+' :: digits => (natural? digits).map Int.ofNat
  | digits => (natural? digits).map Int.ofNat

/-- Reads digits with at most one point among them, and at least one digit. -/
def mantissa? (text : List Char) : Option (List Char × Nat) :=
  let whole := text.takeWhile Char.isDigit
  match text.dropWhile Char.isDigit with
  | [] => if whole.isEmpty then none else some (whole, 0)
  | '.' :: fraction =>
    if fraction.all Char.isDigit && !(whole.isEmpty && fraction.isEmpty) then
      some (whole ++ fraction, fraction.length)
    else none
  | _ => none

def read? (text : List Char) : Option Float :=
  let isMark := fun c => c == 'e' || c == 'E'
  let mantissa := text.takeWhile (!isMark ·)
  match mantissa? mantissa, text.dropWhile (!isMark ·) with
  | some (digits, places), [] => some (nearest digits (-places))
  | some (digits, places), _ :: tail => (exponent? tail).map fun e => nearest digits (e - places)
  | none, _ => none

end Parametric.Number
