import Parametric.Json.Value
import Parametric.Number.Reading

/-!
Reading the leaves of JSON: constants, strings and numbers. A leaf of the right form may still stand
for nothing: half of a pair of code units is no character, and a number may be out of range.
-/

namespace Parametric.Json

/-! ## Strings -/

def hexValue? (c : Char) : Option Nat :=
  if c.isDigit then some (c.toNat - '0'.toNat)
  else if 'a' ≤ c && c ≤ 'f' then some (c.toNat - 'a'.toNat + 10)
  else if 'A' ≤ c && c ≤ 'F' then some (c.toNat - 'A'.toNat + 10)
  else none

/-- The code unit of the four hexadecimal digits at the head of a text. -/
def codeUnit? (text : List Char) : Option Nat :=
  match (text.take 4).mapM hexValue? with
  | some [a, b, c, d] => some (((a * 16 + b) * 16 + c) * 16 + d)
  | _ => none

/-- The second half of a pair of code units, escaped like the first. -/
def lowUnit? : List Char → Option Nat
  | '\\' :: 'u' :: text => (codeUnit? text).filter fun low => 0xDC00 ≤ low && low < 0xE000
  | _ => none

/-- What the code units after `\u` stand for, and how many characters they take: a character, or
nothing where half of a pair stands alone. -/
def codePoint? (text : List Char) : Option (Option Char × Nat) :=
  (codeUnit? text).map fun unit =>
    if unit < 0xD800 || 0xE000 ≤ unit then (some (.ofNat unit), 4)
    else if unit < 0xDC00 then
      match lowUnit? (text.drop 4) with
      | some low => (some (.ofNat (0x10000 + (unit - 0xD800) * 0x400 + (low - 0xDC00))), 10)
      | none => (none, 4)
    else (none, 4)

/-- What an escape stands for after its backslash, and how many characters it takes. -/
def escape? : List Char → Option (Option Char × Nat)
  | '"' :: _ => some ('"', 1)
  | '\\' :: _ => some ('\\', 1)
  | '/' :: _ => some ('/', 1)
  | 'b' :: _ => some ('\x08', 1)
  | 'f' :: _ => some ('\x0c', 1)
  | 'n' :: _ => some ('\n', 1)
  | 'r' :: _ => some ('\r', 1)
  | 't' :: _ => some ('\t', 1)
  | 'u' :: rest => (codePoint? rest).map fun (c, taken) => (c, taken + 1)
  | _ => none

/-- What a string stands for from a place inside it, and the text after its last quote; `read` holds
the characters before that place, the last one first, or nothing if one of them is missing. -/
def stringFrom? (read : Option (List Char)) (text : List Char) :
    Option (Option String × List Char) :=
  match text with
  | [] => none
  | '"' :: rest => some (read.map fun chars => .ofList chars.reverse, rest)
  | '\\' :: rest =>
    match escape? rest with
    | some (c, taken) => stringFrom? (c.bind fun c => read.map (c :: ·)) (rest.drop taken)
    | none => none
  | c :: rest => if c.toNat < 32 then none else stringFrom? (read.map (c :: ·)) rest
termination_by text.length
decreasing_by
  · simp only [List.length_cons, List.length_drop]; omega
  · simp

/-- What a string stands for after its first quote, and the text after its last one. -/
def string? (text : List Char) : Option (Option String × List Char) := stringFrom? (some []) text

def ofString : Option String → Json
  | some s => .str s
  | none => .unreadable

/-! ## Numbers -/

/-- Digits, at least one. -/
def digits? (text : List Char) : Option (List Char × List Char) :=
  let digits := text.takeWhile Char.isDigit
  if digits.isEmpty then none else some (digits, text.dropWhile Char.isDigit)

/-- The digits before the point: no zero stands in front of others. -/
def whole? : List Char → Option (List Char × List Char)
  | '0' :: rest => some (['0'], rest)
  | text => digits? text

/-- The digits of a fraction, none if there is no fraction. -/
def fraction? : List Char → Option (List Char × List Char)
  | '.' :: rest => digits? rest
  | rest => some ([], rest)

/-- An exponent, if there is one. -/
def exponent? : List Char → Option (Option Int × List Char)
  | mark :: rest =>
    if mark == 'e' || mark == 'E' then
      let (negative, unsigned) := match rest with
        | '-' :: rest => (true, rest)
        | '+' :: rest => (false, rest)
        | rest => (false, rest)
      (digits? unsigned).map fun (digits, rest) =>
        let n : Int := Number.digitsValue digits
        (some (if negative then -n else n), rest)
    else some (none, mark :: rest)
  | [] => some (none, [])

/-- A number followed by as many of the digits as fit into 64 bits, and how many these are. -/
def appended (n : Nat) : List Char → Nat × Nat
  | [] => (n, 0)
  | c :: digits =>
    let next := 10 * n + (c.toNat - '0'.toNat)
    if next < Number.wordLimit then
      let (value, count) := appended next digits
      (value, count + 1)
    else (n, 0)

/-- Whether a number is too large for a floating-point number. Digits that do not fit into 64 bits
count as zeros before the point and not at all after it. -/
def isOutOfRange (whole fraction : List Char) (exponent : Int) : Bool :=
  let (n, kept) := appended 0 whole
  let (n, places) := appended n fraction
  let power := exponent + (whole.length - kept : Nat) - places
  n ≠ 0 && 0 ≤ power &&
    (power > 308 || (Float.ofNat n * Float.ofScientific 1 false power.toNat).isInf)

/-- The integer with the given sign and digits, where it fits into 64 bits. -/
def ofDigits (negative : Bool) (digits : List Char) : Json :=
  let n := Number.digitsValue digits
  if negative then
    if n = 0 || n > Number.wordLimit / 2 then .real else .int (-n)
  else if n ≥ Number.wordLimit then .real else .int n

/-- A number without its sign, and the text after it. -/
def number? (negative : Bool) (text : List Char) : Option (Json × List Char) := do
  let (whole, rest) ← whole? text
  let (fraction, rest) ← fraction? rest
  let (exponent, rest) ← exponent? rest
  let value :=
    if isOutOfRange whole fraction (exponent.getD 0) then .unreadable
    else if fraction.isEmpty && exponent.isNone then ofDigits negative whole
    else .real
  return (value, rest)

/-! ## Leaves -/

/-- A value without parts, and the text after it. -/
def leaf? : List Char → Option (Json × List Char)
  | 'n' :: 'u' :: 'l' :: 'l' :: rest => some (.null, rest)
  | 't' :: 'r' :: 'u' :: 'e' :: rest => some (.bool true, rest)
  | 'f' :: 'a' :: 'l' :: 's' :: 'e' :: rest => some (.bool false, rest)
  | '"' :: rest => (string? rest).map fun (s, rest) => (ofString s, rest)
  | '-' :: rest => number? true rest
  | text => number? false text

end Parametric.Json
