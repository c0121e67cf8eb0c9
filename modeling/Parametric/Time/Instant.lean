import Parametric.Number.Power
import Parametric.Text.Blank

/-!
Points in time, written and read as dates with times of day.
-/

namespace Parametric

/-- Seconds since the start of 1970 in UTC, and nanoseconds; a leap second counts as the second
before it with 10^9 nanoseconds more. -/
structure Instant where
  seconds : Int
  nanos : Nat
deriving DecidableEq, Repr, Inhabited

namespace Time

def daysFromDate (year month day : Int) : Int :=
  let y := if month ≤ 2 then year - 1 else year
  let era := y.fdiv 400
  let yearOfEra := y - era * 400
  let dayOfYear := (153 * (if month > 2 then month - 3 else month + 9) + 2).fdiv 5 + day - 1
  let dayOfEra := yearOfEra * 365 + yearOfEra.fdiv 4 - yearOfEra.fdiv 100 + dayOfYear
  era * 146097 + dayOfEra - 719468

def dateFromDays (days : Int) : Int × Int × Int :=
  let z := days + 719468
  let era := z.fdiv 146097
  let dayOfEra := z - era * 146097
  let yearOfEra :=
    (dayOfEra - dayOfEra.fdiv 1460 + dayOfEra.fdiv 36524 - dayOfEra.fdiv 146096).fdiv 365
  let dayOfYear := dayOfEra - (365 * yearOfEra + yearOfEra.fdiv 4 - yearOfEra.fdiv 100)
  let shifted := (5 * dayOfYear + 2).fdiv 153
  let day := dayOfYear - (153 * shifted + 2).fdiv 5 + 1
  let month := if shifted < 10 then shifted + 3 else shifted - 9
  (yearOfEra + era * 400 + (if month ≤ 2 then 1 else 0), month, day)

def daysInMonth (year month : Int) : Int :=
  if month = 2 then
    if year.fmod 4 = 0 ∧ (year.fmod 100 ≠ 0 ∨ year.fmod 400 = 0) then 29 else 28
  else if month = 4 ∨ month = 6 ∨ month = 9 ∨ month = 11 then 30
  else 31

def padded (width n : Nat) : String :=
  let digits := Nat.toDigits 10 n
  .ofList (List.replicate (width - digits.length) '0' ++ digits)

/-- A year, with a sign where it does not have four digits. -/
def yearText (year : Int) : String :=
  if 0 ≤ year ∧ year ≤ 9999 then padded 4 year.toNat
  else (if year < 0 then "-" else "+") ++ padded 4 year.natAbs

def fractionText (nanos : Nat) : String :=
  if nanos = 0 then ""
  else if nanos % 1000000 = 0 then "." ++ padded 3 (nanos / 1000000)
  else if nanos % 1000 = 0 then "." ++ padded 6 (nanos / 1000)
  else "." ++ padded 9 nanos

end Time

open Time

def Instant.text (t : Instant) : String :=
  let days := t.seconds.fdiv 86400
  let (year, month, day) := dateFromDays days
  let rest := (t.seconds - days * 86400).toNat
  let leap := t.nanos / 1000000000
  yearText year ++ "-" ++ padded 2 month.toNat ++ "-" ++ padded 2 day.toNat ++ "T" ++
    padded 2 (rest / 3600) ++ ":" ++ padded 2 (rest / 60 % 60) ++ ":" ++
    padded 2 (rest % 60 + leap) ++ fractionText (t.nanos % 1000000000) ++ "Z"

namespace Time

abbrev Rest := List Char

/-- A number of at most `width` digits after blanks. -/
def number? (width : Nat) (text : Rest) : Option (Nat × Rest) :=
  let text := text.dropWhile Text.isBlank
  let digits := (text.take width).takeWhile Char.isDigit
  if digits.isEmpty then none
  else some (digits.foldl (fun n c => 10 * n + (c.toNat - '0'.toNat)) 0, text.drop digits.length)

/-- A year, of more than four digits only after a sign. -/
def year? (text : Rest) : Option (Int × Rest) :=
  match text.dropWhile Text.isBlank with
  | '-' :: digits =>
    if digits.head?.any Char.isDigit then
      (number? digits.length digits).map fun (n, rest) => (-(n : Int), rest)
    else none
  | '+' :: digits =>
    if digits.head?.any Char.isDigit then
      (number? digits.length digits).map fun (n, rest) => ((n : Int), rest)
    else none
  | text => (number? 4 text).map fun (n, rest) => ((n : Int), rest)

def mark? (mark : Char) (text : Rest) : Option Rest :=
  match text.dropWhile Text.isBlank with
  | c :: rest => if c = mark then some rest else none
  | [] => none

/-- A fraction of a second in nanoseconds, zero if there is none; digits past the ninth are
skipped. -/
def nanos? : Rest → Option (Nat × Rest)
  | '.' :: text =>
    let digits := text.takeWhile Char.isDigit
    if digits.isEmpty then none
    else
      let used := digits.take 9
      let value := used.foldl (fun n c => 10 * n + (c.toNat - '0'.toNat)) 0
      some (value * Number.tenTo (9 - used.length), text.drop digits.length)
  | text => some (0, text)

def offset? (text : Rest) : Option (Int × Rest) :=
  match text.dropWhile Text.isBlank with
  | 'Z' :: rest | 'z' :: rest => some (0, rest)
  | c :: rest =>
    if c = '+' ∨ c = '-' ∨ c = '−' then
      match rest with
      | h1 :: h2 :: rest =>
        match rest.dropWhile fun c => c == ':' || Text.isBlank c with
        | m1 :: m2 :: rest =>
          if [h1, h2, m1, m2].all Char.isDigit && m1 < '6' then
            let value := fun a b : Char => (a.toNat - '0'.toNat) * 10 + (b.toNat - '0'.toNat)
            let seconds := value h1 h2 * 3600 + value m1 m2 * 60
            if seconds < 86400 then some (if c = '+' then (seconds : Int) else -seconds, rest)
            else none
          else none
        | _ => none
      | _ => none
    else if ((c :: rest).take 3).map Char.toLower = ['u', 't', 'c'] then some (0, rest.drop 2)
    else none
  | [] => none

def firstYear : Int := -262143

def lastYear : Int := 262142

def isInCalendar (days : Int) : Bool :=
  daysFromDate firstYear 1 1 ≤ days && days ≤ daysFromDate lastYear 12 31

end Time

/-- Reads a date, a time of day and a distance from UTC; the date has to exist there and in UTC. -/
def Instant.parse? (text : String) : Option Instant := do
  let (year, rest) ← year? text.toList
  let rest ← mark? '-' rest
  let (month, rest) ← number? 2 rest
  let rest ← mark? '-' rest
  let (day, rest) ← number? 2 rest
  let c :: rest := rest | none
  if !(c == 't' || c == 'T' || c == ' ') then none
  let (hour, rest) ← number? 2 rest
  let rest ← mark? ':' rest
  let (minute, rest) ← number? 2 rest
  let rest ← mark? ':' rest
  let (second, rest) ← number? 2 rest
  let (nanos, rest) ← nanos? rest
  let (offset, rest) ← offset? rest
  if !(rest.dropWhile Text.isBlank).isEmpty then none
  if year < firstYear ∨ year > lastYear ∨ month < 1 ∨ month > 12 ∨ day < 1 ∨
      (day : Int) > daysInMonth year month ∨ hour > 23 ∨ minute > 59 ∨ second > 60 then none
  let leap := if second = 60 then 1 else 0
  let civil : Int := daysFromDate year month day * 86400 + hour * 3600 + minute * 60 +
    (second - leap : Nat)
  let seconds := civil - offset
  if !isInCalendar (seconds.fdiv 86400) then none
  return ⟨seconds, nanos + leap * 1000000000⟩

end Parametric
