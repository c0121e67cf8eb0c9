import Parametric.Number.Power
import Parametric.Text.Blank

/-!
Splitting text at marks and into lines, and numbers in it.
-/

namespace Parametric.Text

/-- The pieces of a text between occurrences of a mark, at least one. -/
def splitAt (mark : Char) : List Char → List (List Char)
  | [] => [[]]
  | c :: rest =>
    if c = mark then [] :: splitAt mark rest
    else
      match splitAt mark rest with
      | [] => [[c]]
      | first :: others => (c :: first) :: others

/-- Text without the characters at its end that satisfy `p`. -/
def dropEndWhile (p : Char → Bool) (text : List Char) : List Char :=
  (text.reverse.dropWhile p).reverse

/-- The lines of a text; a last line that is empty does not count, and carriage returns at the end
of a line do not belong to it. -/
def lines (text : String) : List (List Char) :=
  let pieces := splitAt '\n' text.toList
  let pieces := if pieces.getLast? == some [] then pieces.dropLast else pieces
  pieces.map (dropEndWhile (· == '\r'))

/-- Reads a number below 2^64, with or without a plus sign. -/
def nat? (text : String) : Option Nat :=
  let digits := match text.toList with
    | '+' :: rest => rest
    | chars => chars
  let n := digits.foldl (fun n c => 10 * n + (c.toNat - '0'.toNat)) 0
  if digits.isEmpty || !digits.all Char.isDigit || n ≥ Number.wordLimit then none else some n

end Parametric.Text
