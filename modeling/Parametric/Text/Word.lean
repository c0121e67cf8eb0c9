import Parametric.Text.Alphabetic
import Parametric.Text.Mark
import Parametric.Text.Numeric

/-!
Characters of words, and the boundaries between them and other characters. Sentences are split by
version 16 of the Unicode standard, one before the version that names are compared by, so the
characters that version 17 added belong to no word.
-/

namespace Parametric.Text

/-- The letters, marks and digits that version 17 of the standard added. -/
def additionRanges : Ranges := [
  (2191, 2191), (3164, 3164), (3292, 3292), (6863, 6877), (6880, 6891), (42958, 42959),
  (42962, 42962), (42964, 42964), (42993, 42993), (67904, 67929), (69317, 69319), (69370, 69371),
  (72544, 72551), (73136, 73179), (73184, 73193), (93856, 93880), (93883, 93907), (94194, 94198),
  (100344, 100351), (101641, 101662), (101760, 101874), (124608, 124638), (124640, 124661),
  (124670, 124671), (177978, 177983), (183970, 183981), (205744, 210041)]

/-- Whether a character is younger than the words of sentences. -/
def isAddition (c : Char) : Bool := c.toNat ≥ 128 && additionRanges.has c.toNat

def connectorRanges : Ranges :=
  [(95, 95), (8204, 8205), (8255, 8256), (8276, 8276), (65075, 65076), (65101, 65103),
   (65343, 65343)]

def isWordDigit (c : Char) : Bool := isDecimalDigit c && !isAddition c

def isWordChar (c : Char) : Bool :=
  (isAlphabetic c || isMark c || isDecimalDigit c || connectorRanges.has c.toNat) && !isAddition c

/-- Whether a word starts or ends between two characters, each of which may be missing. -/
def isBoundary (before after : Option Char) : Bool :=
  before.any isWordChar != after.any isWordChar

end Parametric.Text
