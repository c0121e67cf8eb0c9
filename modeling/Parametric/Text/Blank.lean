import Parametric.Text.Ranges

/-!
White space: the Unicode property White_Space, and trimming by it.
-/

namespace Parametric.Text

def blankRanges : Ranges :=
  [(9, 13), (32, 32), (133, 133), (160, 160), (5760, 5760), (8192, 8202), (8232, 8233),
   (8239, 8239), (8287, 8287), (12288, 12288)]

def isBlank (c : Char) : Bool := blankRanges.has c.toNat

/-- A list without the leading items that satisfy `p`, and without the trailing ones. -/
def stripBy {α : Type} (p : α → Bool) (l : List α) : List α :=
  ((l.dropWhile p).reverse.dropWhile p).reverse

/-- Text without white space at either end. -/
def trim (s : String) : String := .ofList (stripBy isBlank s.toList)

def isBlankText (s : String) : Bool := s.toList.all isBlank

/-- The words of a text: its maximal runs without white space. -/
def words (s : String) : List String :=
  (s.toList.splitBy fun a b => isBlank a == isBlank b).filterMap fun run =>
    if run.any isBlank then none else some (.ofList run)

end Parametric.Text
