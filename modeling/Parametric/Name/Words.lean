/-!
Splitting names into words of ASCII letters and digits.
-/

namespace Parametric

abbrev Word := List Char

/-- Whether the capital `c` starts a new word after the characters `current`, read backwards:
after a small letter, before a small letter, or after a digit in a word with a small letter. -/
def startsWord (current : Word) (c : Char) (next : Option Char) : Bool :=
  match current with
  | [] => false
  | previous :: _ =>
    let beforeSmall := next.any Char.isLower
    c.isUpper &&
      (previous.isLower ||
        (previous.isDigit && (beforeSmall || current.any Char.isLower)) ||
        (previous.isUpper && beforeSmall))

def finishWord (current : Word) : List Word := if current.isEmpty then [] else [current.reverse]

/-- The words of a text that continues the word `current`, read backwards. -/
def wordsFrom (current : Word) : List Char → List Word
  | [] => finishWord current
  | c :: rest =>
    if !c.isAlphanum then finishWord current ++ wordsFrom [] rest
    else if startsWord current c rest.head? then finishWord current ++ wordsFrom [c] rest
    else wordsFrom (c :: current) rest

/-- The words of a name. Other characters separate words, and so do changes of case. -/
def wordsOf (name : List Char) : List Word := wordsFrom [] name

end Parametric
