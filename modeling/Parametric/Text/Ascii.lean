/-!
Letter case of the ASCII letters alone; every other character is left as it is.
-/

namespace Parametric.Text

def lowerAscii (s : String) : String := .ofList (s.toList.map Char.toLower)

def upperAscii (s : String) : String := .ofList (s.toList.map Char.toUpper)

def sameAscii (a b : String) : Bool := lowerAscii a == lowerAscii b

end Parametric.Text
