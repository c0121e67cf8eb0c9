import Parametric.Name.Words

/-!
Naming conventions, and normalization of names onto them.
-/

namespace Parametric

inductive Casing where
  | title | pascal | camel | snake | upper
  /-- Words stay as they are typed. -/
  | preserve
deriving DecidableEq, Repr, Inhabited

structure Convention where
  caseStyle : Casing := .title
  /-- What stands between two words. -/
  separator : String := "_"
  /-- The greatest length of a name; longer names are reported and never cut. -/
  maxLength : Nat := 64
  /-- The words that every name has to start with. -/
  leading : Option String := none
  /-- Words that are written in capitals. -/
  acronyms : List String := ["CO2", "HVAC", "ID", "IFC", "LED", "MEP", "URL", "UUID", "UV"]
  /-- Whether words typed in capitals stay in capitals. -/
  keepsCapitals : Bool := true
deriving DecidableEq, Repr, Inhabited

namespace Convention

/-- A word with a capital at its start, an acronym, or a word kept in capitals. -/
def capitalized (c : Convention) (word : Word) : Word :=
  let upper := word.map Char.toUpper
  if c.acronyms.contains (.ofList upper) then upper
  else if c.keepsCapitals && word.any Char.isAlpha && !word.any Char.isLower then word
  else
    match word with
    | [] => []
    | first :: rest => first.toUpper :: rest.map Char.toLower

def styledWord (c : Convention) (first : Bool) (word : Word) : Word :=
  match c.caseStyle with
  | .snake => word.map Char.toLower
  | .upper => word.map Char.toUpper
  | .preserve => word
  | .camel => if first then word.map Char.toLower else c.capitalized word
  | .title | .pascal => c.capitalized word

def styledWords (c : Convention) : List Word → List Word
  | [] => []
  | word :: rest => c.styledWord true word :: rest.map (c.styledWord false)

/-- Words in the case style of the convention, with separators between them. -/
def join (c : Convention) (words : List Word) : List Char :=
  List.intercalate c.separator.toList (c.styledWords words)

/-- The words that every name has to start with. -/
def leadingWords (c : Convention) : List Word := (c.leading.map (wordsOf ·.toList)).getD []

/-- Whether joined words start with the leading words, in any letter case. -/
def hasLeading (c : Convention) (joined : List Char) : Bool :=
  if c.leadingWords.isEmpty then true
  else
    let start := (c.join c.leadingWords).map Char.toLower
    let joined := joined.map Char.toLower
    let separator := c.separator.toList.map Char.toLower
    start.isPrefixOf joined &&
      (separator.isEmpty ||
        (joined.drop start.length).isEmpty || separator.isPrefixOf (joined.drop start.length))

/-- The words of a name joined again, after the leading words if these were missing. -/
def normalizePass (c : Convention) (name : List Char) : List Char :=
  let words := wordsOf name
  if words.isEmpty then []
  else
    let joined := c.join words
    -- compared as text: the leading words may have run together with others
    if c.hasLeading joined then joined else c.join (c.leadingWords ++ words)

/-- Normalizes again while the name changes, at most `passes` times. -/
def settle (c : Convention) : Nat → List Char → List Char
  | 0, name => name
  | passes + 1, name =>
    let next := c.normalizePass name
    if next = name then name else c.settle passes next

/-- How often a name without separators is normalized again, as its words may split anew. -/
def settlePasses : Nat := 4

def normalizeChars (c : Convention) (name : List Char) : List Char :=
  if c.separator.isEmpty then c.settle settlePasses (c.normalizePass name)
  else c.normalizePass name

/-- The name that follows the convention; empty if nothing usable is left. -/
def normalize (c : Convention) (name : String) : String := .ofList (c.normalizeChars name.toList)

end Convention

end Parametric
