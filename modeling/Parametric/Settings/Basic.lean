import Parametric.Definition.Kind
import Parametric.Formula.Printer
import Parametric.Name.Convention
import Parametric.SortedMap

/-!
Settings of an engine.
-/

namespace Parametric

structure RegistrySettings where
  /-- The group of definitions that do not name one. -/
  defaultGroup : String := "General"
  /-- Names that can be neither created nor deleted. -/
  reservedNames : List String :=
    ["Family Name", "Type Name", "Category", "Family", "Type", "Element ID"]
  defaultAuthor : Option String := none
deriving DecidableEq, Repr, Inhabited

/-- Whether a name is reserved, in any ASCII letter case. -/
def RegistrySettings.reserves (s : RegistrySettings) (name : String) : Bool :=
  s.reservedNames.any (Text.sameAscii · (Text.trim name))

structure FormulaSettings where
  functionCase : Formula.LetterCase := .lower
  spacedOperators : Bool := true
  /-- The kinds that formula results should have, by their names. -/
  declaredKinds : SortedMap ValueKind := ∅
deriving DecidableEq, Repr, Inhabited

def FormulaSettings.style (s : FormulaSettings) : Formula.Style :=
  ⟨s.functionCase, s.spacedOperators⟩

/-- What a category asks for: the parameters that its elements should carry. -/
structure CategoryNeeds where
  required : List String := []
  recommended : List String := []
deriving DecidableEq, Repr, Inhabited

structure StoreSettings where
  /-- The directory of the persisted state; without one it is kept in memory. -/
  path : Option String := none
  /-- Whether every write is committed to version control. -/
  commits : Bool := false
deriving DecidableEq, Repr, Inhabited

structure Settings where
  naming : Convention := {}
  registry : RegistrySettings := {}
  formula : FormulaSettings := {}
  categories : SortedMap CategoryNeeds := ∅
  /-- Whether exported JSON is indented. -/
  prettyExport : Bool := true
  store : StoreSettings := {}
deriving DecidableEq, Repr, Inhabited

/-- The value of the first key that equals a text in any ASCII letter case. -/
def findByAscii {α : Type} (m : SortedMap α) (text : String) : Option α :=
  (m.entries.find? fun e => Text.sameAscii e.1 text).map (·.2)

/-- The kind that the result of a formula should have. -/
def Settings.declaredKind? (s : Settings) (result : String) : Option ValueKind :=
  findByAscii s.formula.declaredKinds result

def Settings.needs? (s : Settings) (category : String) : Option CategoryNeeds :=
  findByAscii s.categories category

end Parametric
