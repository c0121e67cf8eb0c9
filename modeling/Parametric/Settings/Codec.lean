import Parametric.Json.Record
import Parametric.Settings.Basic

/-!
Settings as JSON; whatever is left out has its default.
-/

namespace Parametric

def Json.oneOf? {α : Type} (words : List (String × α)) (value : Json) : Option α :=
  value.word?.bind fun word => words.lookup word

def Casing.words : List (String × Casing) :=
  [("title", .title), ("pascal", .pascal), ("camel", .camel), ("snake", .snake),
   ("upper", .upper), ("preserve", .preserve)]

def Formula.LetterCase.words : List (String × Formula.LetterCase) :=
  [("lower", .lower), ("upper", .upper)]

def ValueKind.ofJson? (value : Json) : Option ValueKind :=
  Json.oneOf? (ValueKind.all.map fun k => (k.name, k)) value

def wordFor {α : Type} [BEq α] (words : List (String × α)) (value : α) : String :=
  ((words.find? (·.2 == value)).map (·.1)).getD ""

def sortedTexts (texts : List String) : List String :=
  texts.eraseDups.mergeSort fun a b => a ≤ b

def Convention.ofJson? (value : Json) : Option Convention := do
  let fields ← value.fields?
    ["case", "separator", "max_length", "prefix", "acronyms", "preserve_screaming_case"]
  let standard : Convention := {}
  return {
    caseStyle := ← fields.withDefault "case" (Json.oneOf? Casing.words) standard.caseStyle
    separator := ← fields.withDefault "separator" Json.text? standard.separator
    maxLength := ← fields.withDefault "max_length" Json.nat? standard.maxLength
    leading := ← fields.optional "prefix" Json.text?
    acronyms := sortedTexts
      (← fields.withDefault "acronyms" (Json.list? Json.text?) standard.acronyms)
    keepsCapitals := ←
      fields.withDefault "preserve_screaming_case" Json.bool? standard.keepsCapitals }

def Convention.toJson (c : Convention) : Json :=
  .obj [("case", .str (wordFor Casing.words c.caseStyle)), ("separator", .str c.separator),
    ("max_length", .ofNat c.maxLength), ("prefix", .ofText? c.leading),
    ("acronyms", .ofTexts c.acronyms), ("preserve_screaming_case", .bool c.keepsCapitals)]

def RegistrySettings.ofJson? (value : Json) : Option RegistrySettings := do
  let fields ← value.fields? ["default_group", "reserved_names", "default_author"]
  let standard : RegistrySettings := {}
  return {
    defaultGroup := ← fields.withDefault "default_group" Json.text? standard.defaultGroup
    reservedNames := ←
      fields.withDefault "reserved_names" (Json.list? Json.text?) standard.reservedNames
    defaultAuthor := ← fields.optional "default_author" Json.text? }

def RegistrySettings.toJson (s : RegistrySettings) : Json :=
  .obj [("default_group", .str s.defaultGroup), ("reserved_names", .ofTexts s.reservedNames),
    ("default_author", .ofText? s.defaultAuthor)]

def SortedMap.ofJson? {α : Type} (read : Json → Option α) (value : Json) : Option (SortedMap α) :=
  (value.members? read).map .ofList

def SortedMap.toJson {α : Type} (write : α → Json) (m : SortedMap α) : Json :=
  .obj (m.entries.map fun (key, value) => (key, write value))

def FormulaSettings.ofJson? (value : Json) : Option FormulaSettings := do
  let fields ← value.fields? ["function_case", "spaced_operators", "expected_kinds"]
  return {
    functionCase := ←
      fields.withDefault "function_case" (Json.oneOf? Formula.LetterCase.words) .lower
    spacedOperators := ← fields.withDefault "spaced_operators" Json.bool? true
    declaredKinds := ← fields.withDefault "expected_kinds" (SortedMap.ofJson? ValueKind.ofJson?) ∅ }

def FormulaSettings.toJson (s : FormulaSettings) : Json :=
  .obj [("function_case", .str (wordFor Formula.LetterCase.words s.functionCase)),
    ("spaced_operators", .bool s.spacedOperators),
    ("expected_kinds", s.declaredKinds.toJson fun kind => .str kind.name)]

def CategoryNeeds.ofJson? (value : Json) : Option CategoryNeeds := do
  let fields ← value.fields? ["required", "recommended"]
  return {
    required := ← fields.withDefault "required" (Json.list? Json.text?) []
    recommended := ← fields.withDefault "recommended" (Json.list? Json.text?) [] }

def CategoryNeeds.toJson (n : CategoryNeeds) : Json :=
  .obj [("required", .ofTexts n.required), ("recommended", .ofTexts n.recommended)]

def StoreSettings.ofJson? (value : Json) : Option StoreSettings := do
  let fields ← value.fields? ["path", "git_commit"]
  return {
    path := ← fields.optional "path" Json.text?
    commits := ← fields.withDefault "git_commit" Json.bool? false }

def StoreSettings.toJson (s : StoreSettings) : Json :=
  .obj [("path", .ofText? s.path), ("git_commit", .bool s.commits)]

def prettyExport? (value : Json) : Option Bool := do
  let fields ← value.fields? ["output_format"]
  fields.withDefault "output_format" (Json.oneOf? [("pretty", true), ("compact", false)]) true

def Settings.ofJson? (value : Json) : Option Settings := do
  let fields ← value.fields? ["naming", "registry", "formula", "categories", "export", "store"]
  return {
    naming := ← fields.withDefault "naming" Convention.ofJson? {}
    registry := ← fields.withDefault "registry" RegistrySettings.ofJson? {}
    formula := ← fields.withDefault "formula" FormulaSettings.ofJson? {}
    categories := ← fields.withDefault "categories" (SortedMap.ofJson? CategoryNeeds.ofJson?) ∅
    prettyExport := ← fields.withDefault "export" prettyExport? true
    store := ← fields.withDefault "store" StoreSettings.ofJson? {} }

def Settings.toJson (s : Settings) : Json :=
  .obj [("naming", s.naming.toJson), ("registry", s.registry.toJson),
    ("formula", s.formula.toJson), ("categories", s.categories.toJson CategoryNeeds.toJson),
    ("export", .obj [("output_format", .str (if s.prettyExport then "pretty" else "compact"))]),
    ("store", s.store.toJson)]

end Parametric
