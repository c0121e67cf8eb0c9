import Parametric.Definition.Proposal

/-!
Templates: reusable lists of proposals for elements of certain categories.
-/

namespace Parametric

/-- A proposal and the categories that it is for. -/
structure TemplateItem where
  proposal : Proposal
  categories : List String := []
  allCategories : Bool := false
  /-- The formulas for single categories. -/
  formulasByCategory : SortedMap String := ∅
deriving DecidableEq, Repr, Inhabited

namespace TemplateItem

/-- Whether an item is for a category, in any ASCII letter case. -/
def covers (e : TemplateItem) (category : String) : Bool :=
  e.allCategories || e.categories.any (Text.sameAscii · category)

/-- Reads an item: the fields of its proposal stand beside its own. All that stands there has to be
readable, as any of it may be a field of the proposal. -/
def ofJson? (value : Json) : Option TemplateItem := do
  let .obj _ := value | none
  if !value.isReadable then none
  let fields ← value.fields?
    (Proposal.fieldNames ++ ["categories", "all_categories", "category_formulas"])
  return {
    proposal := ← Proposal.ofFields? fields
    categories := ← fields.withDefault "categories" (Json.list? Json.text?) []
    allCategories := ← fields.withDefault "all_categories" Json.bool? false
    formulasByCategory := ←
      fields.withDefault "category_formulas" (SortedMap.ofJson? Json.text?) ∅ }

end TemplateItem

structure Template where
  id : String
  name : String
  description : Option String := none
  items : List TemplateItem := []
deriving DecidableEq, Repr, Inhabited

structure TemplateUse where
  /-- Whether the formula for a category replaces the one of the item. -/
  mergesCategoryFormulas : Bool := false
  /-- Whether the formulas may reference names that are not registered. -/
  allowMissing : Bool := false
deriving DecidableEq, Repr, Inhabited

def TemplateUse.ofJson? (value : Json) : Option TemplateUse := do
  let fields ← value.fields? ["merge_category_formulas", "allow_missing"]
  return {
    mergesCategoryFormulas := ← fields.withDefault "merge_category_formulas" Json.bool? false
    allowMissing := ← fields.withDefault "allow_missing" Json.bool? false }

def TemplateItem.proposalFor (e : TemplateItem) (category : String) (options : TemplateUse) :
    Proposal :=
  let own := if options.mergesCategoryFormulas then findByAscii e.formulasByCategory category
    else none
  { e.proposal with
    formula := own <|> e.proposal.formula
    allowMissing := options.allowMissing || e.proposal.allowMissing
    category := e.proposal.category <|> some category }

namespace Template

def proposalsFor (t : Template) (category : String) (options : TemplateUse) : List Proposal :=
  (t.items.filter (·.covers category)).map (·.proposalFor category options)

def ofJson? (value : Json) : Option Template := do
  let fields ← value.fields? ["id", "name", "description", "entries"]
  return {
    id := ← fields.required "id" Json.text?
    name := ← fields.required "name" Json.text?
    description := ← fields.optional "description" Json.text?
    items := ← fields.withDefault "entries" (Json.list? TemplateItem.ofJson?) [] }

end Template

end Parametric
