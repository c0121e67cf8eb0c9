import Parametric.Definition.Basic
import Parametric.Dependency.Graph

/-!
The table of committed formulas, by the keys of their results.
-/

namespace Parametric

/-- A committed formula. -/
structure StoredFormula where
  result : String
  /-- The text that the formula was compiled to. -/
  expression : String
  /-- The text that the formula was compiled from. -/
  source : String
  /-- The referenced names in the order of the expression. -/
  references : List String
  compiledAt : Instant
deriving DecidableEq, Repr, Inhabited

namespace StoredFormula

def toJson (f : StoredFormula) : Json :=
  .obj [("result", .str f.result), ("expression", .str f.expression), ("source", .str f.source),
    ("references", .ofTexts f.references), ("compiled_at", .str f.compiledAt.text)]

def ofJson? (value : Json) : Option StoredFormula := do
  let fields ← value.fields? ["result", "expression", "source", "references", "compiled_at"]
  return {
    result := ← fields.required "result" Json.text?
    expression := ← fields.required "expression" Json.text?
    source := ← fields.required "source" Json.text?
    references := ← fields.required "references" (Json.list? Json.text?)
    compiledAt := ← fields.required "compiled_at" Definition.instant? }

end StoredFormula

abbrev Formulas := SortedMap StoredFormula

namespace Formulas

def formula? (t : Formulas) (name : String) : Option StoredFormula := t.get? (keyOf name)

/-- The results of the formulas with their references. -/
def references (t : Formulas) : List (String × List String) :=
  t.values.map fun f => (f.result, f.references)

def graph (t : Formulas) : Graph := .ofFormulas t.references

end Formulas

end Parametric
