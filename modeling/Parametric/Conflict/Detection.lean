import Parametric.Conflict.Basic
import Parametric.Element.Parameter
import Parametric.Name.Validation
import Parametric.Registry.Basic

/-!
Detection of conflicts between the parameters of elements and the registry.
-/

namespace Parametric

/-! ## Values and who carries them -/

structure Variant (α : Type) where
  value : α
  sources : List String
deriving Repr

namespace Variant

variable {α : Type} [BEq α]

def add (value : α) (source : String) : List (Variant α) → List (Variant α)
  | [] => [⟨value, [source]⟩]
  | v :: rest =>
    if v.value == value then ⟨v.value, v.sources ++ [source]⟩ :: rest
    else v :: add value source rest

/-- The distinct values of a list with their sources, in the order in which they come first. -/
def ofList (pairs : List (α × String)) : List (Variant α) :=
  pairs.foldl (fun variants p => add p.1 p.2 variants) []

def sourcesOf (variants : List (Variant α)) : List String := variants.flatMap (·.sources)

def describe (text : α → String) (variants : List (Variant α)) : String :=
  "; ".intercalate (variants.map fun v =>
    "'" ++ text v.value ++ "' in " ++ ", ".intercalate v.sources)

/-- The first value that has the most sources. -/
def majority? (variants : List (Variant α)) : Option α :=
  (variants.foldl (fun best v =>
    match best with
    | none => some v
    | some b => if v.sources.length > b.sources.length then some v else some b) none).map (·.value)

end Variant

/-! ## Detectors -/

/-- A parameter and the element that carries it. -/
structure Sighting where
  element : String
  parameter : CarriedParameter
deriving DecidableEq, Repr, Inhabited

namespace Conflict

def identity? (display : String) (occurrences : List Sighting) (registered : Option Definition) :
    Option Conflict := do
  let found := Variant.ofList (occurrences.filterMap fun o =>
    o.parameter.identity.map (·, o.element))
  let canonical ← match registered with
    | some d => if found.all (·.value == d.identity) then none else some d.identity
    | none => if found.length < 2 then none else Variant.majority? found
  return {
    kind := .identity, parameter := display, sources := Variant.sourcesOf found
    details := "identity tokens differ: " ++ Variant.describe Identity.text found
    suggestion := some ("standardize every copy on identity " ++ canonical.text)
    standardIdentity := some canonical }

def valueKind? (display : String) (occurrences : List Sighting)
    (registered : Option Definition) : Option Conflict :=
  let carried := Variant.ofList (occurrences.map fun o => (o.parameter.kind, o.element))
  let found := match registered with
    | some d =>
      if carried.any (·.value != d.kind) then Variant.add d.kind registrySource carried
      else carried
    | none => carried
  if found.length < 2 then none
  else
    let suggestion := match registered with
      | some d => "convert every copy to the registry kind '" ++ d.kind.name ++ "'"
      | none => "choose one kind among " ++ ", ".intercalate (found.map (·.value.name))
    some {
      kind := .valueKind, parameter := display, sources := Variant.sourcesOf found
      details := "value kinds differ: " ++ Variant.describe ValueKind.name found
      suggestion := some suggestion }

def grouping? (display : String) (occurrences : List Sighting)
    (registered : Option Definition) : Option Conflict := do
  let groups := occurrences.map fun o => (Text.trim o.parameter.group, o.element)
  let found := Variant.ofList (groups.filter (·.1 != ""))
  let target ← match registered with
    | some d => if found.all fun v => Text.sameAscii v.value d.group then none else some d.group
    | none => if found.length < 2 then none else Variant.majority? found
  return {
    kind := .grouping, parameter := display, sources := Variant.sourcesOf found
    details := "groups differ: " ++ Variant.describe id found
    suggestion := some s!"move every copy to group '{target}'" }

def formula? (display : String) (occurrences : List Sighting) (registered : Option Definition) :
    Option Conflict :=
  let formulas := occurrences.filterMap fun o =>
    o.parameter.formula.map fun f => (Text.trim f, o.element)
  let carried := Variant.ofList (formulas.filter (·.1 != ""))
  let own := registered.bind (·.formula)
  let found := match own with
    | some f => Variant.add (Text.trim f) registrySource carried
    | none => carried
  if found.length < 2 then none
  else
    let suggestion := match own with
      | some f => s!"use the registry formula '{f}'"
      | none => "review the formulas and compile one of them"
    some {
      kind := .formula, parameter := display, sources := Variant.sourcesOf found
      details := "formulas differ: " ++ Variant.describe id found
      suggestion := some suggestion }

def naming? (c : Convention) (spelling : Variant String) : Option Conflict :=
  let report := c.validate spelling.value
  if report.isClean then none
  else
    let suggestion := c.normalize spelling.value
    let helps := suggestion != "" && suggestion != spelling.value
    some {
      kind := .naming, parameter := spelling.value, sources := spelling.sources
      details := "; ".intercalate (report.problems.map (·.describe))
      suggestion := if helps then some s!"rename to '{suggestion}'" else none
      betterName := if helps then some suggestion else none }

/-- The conflicts about the occurrences of one name. -/
def ofOccurrences (r : Registry) (c : Convention) (occurrences : List Sighting) :
    List Conflict :=
  match occurrences with
  | [] => []
  | first :: _ =>
    let registered := r.get? first.parameter.name
    let display := (registered.map (·.name)).getD first.parameter.name
    let spellings := Variant.ofList (occurrences.map fun o => (o.parameter.name, o.element))
    (identity? display occurrences registered).toList ++
      (valueKind? display occurrences registered).toList ++
      (grouping? display occurrences registered).toList ++
      (formula? display occurrences registered).toList ++
      spellings.filterMap (naming? c)

end Conflict

/-- The occurrences of all names, by the keys of the names. -/
def occurrencesByKey (captures : List Capture) : SortedMap (List Sighting) :=
  .grouped (captures.flatMap fun capture =>
    capture.parameters.map fun p => (p.key, ⟨capture.elementId, p⟩))

def ConflictSurvey.detect (captures : List Capture) (r : Registry) (c : Convention) :
    ConflictSurvey :=
  ⟨captures.length, (occurrencesByKey captures).values.flatMap (Conflict.ofOccurrences r c)⟩

end Parametric
