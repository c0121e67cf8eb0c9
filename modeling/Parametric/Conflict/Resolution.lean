import Parametric.Conflict.Basic
import Parametric.Definition.Supply
import Parametric.Element.Access
import Parametric.Issue
import Parametric.State.Renaming

/-!
Resolution of conflicts: tokens are made the same on all elements, and names that do not follow the
naming convention are changed.
-/

namespace Parametric

inductive ResolutionPolicy where
  /-- The registered token counts. -/
  | registryAuthoritative
  /-- The registered token counts, or else the most common one. -/
  | mostFrequent
  /-- Nothing is changed. -/
  | manualOnly
deriving DecidableEq, Repr, Inhabited

def ResolutionPolicy.words : List (String × ResolutionPolicy) :=
  [("registry_authoritative", .registryAuthoritative), ("most_common", .mostFrequent),
   ("manual_only", .manualOnly)]

inductive Remedy where
  | standardizedIdentity (identity : Identity) (elements : List String)
  /-- A name was changed on elements, and in the registry if it was registered. -/
  | renamed (old new : String) (inRegistry : Bool) (elements : List String)
deriving DecidableEq, Repr

def Remedy.toJson : Remedy → Json
  | .standardizedIdentity identity elements =>
    .obj [("action", .str "standardized_identity"), ("identity", .str identity.text),
      ("elements", .ofTexts elements)]
  | .renamed old new inRegistry elements =>
    .obj [("action", .str "renamed"), ("from", .str old), ("to", .str new),
      ("registry", .bool inRegistry), ("elements", .ofTexts elements)]

structure SettledConflict where
  conflict : Conflict
  action : Remedy
deriving DecidableEq, Repr

structure Resolution where
  resolved : List SettledConflict := []
  manual : List Conflict := []
  errors : List Issue := []
  warnings : List Issue := []
  revision : Option String := none
deriving DecidableEq, Repr, Inhabited

def Resolution.toJson (r : Resolution) : Json :=
  .obj ([("resolved", .arr (r.resolved.map fun c =>
        .obj [("conflict", c.conflict.toJson), ("action", c.action.toJson)])),
      ("manual", .arr (r.manual.map Conflict.toJson)),
      ("errors", .arr (r.errors.map Issue.toJson)),
      ("warnings", .arr (r.warnings.map Issue.toJson))] ++
    Json.optionalMember "revision" (r.revision.map .str))

section Elements

variable {ε : Type} [ElementAccess ε]

open ElementAccess

structure Touched (ε : Type) where
  element : ε
  changed : Bool := false

def refusal (element : ε) (message : String) : Issue :=
  .about .item (ElementAccess.id element) message

/-! ## Changes of single elements -/

structure Handled (ε : Type) where
  touched : Touched ε
  supply : TokenSupply
  /-- Whether the element was changed by this. -/
  updated : Bool := false
  errors : List Issue := []

def Handled.unchanged (t : Touched ε) (supply : TokenSupply) (errors : List Issue := []) :
    Handled ε :=
  { touched := t, supply := supply, errors := errors }

/-- Puts the parameter of a definition in place of the one of a name. -/
def Touched.update (t : Touched ε) (supply : TokenSupply) (name : String) (d : Definition) :
    Handled ε :=
  let reply := ElementAccess.update t.element name d
  match reply.problem with
  | some message =>
    .unchanged { t with element := reply.element } supply [refusal t.element message]
  | none => ⟨⟨reply.element, true⟩, supply, true, []⟩

def Touched.standardize (now : Instant) (name : String) (identity : Identity)
    (supply : TokenSupply) (t : Touched ε) : Handled ε :=
  match list t.element with
  | .error message => .unchanged t supply [refusal t.element message]
  | .ok parameters =>
    match parameters.find? (·.key == keyOf name) with
    | none => .unchanged t supply
    | some p =>
      if p.identity = some identity then .unchanged t supply
      else t.update supply p.name (p.toDefinition now identity p.name)

/-- The token of a parameter under a new name: its own, the registered one, or a fresh one. -/
def CarriedParameter.tokenFor (p : CarriedParameter) (r : Registry) (supply : TokenSupply)
    (name : String) : Identity × TokenSupply :=
  match p.identity <|> (r.get? name).map (·.identity) with
  | some token => (token, supply)
  | none => supply.draw

/-- Renames the parameter of an exact spelling on an element. -/
def Touched.rename (now : Instant) (r : Registry) (old new : String) (supply : TokenSupply)
    (t : Touched ε) : Handled ε :=
  match list t.element with
  | .error message => .unchanged t supply [refusal t.element message]
  | .ok parameters =>
    match parameters.find? (·.name == old) with
    | none => .unchanged t supply
    | some p =>
      let (token, supply) := p.tokenFor r supply new
      t.update supply old (p.toDefinition now token new)

/-! ## Handling of conflicts -/

/-- Elements that were handled one after the other, with the ids of those that were changed. -/
structure HandledAll (ε : Type) where
  elements : List (Touched ε) := []
  supply : TokenSupply
  updated : List String := []
  errors : List Issue := []

/-- Handles elements one after the other. -/
def handleAll (handle : TokenSupply → Touched ε → Handled ε) (supply : TokenSupply)
    (elements : List (Touched ε)) : HandledAll ε :=
  let start : HandledAll ε := { supply := supply }
  elements.foldl (fun all t =>
    let h := handle all.supply t
    { elements := all.elements ++ [h.touched]
      supply := h.supply
      updated := all.updated ++ if h.updated then [ElementAccess.id t.element] else []
      errors := all.errors ++ h.errors }) start

/-- What is at hand while conflicts are resolved. -/
structure Resolving (ε : Type) where
  state : State
  supply : TokenSupply
  elements : List (Touched ε)
  changes : List Change := []
  result : Resolution := {}

namespace Resolving

def leave (r : Resolving ε) (c : Conflict) : Resolving ε :=
  { r with result := { r.result with manual := r.result.manual ++ [c] } }

def withElements (r : Resolving ε) (all : HandledAll ε) : Resolving ε :=
  { r with
    elements := all.elements
    supply := all.supply
    result := { r.result with errors := r.result.errors ++ all.errors } }

def settle (r : Resolving ε) (c : Conflict) (action : Remedy) : Resolving ε :=
  { r with result := { r.result with resolved := r.result.resolved ++ [⟨c, action⟩] } }

/-- The token that every copy should have. -/
def standardIdentity? (s : State) (policy : ResolutionPolicy) (c : Conflict) :
    Option Identity :=
  match s.registry.get? c.parameter with
  | some d => some d.identity
  | none => if policy = .mostFrequent then c.standardIdentity else none

def standardize (r : Resolving ε) (now : Instant) (policy : ResolutionPolicy) (c : Conflict) :
    Resolving ε :=
  match standardIdentity? r.state policy c with
  | none => r.leave c
  | some identity =>
    let all := handleAll (Touched.standardize now c.parameter identity) r.supply r.elements
    let r := r.withElements all
    -- elements that were changed stay changed, also where another one refused
    if all.errors.isEmpty then r.settle c (.standardizedIdentity identity all.updated)
    else r.leave c

def renameCopies (r : Resolving ε) (now : Instant) (c : Conflict) (old new : String)
    (inRegistry : Bool) : Resolving ε :=
  let all := handleAll (Touched.rename now r.state.registry old new) r.supply r.elements
  (r.withElements all).settle c (.renamed old new inRegistry all.updated)

/-- Renames a parameter in the registry, unless it has the new name there, and on elements. -/
def rename (r : Resolving ε) (now : Instant) (c : Conflict) : Resolving ε :=
  match c.betterName with
  | none => r.leave c
  | some new =>
    let old := c.parameter
    if (r.state.registry.spelling? old).any (· != new) then
      match r.state.rename old new with
      | .error e =>
        let warning := Issue.warning old ("not renamed: " ++ e.message)
        { r with result := { r.result with warnings := r.result.warnings ++ [warning] } }.leave c
      | .ok renamed =>
        { r with state := renamed.state, changes := r.changes ++ renamed.changes }.renameCopies
          now c old new true
    else r.renameCopies now c old new false

def handle (now : Instant) (policy : ResolutionPolicy) (r : Resolving ε) (c : Conflict) :
    Resolving ε :=
  match c.kind with
  | .identity => r.standardize now policy c
  | .naming => r.rename now c
  | .valueKind | .grouping | .formula => r.leave c

end Resolving

def Touched.save (t : Touched ε) : ε × List Issue :=
  if t.changed then
    let reply := ElementAccess.save t.element
    (reply.element,
      (reply.problem.map fun message => refusal t.element ("save failed: " ++ message)).toList)
  else (t.element, [])

/-- A resolution with the elements, the state and the supply after it. -/
structure Resolved (ε : Type) where
  result : Resolution
  elements : List ε
  state : State
  supply : TokenSupply

/-- Saves the changed elements and records the changes of definitions. -/
def Resolving.finish (r : Resolving ε) (settings : Settings) (now : Instant) : Resolved ε :=
  let saved := r.elements.map Touched.save
  let state := { r.state with
    history := r.state.history.recordChanges now "resolve naming conflicts"
      settings.registry.defaultAuthor r.changes }
  { result := { r.result with
      errors := r.result.errors ++ saved.flatMap (·.2)
      revision := if r.changes.isEmpty then none else some state.versionText }
    elements := saved.map (·.1)
    state := state
    supply := r.supply }

/-- Resolves the conflicts of a survey one after the other. -/
def State.resolve (s : State) (settings : Settings) (now : Instant) (supply : TokenSupply)
    (survey : ConflictSurvey) (policy : ResolutionPolicy) (elements : List ε) :
    Resolved ε :=
  if policy = .manualOnly then ⟨{ manual := survey.conflicts }, elements, s, supply⟩
  else
    let start : Resolving ε :=
      { state := s, supply := supply, elements := elements.map fun e => { element := e } }
    (survey.conflicts.foldl (Resolving.handle now policy) start).finish settings now

end Elements

end Parametric
