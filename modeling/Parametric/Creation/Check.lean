import Parametric.Definition.Proposal
import Parametric.Dependency.Search
import Parametric.Formula.Parser
import Parametric.Formula.Spelling
import Parametric.Issue
import Parametric.State.Basic

/-!
Checks of the entries of a batch. One entry that fails refuses the whole batch.
-/

namespace Parametric

open Formula (SyntaxError Spellings)

inductive EntryError where
  | emptyName
  | noUsableCharacters (name : String)
  | reservedName (name : String)
  | unknownKind (text : String)
  | invalidIdentity (text : String)
  | malformedFormula (error : SyntaxError)
  | unknownReference (name : String)

def EntryError.message : EntryError → String
  | .emptyName => "name is empty"
  | .noUsableCharacters name => s!"'{name}' has no usable characters"
  | .reservedName name => s!"'{Text.trim name}' is a reserved system name"
  | .unknownKind text => s!"unknown value kind '{text}'"
  | .invalidIdentity text => s!"invalid identity token '{text}'"
  | .malformedFormula error => "formula: " ++ (Failure.ofSyntax error).message
  | .unknownReference name => s!"formula references unknown parameter '{name}'"

/-- An entry that passed all checks. -/
structure CheckedEntry where
  proposal : Proposal
  /-- The registered spelling of the name, or else the normalized one. -/
  name : String
  kind : ValueKind
  identity : Option Identity
  /-- The formula with its names in their spellings. -/
  formula : Option Formula.Term

namespace State

def entryName (s : State) (settings : Settings) (p : Proposal) : String :=
  let normalized := settings.naming.normalize p.name
  (s.registry.spelling? normalized).getD normalized

/-- The names that the entries of a batch are registered under, with their keys. -/
def batchNames (s : State) (settings : Settings) (entries : List Proposal) : SortedMap String :=
  let usable := entries.filter fun p => settings.naming.normalize p.name != ""
  .ofList (usable.map fun p =>
    let name := s.entryName settings p
    (keyOf name, name))

/-- The name that a reference in the formula of an entry means. -/
def meaningIn? (s : State) (batch : SortedMap String) (own name : String) : Option String :=
  if keyOf name = keyOf own then some own
  else s.spelling? name <|> batch.get? (keyOf name)

end State

namespace Proposal

/-- The text of the token, unless it is blank. -/
def identityText? (p : Proposal) : Option String :=
  p.identity.filter fun text => !Text.isBlankText text

/-- The token that a proposal brings along, if its text is one. -/
def token? (p : Proposal) : Option Identity := p.identityText?.bind Identity.parseTrimmed?

def nameErrors (settings : Settings) (p : Proposal) : List EntryError :=
  let normalized := settings.naming.normalize p.name
  (if Text.isBlankText p.name then [.emptyName]
    else if normalized = "" then [.noUsableCharacters p.name]
    else []) ++
  if settings.registry.reserves p.name || settings.registry.reserves normalized then
    [.reservedName p.name]
  else []

def kindErrors (p : Proposal) : List EntryError :=
  if (ValueKind.named? p.kind).isNone then [.unknownKind p.kind] else []

def identityErrors (p : Proposal) : List EntryError :=
  match p.identityText? with
  | some text => if p.token?.isNone then [.invalidIdentity text] else []
  | none => []

/-- The formula of a proposal as it is written, if it has one. -/
def parsed? (p : Proposal) : Option (Except SyntaxError Formula.Term) :=
  p.source?.map Formula.parse

def formulaErrors (meaning : String → Option String) (p : Proposal) : List EntryError :=
  match p.parsed? with
  | none => []
  | some (.error error) => [.malformedFormula error]
  | some (.ok e) =>
    if p.allowMissing then []
    else
      (e.references.filter fun name => (meaning name).isNone).map .unknownReference

/-- The formula of a proposal with its names in their spellings, if it can be parsed. -/
def formula? (meaning : String → Option String) (p : Proposal) : Option Formula.Term :=
  match p.parsed? with
  | some (.ok e) => some (e.respelled (.ofNames meaning e.references))
  | _ => none

/-- What issues call an entry: its name, or its number in the batch. -/
def label (number : Nat) (p : Proposal) : String :=
  if Text.isBlankText p.name then s!"entry {number}" else Text.trim p.name

end Proposal

namespace State

def entryErrors (s : State) (settings : Settings) (batch : SortedMap String) (p : Proposal) :
    List EntryError :=
  p.nameErrors settings ++ p.kindErrors ++ p.identityErrors ++
    p.formulaErrors (s.meaningIn? batch (s.entryName settings p))

/-- The issues about the entries of a batch, counted from `number`. -/
def entryIssues (s : State) (settings : Settings) (batch : SortedMap String) (number : Nat) :
    List Proposal → List Issue
  | [] => []
  | p :: rest =>
    (s.entryErrors settings batch p).map (fun e => .about .validation (p.label number) e.message) ++
      s.entryIssues settings batch (number + 1) rest

/-- An entry with all that is known about it, if its kind is. -/
def checked? (s : State) (settings : Settings) (batch : SortedMap String) (p : Proposal) :
    Option CheckedEntry :=
  let name := s.entryName settings p
  (ValueKind.named? p.kind).map fun kind =>
    ⟨p, name, kind, p.token?, p.formula? (s.meaningIn? batch name)⟩

/-- The names and references of those entries that have a formula. -/
def batchFormulas (s : State) (settings : Settings) (batch : SortedMap String)
    (entries : List Proposal) : List (String × List String) :=
  entries.filterMap fun p =>
    let name := s.entryName settings p
    (p.formula? (s.meaningIn? batch name)).map fun e => (name, e.references)

def cycleIssues (s : State) (formulas : List (String × List String)) : List Issue :=
  match s.graph.cycleWithAll formulas with
  | none => []
  | some path =>
    [{ Issue.ofFailure (.cycle path) with subject := formulas.head?.map (·.1) }]

def checkEntries (s : State) (settings : Settings) (entries : List Proposal) :
    Except (List Issue) (List CheckedEntry) :=
  let batch := s.batchNames settings entries
  let issues := s.entryIssues settings batch 1 entries ++
    s.cycleIssues (s.batchFormulas settings batch entries)
  if issues.isEmpty then .ok (entries.filterMap (s.checked? settings batch))
  else .error issues

end State

end Parametric
