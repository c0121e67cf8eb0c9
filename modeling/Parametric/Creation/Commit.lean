import Parametric.Creation.Clash
import Parametric.Creation.Outcome
import Parametric.Creation.Staging

/-!
Creation of definitions in batches. A batch is refused as a whole if one of its entries does not
pass the checks or changes a kind; after that each entry succeeds or fails on its own.
-/

namespace Parametric

structure Committing where
  state : State
  changes : List Change := []
  createdNames : List String := []
  updatedNames : List String := []
  skipped : Nat := 0
  warnings : List Issue := []

namespace Committing

/-- Counts a staged entry, whose definition is registered. -/
def count (c : Committing) (e : StagedEntry) : Committing :=
  match e.outcome, c.state.registry.get? e.entry.name with
  | .skipped, _ => { c with skipped := c.skipped + 1 }
  | _, none => c
  | .created, some d =>
    { c with
      changes := c.changes ++ [⟨.created, d⟩]
      createdNames := c.createdNames ++ [e.entry.name] }
  | .updated, some d =>
    { c with
      changes := c.changes ++ [⟨.updated, d⟩]
      updatedNames := c.updatedNames ++ [e.entry.name] }

def danglingWarnings (s : State) (e : StagedEntry) : List Issue :=
  match e.dangling? s.registry s.formulas with
  | none => []
  | some name =>
    [.about .item e.entry.name s!"formula references '{name}', which is not registered"]

def storedFormula? (settings : Settings) (now : Instant) (e : CheckedEntry) :
    Option StoredFormula :=
  e.formula.map fun f =>
    ⟨e.name, f.render settings.formula.style, e.proposal.formula.getD "", f.references, now⟩

def commit (c : Committing) (settings : Settings) (now : Instant) (e : StagedEntry) : Committing :=
  let c := { c with warnings := c.warnings ++ danglingWarnings c.state e }
  let c := c.count e
  match storedFormula? settings now e.entry with
  | some f => { c with state := c.state.putFormula f }
  | none => c

end Committing

namespace State

def batchMessage (batch : Batch) (c : Committing) : String :=
  batch.message.getD
    s!"batch: {c.createdNames.length} created, {c.updatedNames.length} updated"

/-- Commits what was staged. -/
def commitStaging (s : State) (settings : Settings) (now : Instant) (batch : Batch)
    (staging : Staging) : Committing :=
  -- all definitions are registered before the first formula is stored
  let start : Committing := { state := { s with registry := staging.registry } }
  let c := staging.staged.foldl (·.commit settings now ·) start
  { c with
    state := { c.state with
      history := c.state.history.recordChanges now (batchMessage batch c)
        settings.registry.defaultAuthor c.changes } }

def batchResult (cancelled : Bool) (conflicts : List Conflict) (staging : Staging)
    (c : Committing) : BatchOutcome where
  status :=
    if cancelled then .cancelled
    else if staging.failed.isEmpty then .completed
    else .completedWithErrors
  createdNames := c.createdNames
  updatedNames := c.updatedNames
  skipped := c.skipped
  failed := staging.failed.length
  errors := staging.failed.map FailedEntry.issue
  warnings := c.warnings ++ conflicts.map Conflict.issue
  conflicts := conflicts
  revision := if c.changes.isEmpty then none else some c.state.versionText

/-- Creates or updates the definitions of a batch. -/
def create (s : State) (settings : Settings) (now : Instant) (supply : TokenSupply)
    (batch : Batch) (cancelled : Bool) : BatchOutcome × State × TokenSupply :=
  if batch.entries.isEmpty then
    ({ status := .rejected, errors := [⟨.structural, none, "batch has no entries"⟩] }, s, supply)
  else
    match s.checkEntries settings batch.entries with
    | .error issues =>
      ({ status := .validationFailed, failed := batch.entries.length, errors := issues }, s, supply)
    | .ok entries =>
      let conflicts := entries.flatMap (·.clashes s.registry)
      let critical := conflicts.filter (·.severity == .critical)
      if !critical.isEmpty && !batch.overridesConflicts then
        ({ status := .conflictsDetected, errors := critical.map Conflict.issue,
           conflicts := conflicts }, s, supply)
      else
        -- a cancelled batch passes the checks above, and is committed without its entries
        let staging :=
          Staging.ofEntries settings now s supply (if cancelled then [] else entries)
        let c := s.commitStaging settings now batch staging
        (batchResult cancelled conflicts staging c, c.state, staging.supply)

end State

end Parametric
