import Parametric.Creation.Check
import Parametric.Definition.Supply

/-!
Staging of the entries of a batch: each entry is written to the registry unless it fails, and
entries whose formulas turn out to reference nothing are taken back.
-/

namespace Parametric

inductive StagingError where
  | tooLong (length limit : Nat)
  | collision
  | identityTaken (owner : String)
  /-- A name in the formula is not known after all. -/
  | uncommittedReference (name : String)
deriving DecidableEq, Repr

def StagingError.message : StagingError → String
  | .tooLong length limit => s!"normalized name is {length} characters, limit is {limit}"
  | .collision => "collides with an earlier entry after normalization"
  | .identityTaken owner => s!"identity token already belongs to '{owner}'"
  | .uncommittedReference name => s!"formula references '{name}', which was not committed"

structure FailedEntry where
  name : String
  error : StagingError
deriving DecidableEq, Repr

def FailedEntry.issue (f : FailedEntry) : Issue := .about .item f.name f.error.message

inductive StagedAs where
  | created
  | updated
  /-- The registered definition already has the shape that is asked for. -/
  | skipped
deriving DecidableEq, Repr

/-- An entry that is written to the registry. -/
structure StagedEntry where
  entry : CheckedEntry
  outcome : StagedAs
  /-- The definition that was registered before. -/
  previous : Option Definition

/-- The first name in the formula of a staged entry that is not known. -/
def StagedEntry.dangling? (e : StagedEntry) (registry : Registry) (formulas : Formulas) :
    Option String := do
  (← e.entry.formula).references.find? fun name =>
    !registry.contains name && !formulas.contains (keyOf name)

structure Staging where
  registry : Registry
  supply : TokenSupply
  /-- The keys of the entries so far. -/
  seen : List String := []
  staged : List StagedEntry := []
  failed : List FailedEntry := []

namespace CheckedEntry

def group (e : CheckedEntry) (settings : Settings) : String :=
  match e.proposal.group with
  | some group => if Text.isBlankText group then settings.registry.defaultGroup else group
  | none => settings.registry.defaultGroup

def formulaText? (e : CheckedEntry) (settings : Settings) : Option String :=
  e.formula.map fun f => f.render settings.formula.style

/-- A registered definition with all that an entry asks for. -/
def updated (e : CheckedEntry) (settings : Settings) (d : Definition) : Definition :=
  { d with
    kind := e.kind
    group := e.group settings
    visible := e.proposal.visible
    perElement := e.proposal.perElement
    allowMissing := e.proposal.allowMissing
    formula := e.formulaText? settings <|> d.formula
    description := e.proposal.description <|> d.description
    category := e.proposal.category <|> d.category }

def definition (e : CheckedEntry) (settings : Settings) (now : Instant) (token : Identity) :
    Definition where
  identity := token
  name := e.name
  kind := e.kind
  group := e.group settings
  visible := e.proposal.visible
  formula := e.formulaText? settings
  description := e.proposal.description
  category := e.proposal.category
  perElement := e.proposal.perElement
  allowMissing := e.proposal.allowMissing
  createdAt := now

/-- The other definition that has the token of an entry. -/
def tokenOwner? (e : CheckedEntry) (r : Registry) : Option Definition := do
  let owner ← r.ownerOf? (← e.identity)
  if owner.key = keyOf e.name then none else some owner

/-- Why an entry fails, if it does. -/
def stagingError? (e : CheckedEntry) (settings : Settings) (s : Staging) : Option StagingError :=
  if e.name.length > settings.naming.maxLength then
    some (.tooLong e.name.length settings.naming.maxLength)
  else if s.seen.contains (keyOf e.name) then some .collision
  else (e.tokenOwner? s.registry).map (.identityTaken ·.name)

end CheckedEntry

namespace Staging

def write (s : Staging) (settings : Settings) (now : Instant) (e : CheckedEntry) : Staging :=
  match s.registry.get? e.name with
  | some previous =>
    let updated := e.updated settings previous
    -- what changes nothing is staged all the same: its formula is stored with the others
    if updated.agreesWith previous then
      { s with staged := s.staged ++ [⟨e, .skipped, some previous⟩] }
    else
      { s with
        registry := s.registry.put updated
        staged := s.staged ++ [⟨e, .updated, some previous⟩] }
  | none =>
    let (token, supply) := match e.identity with
      | some token => (token, s.supply)
      | none => s.supply.draw
    { s with
      registry := s.registry.put (e.definition settings now token)
      supply := supply
      staged := s.staged ++ [⟨e, .created, none⟩] }

/-- The keys that are taken after an entry; an entry whose name is too long takes none. -/
def seenAfter (s : Staging) (settings : Settings) (e : CheckedEntry) : List String :=
  if e.name.length > settings.naming.maxLength then s.seen else keyOf e.name :: s.seen

def stage (s : Staging) (settings : Settings) (now : Instant) (e : CheckedEntry) : Staging :=
  let seen := s.seenAfter settings e
  match e.stagingError? settings s with
  | some error => { s with seen := seen, failed := s.failed ++ [⟨e.name, error⟩] }
  | none => { s.write settings now e with seen := seen }

/-- The registry without what a staged entry did. -/
def undo (r : Registry) (e : StagedEntry) : Registry :=
  match e.previous with
  | some d => r.put d
  | none => r.remove e.entry.name

/-- Takes the first element out of a list for which a function has a value. -/
def takeFirst? {α β : Type} (f : α → Option β) : List α → Option (α × β × List α)
  | [] => none
  | a :: rest =>
    match f a with
    | some b => some (a, b, rest)
    | none => (takeFirst? f rest).map fun (x, b, others) => (x, b, a :: others)

theorem length_of_takeFirst? {α β : Type} {f : α → Option β} {l : List α} {a : α} {b : β}
    {rest : List α} (h : takeFirst? f l = some (a, b, rest)) : rest.length < l.length := by
  induction l generalizing rest with
  | nil => simp [takeFirst?] at h
  | cons x xs ih =>
    simp only [takeFirst?] at h
    split at h
    · simp only [Option.some.injEq, Prod.mk.injEq] at h
      simp [← h.2.2]
    · simp only [Option.map_eq_some_iff, Prod.mk.injEq, Prod.exists] at h
      obtain ⟨x', b', others, hx, rfl, rfl, rfl⟩ := h
      simpa using ih hx

/-- The unknown name in the formula of a staged entry that may not have one. -/
def broken? (registry : Registry) (formulas : Formulas) (e : StagedEntry) : Option String :=
  if e.entry.proposal.allowMissing then none else e.dangling? registry formulas

/-- Takes back staged entries, the first one first, until no formula references an unknown name
that it may not reference. -/
def settle (s : Staging) (formulas : Formulas) : Staging :=
  match h : takeFirst? (broken? s.registry formulas) s.staged with
  | none => s
  | some (e, name, others) =>
    have : others.length < s.staged.length := length_of_takeFirst? h
    -- from the first entry again: a name that it may have relied on is gone now
    settle { s with
      registry := undo s.registry e
      staged := others
      failed := s.failed ++ [⟨e.entry.name, .uncommittedReference name⟩] } formulas
termination_by s.staged.length

end Staging

def Staging.ofEntries (settings : Settings) (now : Instant) (s : State) (supply : TokenSupply)
    (entries : List CheckedEntry) : Staging :=
  let start : Staging := { registry := s.registry, supply := supply }
  (entries.foldl (·.stage settings now ·) start).settle s.formulas

end Parametric
