import Parametric.History.Change
import Parametric.History.Snapshot

/-!
The history of a registry: snapshots, events and commits, to which entries are only ever added.
-/

namespace Parametric

/-- What is remembered of a registry. -/
structure History where
  snapshots : List Snapshot := []
  events : List Event := []
  commits : List Commit := []
  revision : Revision
  /-- The number of the last snapshot. -/
  lastSnapshot : Nat := 0
deriving DecidableEq, Repr, Inhabited

namespace History

def start (now : Instant) : History := { revision := ⟨⟨0, 0, 0, [], []⟩, now, none⟩ }

def snapshot? (h : History) (id : SnapshotNumber) : Option Snapshot :=
  h.snapshots.find? (·.id == id)

def eventsOf (h : History) (name : String) : List Event :=
  h.events.filter fun e => keyOf e.name == keyOf name

def eventOf (now : Instant) (revision message : String) (c : Change) : Event :=
  ⟨c.definition.name, c.kind, c.definition, revision, now, message⟩

/-- The history with a commit that changes the version as `step` says. -/
def record (h : History) (now : Instant) (message : String) (author : Option String)
    (changes : List Change) (step : VersionStep) : History :=
  let revision := h.revision.advance step now
  { h with
    events := h.events ++ changes.map (eventOf now revision.version.text message)
    commits := h.commits ++
      [⟨revision, message, author, now, sortedTexts (changes.map (·.definition.name))⟩]
    revision := revision }

/-- The history with a commit that changes the version as its changes ask; nothing is recorded if
there are none. -/
def recordChanges (h : History) (now : Instant) (message : String) (author : Option String)
    (changes : List Change) : History :=
  match VersionStep.ofChanges? changes with
  | some step => h.record now message author changes step
  | none => h

def nextSnapshot (h : History) : SnapshotNumber := ⟨h.lastSnapshot + 1⟩

def addSnapshot (h : History) (now : Instant) (description : String) (registry : Registry)
    (formulas : Formulas) : History :=
  { h with
    snapshots := h.snapshots ++
      [⟨h.nextSnapshot, description, now, h.revision, registry, formulas, registry.checksum⟩]
    lastSnapshot := h.lastSnapshot + 1 }

def toJson (h : History) : Json :=
  .obj [("snapshots", .arr (h.snapshots.map Snapshot.toJson)),
    ("events", .arr (h.events.map Event.toJson)),
    ("commits", .arr (h.commits.map Commit.toJson)), ("revision", h.revision.toJson),
    ("next_snapshot", .ofNat h.lastSnapshot)]

def ofJson? (value : Json) : Option History := do
  let fields ← value.fields? ["snapshots", "events", "commits", "revision", "next_snapshot"]
  return {
    snapshots := ← fields.required "snapshots" (Json.list? Snapshot.ofJson?)
    events := ← fields.required "events" (Json.list? Event.ofJson?)
    commits := ← fields.required "commits" (Json.list? Commit.ofJson?)
    revision := ← fields.required "revision" Revision.ofJson?
    lastSnapshot := ← fields.required "next_snapshot" Json.nat? }

end History

end Parametric
