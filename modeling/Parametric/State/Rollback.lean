import Parametric.History.Difference
import Parametric.Issue
import Parametric.State.Basic

/-!
Rollback of the registry to a snapshot, and comparison of snapshots.
-/

namespace Parametric

inductive Rollback.Status where
  | rolledBack
  | notFound
  /-- The registry is rolled back, and the store refused to keep it. -/
  | persistenceFailed
deriving DecidableEq, Repr, Inhabited

def Rollback.Status.name : Rollback.Status → String
  | .rolledBack => "rolled_back"
  | .notFound => "not_found"
  | .persistenceFailed => "persistence_failed"

structure Rollback where
  status : Rollback.Status
  /-- The snapshot of the state before. -/
  safety : Option SnapshotNumber := none
  revision : String
  /-- The number of definitions afterwards. -/
  restored : Nat := 0
  errors : List Issue := []
deriving DecidableEq, Repr, Inhabited

def Rollback.unknown (id : SnapshotNumber) (revision : String) : Rollback where
  status := .notFound
  revision := revision
  errors := [.about .notFound id.text "unknown snapshot"]

def Rollback.toJson (r : Rollback) : Json :=
  .obj [("status", .str r.status.name),
    ("safety_snapshot", (r.safety.map SnapshotNumber.toJson).getD .null),
    ("revision", .str r.revision), ("restored", .ofNat r.restored),
    ("errors", .arr (r.errors.map Issue.toJson))]

/-- What happens to a definition when another registry takes the place of its own. -/
def Definition.changeInto? (d : Definition) (target : Registry) : Option Change :=
  match target.get? d.name with
  | none => some ⟨.deleted, d⟩
  | some restored => if restored.agreesWith d then none else some ⟨.updated, restored⟩

/-- The changes that lead from a registry to another one. -/
def Registry.changesInto (r target : Registry) : List Change :=
  r.definitions.filterMap (·.changeInto? target) ++
    (target.definitions.filter fun d => !r.contains d.name).map (⟨.created, ·⟩)

namespace State

def unknownSnapshot (id : SnapshotNumber) : Failure := .notFound "snapshot" id.text

def findSnapshot (s : State) (id : SnapshotNumber) : Except Failure Snapshot :=
  match s.history.snapshot? id with
  | some found => .ok found
  | none => .error (unknownSnapshot id)

def addSnapshot (s : State) (now : Instant) (description : String) : State :=
  { s with history := s.history.addSnapshot now description s.registry s.formulas }

def withSnapshot (s : State) (snapshot : Snapshot) : State :=
  { s with
    registry := snapshot.registry
    formulas := snapshot.formulas
    graph := snapshot.formulas.graph }

/-- Rolls back to a snapshot. Another snapshot is taken before, so that this can be undone. -/
def rollback (s : State) (settings : Settings) (now : Instant) (id : SnapshotNumber) :
    Rollback × State :=
  match s.history.snapshot? id with
  | none => (.unknown id s.versionText, s)
  | some target =>
    -- read before it is taken: this is the number that the safety snapshot gets
    let safety := s.history.nextSnapshot
    let changes := s.registry.changesInto target.registry
    let s := s.addSnapshot now ("safety snapshot before rollback to " ++ id.text)
    let s := s.withSnapshot target
    let s := { s with
      history := s.history.record now ("rollback to " ++ id.text)
        settings.registry.defaultAuthor changes .major }
    (⟨.rolledBack, some safety, s.versionText, s.registry.size, []⟩, s)

def compare (s : State) (a b : SnapshotNumber) : Except Failure Difference := do
  let first ← s.findSnapshot a
  let second ← s.findSnapshot b
  return first.registry.difference a b second.registry

/-- Checks that a snapshot still has the digest it was taken with. -/
def verify (s : State) (id : SnapshotNumber) : Except Failure Unit := do
  (← s.findSnapshot id).verify

/-- The difference from a snapshot to the registry, which counts as snapshot 0. -/
def differenceSince? (s : State) (id : SnapshotNumber) : Option Difference :=
  (s.history.snapshot? id).map fun snapshot =>
    snapshot.registry.difference id ⟨0⟩ s.registry

end State

end Parametric
