import Parametric.Conflict.Basic
import Parametric.Creation.Check

/-!
Conflicts between the entries of a batch and registered definitions.
-/

namespace Parametric

/-- What stands for a batch among the sources of a conflict. -/
def batchSource : String := "batch"

def Conflict.withBatch (kind : Conflict.Kind) (d : Definition) (details suggestion : String)
    (canonical : Option Identity) : Conflict where
  kind := kind
  parameter := d.name
  sources := [registrySource, batchSource]
  details := details
  suggestion := some suggestion
  standardIdentity := canonical

namespace CheckedEntry

def kindClash (e : CheckedEntry) (d : Definition) : List Conflict :=
  if d.kind = e.kind then []
  else
    let registered := d.kind.name
    let declared := e.kind.name
    [.withBatch .valueKind d s!"registered as '{registered}', batch declares '{declared}'"
      s!"keep '{registered}' or set override_conflicts" none]

def identityClash (e : CheckedEntry) (d : Definition) : List Conflict :=
  match e.identity with
  | none => []
  | some token =>
    if token = d.identity then []
    else
      [.withBatch .identity d
        ("registered identity " ++ d.identity.text ++ ", batch carries " ++ token.text)
        "the registered identity is kept" (some d.identity)]

def groupClash (e : CheckedEntry) (d : Definition) : List Conflict :=
  match e.proposal.group with
  | none => []
  | some group =>
    if Text.sameAscii group d.group then []
    else
      [.withBatch .grouping d s!"registered in group '{d.group}', batch uses '{group}'"
        s!"move to '{group}'" none]

def clashes (e : CheckedEntry) (r : Registry) : List Conflict :=
  match r.get? e.name with
  | none => []
  | some d => e.kindClash d ++ e.identityClash d ++ e.groupClash d

end CheckedEntry

def Conflict.issue (c : Conflict) : Issue := .about .conflict c.parameter c.details

end Parametric
