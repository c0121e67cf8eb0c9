import Parametric.Proofs.Creation.Commit
import Parametric.Proofs.Engine.Run
import Parametric.Proofs.State.Steps

/-!
# Transitions of states

What an action can make of a state is said once, as a relation with a case for each action that changes
something. What every action keeps is proved by cases on it.
-/

namespace Parametric.State

/-- A state that comes about when definitions get better names from some conflicts, one after the other, with
the changes that this amounts to. -/
inductive Renames (conflicts : List Conflict) (s : State) : State → List Change → Prop
  | refl : Renames conflicts s s []
  | rename {s' : State} {changes : List Change} {c : Conflict} {old new : String} {renamed : Renamed}
      (before : Renames conflicts s s' changes) (mem : c ∈ conflicts) (better : c.betterName = some new)
      (ok : s'.rename old new = .ok renamed) :
      Renames conflicts s renamed.state (changes ++ renamed.changes)

/-- What survives every definition that moves to a better name holds in the end. -/
theorem Renames.keeps {P : State → Prop} {conflicts : List Conflict} {s s' : State} {changes : List Change}
    (h : s.Renames conflicts s' changes) (hs : P s)
    (hmove : ∀ {s : State} {c : Conflict} {old new : String} {d : Definition}, c ∈ conflicts →
      c.betterName = some new → s.registry.get? old = some d → P s → P (s.moveDefinition d new)) : P s' := by
  induction h with
  | refl => exact hs
  | rename _ hmem hbetter hok ih =>
      obtain ⟨d, hd, -, -, rfl⟩ := rename_eq_ok hok
      exact hmove hmem hbetter hd ih

variable {ε : Type}

/-- A state that an action can make of another one. Every action can leave the state as it is. -/
inductive Becomes (settings : Settings) (now : Instant) (s : State) : Action ε → State → Prop
  | same {action : Action ε} : Becomes settings now s action s
  | created {supply : TokenSupply} {batch : Batch} {cancelled : Bool} {entries : List CheckedEntry} {s' : State}
      (checked : s.checkEntries settings batch.entries = .ok entries)
      (committed : s.Committed settings now
        (.ofEntries settings now s supply (if cancelled then [] else entries)) s') :
      Becomes settings now s (.create supply batch cancelled) s'
  | compiled {options : CompileOptions} {result source : String} {checked : CheckedPlan}
      (planned : s.plan settings options result source = .ok checked) :
      Becomes settings now s (.compile options result source) (s.commitPlan settings now checked.plan)
  | dropped {name : String} {s' : State} (dropped : s.dropFormula settings now name = some s') :
      Becomes settings now s (.dropFormula name) s'
  | deleted {name : String} {force : Bool} {d : Definition} (registered : s.registry.get? name = some d)
      (unused : force = false → s.graph.users d.name = []) :
      Becomes settings now s (.delete name force)
        { registry := (s.dropDefinition d).registry
          formulas := (s.dropDefinition d).formulas
          graph := (s.dropDefinition d).graph
          history := s.history.recordChanges now ("delete " ++ d.name) settings.registry.defaultAuthor
            [⟨.deleted, d⟩] }
  | resolved {supply : TokenSupply} {survey : ConflictSurvey} {policy : ResolutionPolicy} {elements : List ε}
      {s' : State} {changes : List Change} (renames : s.Renames survey.conflicts s' changes) :
      Becomes settings now s (.resolve supply survey policy elements)
        { s' with
          history := s'.history.recordChanges now "resolve naming conflicts" settings.registry.defaultAuthor
            changes }
  | captured {description : String} :
      Becomes settings now s (.addSnapshot description) (s.addSnapshot now description)
  | rolledBack {id : SnapshotNumber} {target : Snapshot} {description : String}
      (found : s.history.snapshot? id = some target) :
      Becomes settings now s (.rollback id)
        { registry := target.registry
          formulas := target.formulas
          graph := target.formulas.graph
          history := (s.history.addSnapshot now description s.registry s.formulas).record now
            ("rollback to " ++ id.text) settings.registry.defaultAuthor
            (s.registry.changesInto target.registry) .major }
  | used {names : List String} : Becomes settings now s (.countUses names) (s.countUses names)

/-- No action does anything else. -/
theorem becomes_perform [ElementAccess ε] (s : State) (settings : Settings) (now : Instant) (action : Action ε) :
    s.Becomes settings now action (s.perform settings now action) := by
  cases action with
  | nothing => exact .same
  | create supply batch cancelled =>
      rcases s.create_cases settings now batch supply cancelled with hs | ⟨entries, hcheck, hcommitted⟩
      · rw [perform, hs]
        exact .same
      · exact .created hcheck hcommitted
  | compile options result source =>
      rw [perform]
      rcases s.compile_cases settings now options result source with hs | ⟨checked, hplan, hs⟩
      · rw [hs]
        exact .same
      · rw [hs]
        exact .compiled hplan
  | dropFormula name =>
      rw [perform]
      cases hs : s.dropFormula settings now name with
      | none => exact .same
      | some s' => exact .dropped hs
  | delete name force =>
      rw [perform]
      rcases s.delete_cases settings now name force with hs | ⟨d, hd, husers, hs⟩
      · rw [hs]
        exact .same
      · rw [hs]
        exact .deleted hd husers
  | resolve supply survey policy elements =>
      rw [perform]
      rcases resolve_cases settings now (P := s.Renames survey.conflicts) supply survey policy elements .refl
        (fun ⟨_, hmem, hbetter⟩ hs hok => .rename hs hmem hbetter hok) with hs | ⟨s', changes, hrenames, hs⟩
      · rw [hs]
        exact .same
      · rw [hs]
        exact .resolved hrenames
  | addSnapshot description => exact .captured
  | rollback id =>
      rw [perform]
      rcases s.rollback_cases settings now id with hs | ⟨target, description, hfound, hs⟩
      · rw [hs]
        exact .same
      · rw [hs]
        exact .rolledBack hfound
  | countUses names => exact .used

end Parametric.State
