import Parametric.Proofs.Dependency.Renaming
import Parametric.Proofs.History
import Parametric.Proofs.State.Transition

/-!
# Invariants of all runs

What every operation keeps, whatever it is asked for.
-/

namespace Parametric

open Engine

variable {ε : Type}

/-- Whether an action adds no snapshot and goes back to none. -/
def Action.KeepsSnapshots : Action ε → Prop
  | .addSnapshot _ | .rollback _ => False
  | _ => True

variable [ElementAccess ε]

namespace State

variable {s s' : State} {settings : Settings} {now : Instant}

/-! ## Graphs -/

/-- Every operation keeps the graph coherent. -/
theorem coherent_perform (h : s.graph.Coherent) (action : Action ε) :
    (s.perform settings now action).graph.Coherent := by
  have hstep := s.becomes_perform settings now action
  generalize s.perform settings now action = s' at hstep ⊢
  cases hstep with
  | same | captured | used => exact h
  | created _ hcommitted =>
      rw [hcommitted.graph]
      exact h.setAll
  | compiled hplan =>
      rw [graph_commitPlan]
      exact h.setReferences
  | dropped hdrop =>
      obtain ⟨f, -, rfl⟩ := dropFormula_eq_some hdrop
      exact h.dropFormula
  | deleted _ _ =>
      simp only [dropDefinition]
      split
      · exact h.dropFormula
      · exact h
  | resolved hrenames => exact hrenames.keeps (P := (·.graph.Coherent)) h fun _ _ _ h => h.rename
  | rolledBack _ => exact Graph.Coherent.empty.setAll

/-! ## Snapshots -/

theorem snapshots_perform {action : Action ε} (h : action.KeepsSnapshots) :
    (s.perform settings now action).history.snapshots = s.history.snapshots := by
  have hstep := s.becomes_perform settings now action
  generalize s.perform settings now action = s' at hstep ⊢
  cases hstep with
  | same | used => rfl
  | created _ hcommitted =>
      obtain ⟨_, hhistory⟩ := hcommitted.history
      rw [hhistory, History.snapshots_recordChanges]
  | compiled _ => rw [history_commitPlan, History.snapshots_record]
  | dropped hdrop =>
      obtain ⟨f, -, rfl⟩ := dropFormula_eq_some hdrop
      rfl
  | deleted _ _ => exact History.snapshots_recordChanges
  | resolved hrenames =>
      refine History.snapshots_recordChanges.trans ?_
      exact hrenames.keeps (P := (·.history.snapshots = s.history.snapshots)) rfl fun _ _ _ h => h
  | captured | rolledBack _ => exact h.elim

/-- A property of the registry and the formula table, which those of all snapshots have as well. -/
structure Throughout (P : Registry → Formulas → Prop) (s : State) : Prop where
  live : P s.registry s.formulas
  snapshots : ∀ snapshot ∈ s.history.snapshots, P snapshot.registry snapshot.formulas

namespace Throughout

variable {P : Registry → Formulas → Prop}

theorem of_snapshots (h : s.Throughout P) (hlive : P s'.registry s'.formulas)
    (hsnapshots : s'.history.snapshots = s.history.snapshots) : s'.Throughout P :=
  ⟨hlive, hsnapshots ▸ h.snapshots⟩

theorem addSnapshot (h : s.Throughout P) (now : Instant) (description : String) :
    (s.addSnapshot now description).Throughout P where
  live := h.live
  snapshots := by
    intro snapshot hm
    rcases History.mem_snapshots_addSnapshot hm with hm | ⟨hregistry, hformulas⟩
    · exact h.snapshots snapshot hm
    · rw [hregistry, hformulas]
      exact h.live

/-- What a snapshot adds and what a rollback brings back has the property already. -/
theorem perform (h : s.Throughout P) {action : Action ε} (hlive : action.KeepsSnapshots →
      P (s.perform settings now action).registry (s.perform settings now action).formulas) :
    (s.perform settings now action).Throughout P := by
  by_cases hkeeps : action.KeepsSnapshots
  · exact h.of_snapshots (hlive hkeeps) (snapshots_perform hkeeps)
  · have hstep := s.becomes_perform settings now action
    generalize s.perform settings now action = s' at hstep ⊢
    cases hstep with
    | same => exact h
    | captured => exact h.addSnapshot now _
    | rolledBack hfound =>
        exact ⟨h.snapshots _ (History.mem_of_snapshot? hfound), (h.addSnapshot now _).snapshots⟩
    | _ => exact absurd trivial hkeeps

theorem lasting (hempty : P {} {}) : Engine.Lasting (Throughout P) where
  start := fun _ => ⟨hempty, by simp [State.start, History.start]⟩
  stored := fun h => ⟨h.live, h.snapshots⟩

end Throughout

/-! ## Registries -/

/-- The registry and the registries of all snapshots have their definitions under their keys. -/
structure Keyed (s : State) : Prop where
  registry : s.registry.Keyed
  snapshots : ∀ snapshot ∈ s.history.snapshots, snapshot.registry.Keyed

theorem keyed_iff : s.Keyed ↔ s.Throughout fun r _ => r.Keyed :=
  ⟨fun h => ⟨h.registry, h.snapshots⟩, fun h => ⟨h.live, h.snapshots⟩⟩

theorem keyed_setFormulaText (h : s.registry.Keyed) (name text : String) :
    (s.setFormulaText name text).1.registry.Keyed := by
  simp only [setFormulaText]
  split
  · exact h
  · rename_i d hd
    split
    · exact h
    · exact h.modify fun d' hd' => by
        rw [hd] at hd'
        cases hd'
        rfl

theorem keyed_moveDefinition (h : s.registry.Keyed) (d : Definition) (new : String) :
    (s.moveDefinition d new).registry.Keyed :=
  (h.remove d.name).put { d with name := new }

/-- Every operation keeps definitions under the keys of their names. -/
theorem Keyed.perform (h : s.Keyed) (action : Action ε) :
    (s.perform settings now action).Keyed := by
  refine keyed_iff.mpr ((keyed_iff.mp h).perform fun hkeeps => ?_)
  replace h := h.registry
  have hstep := s.becomes_perform settings now action
  generalize s.perform settings now action = s' at hstep ⊢
  cases hstep with
  | same => exact h
  | created _ hcommitted =>
      rw [hcommitted.registry]
      exact (Staging.tracks_ofEntries settings now h _ _).keyed
  | compiled _ => exact keyed_countUses (keyed_setFormulaText (s := s.putFormula ⟨_, _, _, _, now⟩) h _ _) _
  | dropped hdrop =>
      obtain ⟨f, -, rfl⟩ := dropFormula_eq_some hdrop
      exact h.modify fun _ _ => rfl
  | @deleted _ _ d _ _ =>
      rw [registry_dropDefinition]
      exact h.remove d.name
  | resolved hrenames =>
      exact hrenames.keeps (P := (·.registry.Keyed)) h fun _ _ _ h => keyed_moveDefinition h _ _
  | captured | rolledBack _ => exact hkeeps.elim
  | used => exact keyed_countUses h _

/-! ## Formula tables -/

/-- The formula table and the tables of all snapshots have their formulas under the keys of their
results. -/
structure Tabled (s : State) : Prop where
  formulas : s.formulas.Keyed
  snapshots : ∀ snapshot ∈ s.history.snapshots, snapshot.formulas.Keyed

theorem tabled_iff : s.Tabled ↔ s.Throughout fun _ t => t.Keyed :=
  ⟨fun h => ⟨h.formulas, h.snapshots⟩, fun h => ⟨h.live, h.snapshots⟩⟩

/-- Every operation keeps formulas under the keys of their results. -/
theorem Tabled.perform (h : s.Tabled) (action : Action ε) :
    (s.perform settings now action).Tabled := by
  refine tabled_iff.mpr ((tabled_iff.mp h).perform fun hkeeps => ?_)
  replace h := h.formulas
  have hstep := s.becomes_perform settings now action
  generalize s.perform settings now action = s' at hstep ⊢
  cases hstep with
  | same | used => exact h
  | created _ hcommitted =>
      rw [hcommitted.formulas]
      exact h.putAll _
  | @compiled _ _ _ checked _ =>
      rw [formulas_commitPlan]
      exact h.insert ⟨checked.plan.result, _, _, _, now⟩
  | dropped hdrop =>
      obtain ⟨f, -, rfl⟩ := dropFormula_eq_some hdrop
      exact h.erase
  | deleted _ _ =>
      simp only [dropDefinition]
      split
      · exact h.erase
      · exact h
  | resolved hrenames => exact hrenames.keeps (P := (·.formulas.Keyed)) h fun _ _ _ h => h.moveResult _ _
  | captured | rolledBack _ => exact hkeeps.elim

end State

/-! ## Runs -/

theorem coherent_invariant :
    Engine.Invariant (ε := ε) (fun s => s.graph.Coherent) fun _ => True where
  start := fun _ => .empty
  stored := fun _ => Graph.Coherent.empty.setAll
  perform := fun _ _ _ action _ h => State.coherent_perform h action

theorem keyed_lasting : Engine.Lasting State.Keyed :=
  (State.Throughout.lasting .empty).congr fun _ => State.keyed_iff

theorem keyed_invariant : Engine.Invariant (ε := ε) State.Keyed fun _ => True where
  toLasting := keyed_lasting
  perform := fun _ _ _ action _ h => h.perform action

theorem tabled_lasting : Engine.Lasting State.Tabled :=
  (State.Throughout.lasting .empty).congr fun _ => State.tabled_iff

theorem tabled_invariant : Engine.Invariant (ε := ε) State.Tabled fun _ => True where
  toLasting := tabled_lasting
  perform := fun _ _ _ action _ h => h.perform action

end Parametric
