import Parametric.Element.Local
import Parametric.Proofs.Creation.Check
import Parametric.Proofs.Formula.References
import Parametric.Proofs.State.Invariants

/-!
# Cycles and the compiler

As long as formulas come from the compiler only, there is never a cycle, neither in the graph nor in
the formulas of a snapshot. Each formula is checked before it is committed, and what is committed
references no more than what was checked.
-/

namespace Parametric

open Relation

/-- Whether an action leaves it to the compiler to set formulas. -/
def Action.CompilesFormulas {ε : Type} : Action ε → Prop
  | .create _ batch _ => ∀ p ∈ batch.entries, p.source? = none
  | .resolve .. => False
  | _ => True

namespace State

/-- The graph is that of the formulas and has no cycles, and neither have the formulas of any
snapshot. -/
structure Layered (s : State) : Prop where
  keyed : s.formulas.Keyed
  represents : s.graph.Represents s.formulas
  acyclic : s.graph.Acyclic
  snapshots : ∀ snapshot ∈ s.history.snapshots,
    snapshot.formulas.Keyed ∧ snapshot.formulas.graph.Acyclic

variable {s s' : State} {settings : Settings} {now : Instant}

namespace Layered

theorem start : Layered (.start now) where
  keyed := .empty
  represents := .empty
  acyclic := Graph.acyclic_empty
  snapshots := by simp [State.start, History.start]

theorem of_eq (h : s.Layered) (hformulas : s'.formulas = s.formulas) (hgraph : s'.graph = s.graph)
    (hsnapshots : s'.history.snapshots = s.history.snapshots) : s'.Layered where
  keyed := hformulas ▸ h.keyed
  represents := hformulas ▸ hgraph ▸ h.represents
  acyclic := hgraph ▸ h.acyclic
  snapshots := hsnapshots ▸ h.snapshots

/-- The graph that is built anew from the formulas has no cycles. -/
theorem acyclic_graph (h : s.Layered) : s.formulas.graph.Acyclic :=
  (h.represents.acyclic_iff (.graph h.keyed)).mp h.acyclic

theorem stored (h : s.Layered) : Layered (.ofStored s.stored) where
  keyed := h.keyed
  represents := .graph h.keyed
  acyclic := h.acyclic_graph
  snapshots := h.snapshots

theorem addSnapshot (h : s.Layered) (now : Instant) (description : String) :
    (s.addSnapshot now description).Layered where
  keyed := h.keyed
  represents := h.represents
  acyclic := h.acyclic
  snapshots := by
    intro snapshot hm
    rcases History.mem_snapshots_addSnapshot hm with hm | ⟨-, hm⟩
    · exact h.snapshots snapshot hm
    · exact hm ▸ ⟨h.keyed, h.acyclic_graph⟩

theorem dropFormula (h : s.Layered) (name : String)
    (hformulas : s'.formulas = s.formulas.erase (keyOf name))
    (hgraph : s'.graph = s.graph.dropFormula name)
    (hsnapshots : s'.history.snapshots = s.history.snapshots) : s'.Layered where
  keyed := hformulas ▸ h.keyed.erase
  represents := hformulas ▸ hgraph ▸ h.represents.dropFormula
  acyclic := hgraph ▸ Graph.acyclic_dropFormula h.represents.toWellFormed h.acyclic
  snapshots := hsnapshots ▸ h.snapshots

end Layered

/-! ## Plans -/

theorem cycleWith_plan {options : CompileOptions} {name source : String} {checked : CheckedPlan}
    (h : s.plan settings options name source = .ok checked) :
    ∃ references, s.graph.cycleWith checked.plan.result references = none ∧
      ∀ key ∈ checked.plan.references.map keyOf, key ∈ references.map keyOf := by
  obtain ⟨parsed, -, -, hcheck, hplan⟩ := plan_eq_ok h
  rw [hplan]
  exact ⟨_, hcheck, Formula.Expr.keys_references_optimize _⟩

theorem Layered.commitPlan (h : s.Layered) {options : CompileOptions} {result source : String}
    {checked : CheckedPlan} (hplan : s.plan settings options result source = .ok checked) :
    (s.commitPlan settings now checked.plan).Layered := by
  obtain ⟨references, hcheck, hfewer⟩ := cycleWith_plan hplan
  generalize checked.plan = p at hcheck hfewer
  constructor
  case keyed =>
    rw [formulas_commitPlan]
    exact h.keyed.insert ⟨p.result, p.target, p.source, p.references, now⟩
  case represents =>
    rw [formulas_commitPlan, graph_commitPlan]
    exact h.represents.setReferences ⟨p.result, p.target, p.source, p.references, now⟩
  case acyclic =>
    rw [graph_commitPlan]
    exact Graph.acyclic_setReferences h.represents.toWellFormed h.acyclic hcheck hfewer
  case snapshots =>
    rw [history_commitPlan, History.snapshots_record]
    exact h.snapshots

/-! ## Steps -/

theorem Committed.of_no_formulas {staging : Staging} (h : s.Committed settings now staging s')
    (hnone : ∀ e ∈ staging.staged, e.entry.formula = none) :
    s'.formulas = s.formulas ∧ s'.graph = s.graph := by
  have hreferences : staging.references = [] := by
    rw [Staging.references, List.filterMap_eq_nil_iff]
    intro e he
    rw [CheckedEntry.references?, hnone e he, Option.map_none]
  have hstored : staging.staged.filterMap (Committing.storedFormula? settings now ·.entry) = [] := by
    rw [List.filterMap_eq_nil_iff]
    intro e he
    rw [Committing.storedFormula?, hnone e he, Option.map_none]
  exact ⟨by rw [h.formulas, hstored, List.foldl_nil], by rw [h.graph, hreferences]; rfl⟩

variable {ε : Type} [ElementAccess ε]

theorem Layered.perform (h : s.Layered) (hkeyed : s.registry.Keyed) (action : Action ε)
    (hallowed : action.CompilesFormulas) : (s.perform settings now action).Layered := by
  have hstep := s.becomes_perform settings now action
  generalize s.perform settings now action = s' at hstep ⊢
  cases hstep with
  | same => exact h
  | @created supply _ cancelled entries _ hcheck hcommitted =>
      obtain ⟨-, -, hentries⟩ := checkEntries_eq_ok hcheck
      have htracks := Staging.tracks_ofEntries settings now hkeyed supply
        (if cancelled then [] else entries)
      obtain ⟨hformulas, hgraph⟩ := hcommitted.of_no_formulas fun e he =>
        formula_eq_none hallowed (hentries ▸ htracks.entry_mem he)
      obtain ⟨_, hhistory⟩ := hcommitted.history
      exact h.of_eq hformulas hgraph (by rw [hhistory, History.snapshots_recordChanges])
  | compiled hplan => exact h.commitPlan hplan
  | dropped hdrop =>
      obtain ⟨f, hf, rfl⟩ := dropFormula_eq_some hdrop
      exact h.dropFormula f.result (by rw [h.keyed hf]) rfl rfl
  | @deleted _ _ d _ _ =>
      simp only [dropDefinition]
      split
      · exact h.dropFormula d.name rfl rfl History.snapshots_recordChanges
      · exact h.of_eq rfl rfl History.snapshots_recordChanges
  | resolved _ => exact hallowed.elim
  | captured => exact h.addSnapshot now _
  | @rolledBack _ target _ hfound =>
      obtain ⟨hkeyed, hacyclic⟩ := h.snapshots target (History.mem_of_snapshot? hfound)
      -- the graph is built anew from the formulas of the snapshot
      exact ⟨hkeyed, .graph hkeyed, hacyclic, (h.addSnapshot now _).snapshots⟩
  | used => exact h.of_eq rfl rfl rfl

end State

/-! ## Runs -/

variable {ε : Type} [ElementAccess ε]

theorem layered_invariant : Engine.Invariant (ε := ε) (fun s => s.Keyed ∧ s.Layered)
    Action.CompilesFormulas where
  start := fun now => ⟨(keyed_invariant (ε := ε)).start now, .start⟩
  stored := fun h => ⟨(keyed_invariant (ε := ε)).stored h.1, h.2.stored⟩
  perform := fun _ _ _ action hallowed h =>
    ⟨h.1.perform action, h.2.perform h.1.registry action hallowed⟩

namespace Engine

/-- Whatever is compiled, removed, deleted, put into snapshots, rolled back or synchronized: as long
as batches bring no formulas along, the graph has no cycles, nor has the graph of any snapshot. -/
theorem acyclic_run (settings : Settings) (start : Instant) (supply : TokenSupply)
    (steps : List (Instant × Operation ε))
    (hsteps : ∀ step ∈ steps, step.2.Within Action.CompilesFormulas) :
    ((fresh settings start supply).run steps).state.graph.Acyclic ∧
      ∀ snapshot ∈ ((fresh settings start supply).run steps).state.history.snapshots,
        snapshot.formulas.graph.Acyclic := by
  have h := (layered_invariant.of_run start settings supply hsteps).2
  exact ⟨h.acyclic, fun snapshot hm => (h.snapshots snapshot hm).2⟩

/-- A run that compiles a formula, keeps it in a snapshot, turns it around and goes back to it. -/
def turnedRun : List (Instant × Operation LocalElement) :=
  [(⟨0, 0⟩, .create { entries := [{ name := "x", kind := "real" }, { name := "y", kind := "real" }] }
      false),
    (⟨1, 0⟩, .compile {} "x" "y"), (⟨2, 0⟩, .addSnapshot none), (⟨3, 0⟩, .compile {} "y" "x"),
    (⟨4, 0⟩, .dropFormula "x"), (⟨5, 0⟩, .compile {} "y" "x"), (⟨6, 0⟩, .rollback ⟨1⟩)]

/-- The formulas in both directions are each kept in a snapshot of the run. -/
theorem acyclic_turnedRun :
    ((fresh {} ⟨0, 0⟩ (.ofSeed 0)).run turnedRun).state.history.snapshots.map
        (·.formulas.references) = [[("X", ["Y"])], [("Y", ["X"])]] ∧
      ∀ snapshot ∈ ((fresh {} ⟨0, 0⟩ (.ofSeed 0)).run turnedRun).state.history.snapshots,
        snapshot.formulas.graph.Acyclic := by
  refine ⟨by decide +kernel, (acyclic_run {} ⟨0, 0⟩ (.ofSeed 0) turnedRun ?_).2⟩
  intro step hstep e now
  simp only [turnedRun, List.mem_cons, List.not_mem_nil, or_false] at hstep
  rcases hstep with rfl | rfl | rfl | rfl | rfl | rfl | rfl
  · intro p hp
    simp only [List.mem_cons, List.not_mem_nil, or_false] at hp
    rcases hp with rfl | rfl <;> rfl
  all_goals exact trivial

end Engine

end Parametric
