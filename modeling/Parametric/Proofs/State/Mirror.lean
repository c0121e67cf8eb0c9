import Parametric.Element.Local
import Parametric.Proofs.Dependency.Triples
import Parametric.Proofs.State.Invariants

/-!
# The graph and the formula table

The graph is changed edge by edge while the formula table is changed by other code. As long as no
definition is renamed, it is at every moment the graph that would be built anew from the table.
-/

namespace Parametric

variable {ε : Type}

/-- Whether an operation may rename definitions. -/
def Operation.MayRename : Operation ε → Prop
  | .settle .. => True
  | _ => False

/-- Whether an action leaves all names as they are. -/
def Action.KeepsNames : Action ε → Prop
  | .resolve .. => False
  | _ => True

theorem Operation.within_keepsNames [ElementAccess ε] {op : Operation ε} (h : ¬op.MayRename) :
    op.Within Action.KeepsNames := by
  intro e now
  cases op with
  | settle survey policy elements => exact absurd trivial h
  | importText format text cancelled =>
      simp only [Engine.actionOf]
      split <;> trivial
  | instantiate id category options cancelled =>
      simp only [Engine.actionOf]
      split <;> trivial
  | compileText options text =>
      simp only [Engine.actionOf]
      split <;> trivial
  | compileCases options result branches otherwise =>
      simp only [Engine.actionOf, Action.ofParts]
      split <;> trivial
  | compileTable options result key table otherwise =>
      simp only [Engine.actionOf, Action.ofParts]
      split <;> trivial
  | translate options sentence =>
      simp only [Engine.actionOf]
      split <;> trivial
  | carryOut plan elements cancelled =>
      simp only [Engine.actionOf]
      split <;> trivial
  | _ => trivial

namespace State

/-- The graph has the results and the references of the formula table, and no edge twice. -/
structure Mirrored (s : State) : Prop where
  represents : s.graph.Represents s.formulas
  simple : s.graph.Simple

variable {s s' : State} {settings : Settings} {now : Instant}

namespace Mirrored

theorem of_eq (h : s.Mirrored) (hformulas : s'.formulas = s.formulas)
    (hgraph : s'.graph = s.graph) : s'.Mirrored where
  represents := hformulas ▸ hgraph ▸ h.represents
  simple := hgraph ▸ h.simple

/-- A graph that is built anew. -/
theorem of_graph (hkeyed : s.formulas.Keyed) (hgraph : s.graph = s.formulas.graph) :
    s.Mirrored where
  represents := hgraph ▸ .graph hkeyed
  simple := hgraph ▸ Graph.Simple.empty.setAll

theorem dropFormula (h : s.Mirrored) (name : String)
    (hformulas : s'.formulas = s.formulas.erase (keyOf name))
    (hgraph : s'.graph = s.graph.dropFormula name) : s'.Mirrored where
  represents := hformulas ▸ hgraph ▸ h.represents.dropFormula
  simple := hgraph ▸ h.simple.dropFormula

theorem committed {staging : Staging} (h : s.Mirrored)
    (hc : s.Committed settings now staging s') : s'.Mirrored where
  represents := by
    rw [hc.graph, hc.formulas, staging.references_eq settings now]
    exact h.represents.putAll _
  simple := hc.graph ▸ h.simple.setAll

theorem commitPlan (h : s.Mirrored) (p : PlannedFormula) :
    (s.commitPlan settings now p).Mirrored where
  represents := by
    rw [formulas_commitPlan, graph_commitPlan]
    exact h.represents.setReferences ⟨p.result, p.target, p.source, p.references, now⟩
  simple := by
    rw [graph_commitPlan]
    exact h.simple.setReferences

variable [ElementAccess ε]

/-- Every operation that keeps names changes the graph as it changes the table. -/
theorem perform (h : s.Mirrored) (ht : s.Tabled) (action : Action ε)
    (hallowed : action.KeepsNames) : (s.perform settings now action).Mirrored := by
  have hstep := s.becomes_perform settings now action
  generalize s.perform settings now action = s' at hstep ⊢
  cases hstep with
  | same => exact h
  | created _ hcommitted => exact h.committed hcommitted
  | @compiled _ _ _ checked _ => exact h.commitPlan checked.plan
  | dropped hdrop =>
      obtain ⟨f, hf, rfl⟩ := dropFormula_eq_some hdrop
      exact h.dropFormula f.result (by rw [ht.formulas hf]) rfl
  | @deleted _ _ d _ _ =>
      simp only [dropDefinition]
      split
      · exact h.dropFormula d.name rfl rfl
      · exact h.of_eq rfl rfl
  | resolved _ => exact hallowed.elim
  | captured | used => exact h.of_eq rfl rfl
  | @rolledBack _ target _ hfound =>
      exact of_graph (ht.snapshots target (History.mem_of_snapshot? hfound)) rfl

end Mirrored

end State

/-! ## Runs -/

theorem mirrored_lasting : Engine.Lasting fun s => s.Tabled ∧ s.Mirrored where
  start := fun now => ⟨tabled_lasting.start now, .of_graph .empty rfl⟩
  stored := fun h => ⟨tabled_lasting.stored h.1, .of_graph h.1.formulas rfl⟩

variable [ElementAccess ε]

theorem mirrored_invariant :
    Engine.Invariant (ε := ε) (fun s => s.Tabled ∧ s.Mirrored) Action.KeepsNames where
  toLasting := mirrored_lasting
  perform := fun _ _ _ action hallowed h => ⟨h.1.perform action, h.2.perform h.1 action hallowed⟩

namespace Engine

/-- As long as no conflicts are resolved, the graph stays in step with the formula table. -/
theorem mirrored_run (settings : Settings) (start : Instant) (supply : TokenSupply)
    {steps : List (Instant × Operation ε)} (hsteps : ∀ step ∈ steps, ¬step.2.MayRename) :
    ((fresh settings start supply).run steps).state.Tabled ∧
      ((fresh settings start supply).run steps).state.Mirrored :=
  mirrored_invariant.of_run start settings supply fun step hstep => Operation.within_keepsNames (hsteps step hstep)

/-- Whatever is created, compiled, removed, deleted, put into snapshots, rolled back or
synchronized: as long as no conflicts are resolved, every formula stands under the key of its result,
the results in the graph are the keys of the table, and its edges, none left out, are those of the
graph that is built anew from the table. -/
theorem mirrors_run (settings : Settings) (start : Instant) (supply : TokenSupply)
    (steps : List (Instant × Operation ε)) (hsteps : ∀ step ∈ steps, ¬step.2.MayRename) :
    let s := ((fresh settings start supply).run steps).state
    let rebuilt := s.formulas.graph
    s.formulas.Keyed ∧ s.graph.results.keys = s.formulas.keys ∧
      s.graph.triples.Perm rebuilt.triples ∧ s.graph.triples.length = s.graph.edges.length ∧
      rebuilt.triples.length = rebuilt.edges.length := by
  intro s rebuilt
  obtain ⟨htabled, hmirrored⟩ := mirrored_run settings start supply hsteps
  have hmirrors := hmirrored.represents.mirrors hmirrored.simple htabled.formulas
  refine ⟨htabled.formulas, ?_, hmirrors.triples, hmirrored.represents.length_triples,
    (Graph.Represents.graph htabled.formulas).length_triples⟩
  rw [hmirrors.results, Graph.keys_results_graph htabled.formulas]

/-- A run in which a batch keeps part of its entries, a formula is compiled anew, and a definition
is deleted although a formula references it. -/
def reworkedRun : List (Instant × Operation LocalElement) :=
  [(⟨0, 0⟩, .create { entries := [{ name := "x", kind := "real" }, { name := "x", kind := "text" },
      { name := "area", kind := "real", formula := some "x * x" }] } false),
    (⟨1, 0⟩, .compile {} "z" "area"), (⟨2, 0⟩, .addSnapshot none),
    (⟨3, 0⟩, .compile {} "z" "2 * x"), (⟨4, 0⟩, .compile {} "cost" "z"),
    (⟨5, 0⟩, .compile {} "tax" "area / 2"), (⟨6, 0⟩, .delete "area" false),
    (⟨7, 0⟩, .delete "area" true), (⟨8, 0⟩, .dropFormula "z")]

theorem keepsNames_reworkedRun : ∀ step ∈ reworkedRun, ¬step.2.MayRename := by
  simp [reworkedRun, Operation.MayRename]

/-- The formulas that are left reference names that are gone. -/
theorem mirrors_reworkedRun :
    let s := ((fresh {} ⟨0, 0⟩ (.ofSeed 0)).run reworkedRun).state
    s.graph.triples = [("tax", "area", 0), ("cost", "z", 0)] ∧
      s.graph.triples.Perm s.formulas.graph.triples := by
  refine ⟨by decide +kernel, ?_⟩
  exact (mirrors_run {} ⟨0, 0⟩ (.ofSeed 0) reworkedRun keepsNames_reworkedRun).2.2.1

end Engine

end Parametric
