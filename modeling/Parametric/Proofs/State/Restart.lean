import Parametric.Proofs.Dependency.Queries
import Parametric.Proofs.State.Mirror

/-!
# Restarts

The graph is not stored: after a restart it is built anew from the formula table. What a formula referenced
before it was compiled anew still has a node in the graph that was in use, and a node keeps the spelling in
which its name came first. Of both, the table knows nothing.
-/

namespace Parametric.Engine

variable {ε : Type} [ElementAccess ε]

/-- Whatever is created, compiled, removed, deleted, put into snapshots, rolled back or synchronized: as long
as no conflicts are resolved, the state that is brought back from its stored part answers every query about
dependencies as before exactly if each node of the graph is mentioned by the formula table and spelled as it
is mentioned there first. -/
theorem restart_run_iff (settings : Settings) (start : Instant) (supply : TokenSupply)
    (steps : List (Instant × Operation ε)) (hsteps : ∀ step ∈ steps, ¬step.2.MayRename) :
    let s := ((fresh settings start supply).run steps).state
    (State.ofStored s.stored).graph.AnswersAs s.graph ↔ s.graph.SpelledAs s.formulas := by
  intro s
  obtain ⟨htabled, hmirrored⟩ := mirrored_run settings start supply hsteps
  exact hmirrored.represents.answersAs_iff hmirrored.simple htabled.formulas

/-- The graph in use and the one that is built anew number their nodes differently. -/
theorem restart_reworkedRun :
    let s := ((fresh {} ⟨0, 0⟩ (.ofSeed 0)).run reworkedRun).state
    s.graph.nodes.map (·.name) = ["tax", "cost", "z", "Area"] ∧
      s.formulas.graph.nodes.map (·.name) = ["Area", "tax", "z", "cost"] ∧
      (State.ofStored s.stored).graph.AnswersAs s.graph := by
  intro s
  obtain ⟨hlive, hrestored, hspelled⟩ : s.graph.nodes.map (·.name) = ["tax", "cost", "z", "Area"] ∧
      s.formulas.graph.nodes.map (·.name) = ["Area", "tax", "z", "cost"] ∧ s.graph.SpelledAs s.formulas := by
    decide +kernel
  exact ⟨hlive, hrestored, (restart_run_iff {} ⟨0, 0⟩ (.ofSeed 0) reworkedRun keepsNames_reworkedRun).mpr hspelled⟩

/-- A run in which a formula is compiled anew with another reference. -/
def redirectedRun : List (Instant × Operation LocalElement) :=
  [(⟨0, 0⟩, .compile { allowMissing := true } "x" "y"), (⟨1, 0⟩, .compile { allowMissing := true } "x" "z")]

/-- The graph in use has a node for a name that no formula references any more. -/
theorem not_answersAs_redirectedRun :
    let s := ((fresh {} ⟨0, 0⟩ (.ofSeed 0)).run redirectedRun).state
    (∀ step ∈ redirectedRun, ¬step.2.MayRename) ∧ s.graph.numNodes = 3 ∧
      (State.ofStored s.stored).graph.numNodes = 2 ∧ ¬(State.ofStored s.stored).graph.AnswersAs s.graph := by
  intro s
  obtain ⟨hlive, hrestored⟩ : s.graph.numNodes = 3 ∧ (State.ofStored s.stored).graph.numNodes = 2 := by
    decide +kernel
  refine ⟨by simp [redirectedRun, Operation.MayRename], hlive, hrestored, fun hanswers => ?_⟩
  have hsame := hanswers.numNodes
  rw [hlive, hrestored] at hsame
  exact absurd hsame (by decide)

/-- A run in which two formulas spell one name differently, the second one under the smaller key. -/
def respelledRun : List (Instant × Operation LocalElement) :=
  [(⟨0, 0⟩, .compile { allowMissing := true } "b" "Y"), (⟨1, 0⟩, .compile { allowMissing := true } "a" "y")]

-- The graph in use keeps the spelling that came first in time, the one that is built anew the first in the table.
example :
    let s := ((fresh {} ⟨0, 0⟩ (.ofSeed 0)).run respelledRun).state
    s.graph.needs "a" = ["Y"] ∧ (State.ofStored s.stored).graph.needs "a" = ["y"] := by decide +kernel

end Parametric.Engine
