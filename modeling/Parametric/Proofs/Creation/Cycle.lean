import Parametric.Element.Local
import Parametric.Proofs.Creation.Check
import Parametric.Proofs.State.Invariants

/-!
# Cycles that batches close

The formulas of a batch are searched for cycles as if all of them were committed one after the
other. Only part of them is: of two entries with one name the first one counts, and entries may
fail. A graph without cycles stays so exactly if no cycle runs through a key where this matters.
-/

namespace Parametric

open Relation

namespace State

/-- The names and references of all formulas in a batch, in the order in which they are checked. -/
def checkedFormulas (s : State) (settings : Settings) (batch : Batch) :
    List (String × List String) :=
  s.batchFormulas settings (s.batchNames settings batch.entries) batch.entries

/-- The names and references of the formulas that a batch commits. -/
def committedFormulas (s : State) (settings : Settings) (now : Instant) (supply : TokenSupply)
    (batch : Batch) (cancelled : Bool) : List (String × List String) :=
  match s.checkEntries settings batch.entries with
  | .ok entries =>
    (Staging.ofEntries settings now s supply (if cancelled then [] else entries)).references
  | .error _ => []

variable {s : State} {settings : Settings} {now : Instant} {supply : TokenSupply} {batch : Batch}
  {cancelled : Bool}

theorem references_nodup {before : Registry} {entries : List CheckedEntry} {staging : Staging}
    (h : staging.Tracks settings now before entries) :
    (staging.references.map fun f => keyOf f.1).Nodup := by
  refine List.Sublist.nodup ?_ h.keys_nodup
  rw [Staging.references, List.map_filterMap]
  have hsub : ∀ staged : List StagedEntry,
      (staged.filterMap fun e => e.entry.references?.map fun f => keyOf f.1).Sublist
        (staged.map fun e => keyOf e.entry.name) := by
    intro staged
    induction staged with
    | nil => exact .slnil
    | cons e rest ih =>
        rw [List.filterMap_cons, List.map_cons, CheckedEntry.references?]
        cases e.entry.formula with
        | none => exact ih.cons _
        | some f => exact ih.cons_cons _
  exact hsub staging.staged

/-- What a batch commits has been checked, and each name has one formula at most. -/
theorem graph_create (settings : Settings) (now : Instant) (supply : TokenSupply) (batch : Batch)
    (cancelled : Bool) (hkeyed : s.registry.Keyed) :
    (s.create settings now supply batch cancelled).2.1.graph = s.graph ∨
      ((s.create settings now supply batch cancelled).2.1.graph =
          s.graph.setAll (s.committedFormulas settings now supply batch cancelled) ∧
        s.graph.cycleWithAll (s.checkedFormulas settings batch) = none ∧
        (∀ f ∈ s.committedFormulas settings now supply batch cancelled,
          f ∈ s.checkedFormulas settings batch) ∧
        ((s.committedFormulas settings now supply batch cancelled).map fun f => keyOf f.1).Nodup) := by
  rcases s.create_cases settings now batch supply cancelled with hs | ⟨entries, hcheck, hcommitted⟩
  · exact .inl (by rw [hs])
  · obtain ⟨-, hcycle, hentries⟩ := checkEntries_eq_ok hcheck
    have htracks := Staging.tracks_ofEntries settings now hkeyed supply
      (if cancelled then [] else entries)
    simp only [committedFormulas, hcheck]
    refine .inr ⟨hcommitted.graph, hcycle, fun f hf => ?_, references_nodup htracks⟩
    obtain ⟨e, he, href⟩ := List.mem_filterMap.mp hf
    exact mem_batchFormulas (hentries ▸ htracks.entry_mem he) href

/-- A graph without cycles stays so unless a cycle runs through a key that was not really checked. -/
theorem acyclic_create_iff_unchecked (hkeyed : s.registry.Keyed) (hc : s.graph.Coherent)
    (hac : s.graph.Acyclic) :
    (s.create settings now supply batch cancelled).2.1.graph.Acyclic ↔
      ∀ key, s.graph.Unchecked (s.checkedFormulas settings batch)
          (s.committedFormulas settings now supply batch cancelled) key →
        ¬TransGen (s.create settings now supply batch cancelled).2.1.graph.References key key := by
  rcases graph_create settings now supply batch cancelled hkeyed with hsame | ⟨hgraph, hcheck, hsub, hkeys⟩
  · rw [hsame]
    exact ⟨fun h key _ => h key, fun _ => hac⟩
  · rw [hgraph]
    exact Graph.acyclic_setAll_iff hc hac hcheck hsub hkeys

end State

namespace Engine

variable {ε : Type} [ElementAccess ε]

/-- Whatever led to an engine whose graph has no cycle: after a batch there is none either exactly
if none runs through a key whose name has several nodes, or of which a formula was checked that is
not committed. -/
theorem acyclic_create_iff (settings : Settings) (start : Instant) (supply : TokenSupply)
    (steps : List (Instant × Operation ε))
    (hac : ((fresh settings start supply).run steps).state.graph.Acyclic)
    (now : Instant) (batch : Batch) (cancelled : Bool) :
    let e := (fresh settings start supply).run steps
    let graph := (e.create now batch cancelled).2.state.graph
    graph.Acyclic ↔
      ∀ key, e.state.graph.Unchecked (e.state.checkedFormulas e.settings batch)
          (e.state.committedFormulas e.settings now e.supply batch cancelled) key →
        ¬TransGen graph.References key key := by
  intro e graph
  have hgraph : graph = (e.state.create e.settings now e.supply batch cancelled).2.1.graph :=
    congrArg State.graph (moved_create e now batch cancelled).state
  rw [hgraph]
  exact State.acyclic_create_iff_unchecked
    (keyed_invariant.of_any_run start settings supply steps).registry
    (coherent_invariant.of_any_run start settings supply steps) hac

def chainBatch : Batch where
  entries := [{ name := "x", kind := "real", formula := some "y" }, { name := "y", kind := "real" }]

/-- All formulas of a chain are committed as they were checked, so it closes no cycle. -/
theorem acyclic_create_chain :
    (((fresh {} ⟨0, 0⟩ (.ofSeed 0)).create ⟨0, 0⟩ chainBatch false).2.state.graph).Acyclic := by
  refine (acyclic_create_iff (ε := LocalElement) {} ⟨0, 0⟩ (.ofSeed 0) [] Graph.acyclic_empty ⟨0, 0⟩
    chainBatch false).mpr ?_
  rintro key (hsplit | ⟨f, hchecked, -, hcommitted⟩) -
  · exact Graph.WellFormed.empty.not_split key hsplit
  · have hsame : ((fresh {} ⟨0, 0⟩ (.ofSeed 0)).state.checkedFormulas {} chainBatch) =
        (fresh {} ⟨0, 0⟩ (.ofSeed 0)).state.committedFormulas {} ⟨0, 0⟩ (.ofSeed 0) chainBatch
          false := by decide +kernel
    exact hcommitted (hsame ▸ hchecked)

/-- Two names that reference each other; the check sees another formula for the first of them, in
an entry that comes too late to be committed. -/
def crossedBatch : Batch where
  entries := [{ name := "x", kind := "real", formula := some "y" },
    { name := "x", kind := "real", formula := some "true" },
    { name := "y", kind := "real", formula := some "x" }]

/-- A batch can close a cycle in an empty graph. -/
theorem not_acyclic_create_crossed :
    (fresh {} ⟨0, 0⟩ (.ofSeed 0)).state.graph.Acyclic ∧
      ¬((fresh {} ⟨0, 0⟩ (.ofSeed 0)).create ⟨0, 0⟩ crossedBatch false).2.state.graph.Acyclic := by
  refine ⟨Graph.acyclic_empty, fun hac => ?_⟩
  have hgraph : ((fresh {} ⟨0, 0⟩ (.ofSeed 0)).create ⟨0, 0⟩ crossedBatch false).2.state.graph =
      ({} : Graph).setAll [("X", ["Y"]), ("Y", ["X"])] := by decide +kernel
  rw [hgraph] at hac
  have hto : (({} : Graph).setAll [("X", ["Y"]), ("Y", ["X"])]).References "x" "y" :=
    ⟨0, ⟨0, 1, 0⟩, by decide +kernel, by decide +kernel, by decide +kernel, rfl⟩
  have hback : (({} : Graph).setAll [("X", ["Y"]), ("Y", ["X"])]).References "y" "x" :=
    ⟨0, ⟨1, 0, 0⟩, by decide +kernel, by decide +kernel, by decide +kernel, rfl⟩
  exact hac "x" (.tail (.single hto) hback)

end Engine

end Parametric
