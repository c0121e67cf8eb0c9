import Parametric.Creation.Commit
import Parametric.Proofs.Creation.Staging
import Parametric.Proofs.Dependency.Table

/-!
# Committed batches

What a batch does to the state, in terms of the entries that are still staged in the end.
-/

namespace Parametric

def StagedEntry.change? (e : StagedEntry) (r : Registry) : Option Change :=
  match e.outcome with
  | .created => (r.get? e.entry.name).map (⟨.created, ·⟩)
  | .updated => (r.get? e.entry.name).map (⟨.updated, ·⟩)
  | .skipped => none

/-- The name of an entry with the references of its formula. -/
def CheckedEntry.references? (e : CheckedEntry) : Option (String × List String) :=
  e.formula.map fun f => (e.name, f.references)

/-- The names and references of the staged entries that have a formula. -/
def Staging.references (s : Staging) : List (String × List String) :=
  s.staged.filterMap (·.entry.references?)

def Staging.storedFormulas (s : Staging) (settings : Settings) (now : Instant) :
    List StoredFormula :=
  s.staged.filterMap (Committing.storedFormula? settings now ·.entry)

theorem Staging.references_eq (s : Staging) (settings : Settings) (now : Instant) :
    s.references = (s.storedFormulas settings now).map fun f => (f.result, f.references) := by
  rw [references, storedFormulas, List.map_filterMap]
  refine List.filterMap_congr fun e _ => ?_
  rw [CheckedEntry.references?, Committing.storedFormula?, Option.map_map]
  rfl

theorem Staging.references_eq_filterMap (s : Staging) :
    s.references = (s.staged.map (·.entry)).filterMap (·.references?) := by
  rw [references, List.filterMap_map]
  rfl

theorem Staging.storedFormulas_eq_filterMap (s : Staging) (settings : Settings) (now : Instant) :
    s.storedFormulas settings now =
      (s.staged.map (·.entry)).filterMap (Committing.storedFormula? settings now) := by
  rw [storedFormulas, List.filterMap_map]
  rfl

namespace Committing

variable {settings : Settings} {now : Instant} {c : Committing} {e : StagedEntry}

@[simp] theorem state_count : (c.count e).state = c.state := by
  simp only [count]
  split <;> rfl

theorem changes_count : (c.count e).changes = c.changes ++ (e.change? c.state.registry).toList := by
  simp only [count, StagedEntry.change?]
  cases e.outcome <;> cases c.state.registry.get? e.entry.name <;> simp

theorem state_commit : (c.commit settings now e).state =
    match storedFormula? settings now e.entry with
    | some f => c.state.putFormula f
    | none => c.state := by
  simp only [commit]
  cases storedFormula? settings now e.entry <;> simp

theorem changes_commit : (c.commit settings now e).changes =
    c.changes ++ (e.change? c.state.registry).toList := by
  simp only [commit]
  cases storedFormula? settings now e.entry <;> simp [changes_count]

@[simp] theorem registry_commit : (c.commit settings now e).state.registry = c.state.registry := by
  rw [state_commit]
  split <;> rfl

@[simp] theorem history_commit : (c.commit settings now e).state.history = c.state.history := by
  rw [state_commit]
  split <;> rfl

theorem graph_commit : (c.commit settings now e).state.graph =
    c.state.graph.setAll e.entry.references?.toList := by
  rw [state_commit, storedFormula?, CheckedEntry.references?]
  cases e.entry.formula <;> rfl

theorem formulas_commit : (c.commit settings now e).state.formulas =
    (storedFormula? settings now e.entry).toList.foldl (fun t f => t.insert (keyOf f.result) f)
      c.state.formulas := by
  rw [state_commit]
  cases storedFormula? settings now e.entry <;> rfl

theorem result_of_storedFormula? {e : CheckedEntry} {f : StoredFormula}
    (h : storedFormula? settings now e = some f) : f.result = e.name := by
  obtain ⟨_, -, rfl⟩ := Option.map_eq_some_iff.mp h
  rfl

end Committing

/-! ## All staged entries -/

/-- What commits of staged entries make of where they started. -/
structure Committing.Commits (settings : Settings) (now : Instant) (c : Committing)
    (staged : List StagedEntry) (c' : Committing) : Prop where
  registry : c'.state.registry = c.state.registry
  history : c'.state.history = c.state.history
  graph : c'.state.graph = c.state.graph.setAll (staged.filterMap (·.entry.references?))
  formulas : c'.state.formulas =
    (staged.filterMap (storedFormula? settings now ·.entry)).foldl
      (fun t f => t.insert (keyOf f.result) f) c.state.formulas
  changes : c'.changes = c.changes ++ staged.filterMap (·.change? c.state.registry)

theorem Committing.commits (settings : Settings) (now : Instant) (c : Committing)
    (staged : List StagedEntry) :
    c.Commits settings now staged (staged.foldl (·.commit settings now ·) c) := by
  induction staged generalizing c with
  | nil => exact ⟨rfl, rfl, rfl, rfl, by simp⟩
  | cons e rest ih =>
      obtain ⟨hregistry, hhistory, hgraph, hformulas, hchanges⟩ := ih (c.commit settings now e)
      constructor
      case registry =>
        rw [List.foldl_cons, hregistry, registry_commit]
      case history =>
        rw [List.foldl_cons, hhistory, history_commit]
      case graph =>
        rw [List.foldl_cons, hgraph, graph_commit, ← Graph.setAll_append, List.filterMap_cons]
        cases e.entry.references? <;> rfl
      case formulas =>
        rw [List.foldl_cons, hformulas, formulas_commit, ← List.foldl_append, List.filterMap_cons]
        cases storedFormula? settings now e.entry <;> rfl
      case changes =>
        rw [List.foldl_cons, hchanges, changes_commit, registry_commit, List.append_assoc,
          List.filterMap_cons]
        cases e.change? c.state.registry <;> rfl

/-- What commits of staged entries, whose names are all registered, have counted. -/
structure Committing.Counts (c : Committing) (staged : List StagedEntry) (c' : Committing) :
    Prop where
  created : c'.createdNames =
    c.createdNames ++ (staged.filter (·.outcome == .created)).map (·.entry.name)
  updated : c'.updatedNames =
    c.updatedNames ++ (staged.filter (·.outcome == .updated)).map (·.entry.name)
  skipped : c'.skipped = c.skipped + (staged.filter (·.outcome == .skipped)).length

theorem Committing.counts_commit (settings : Settings) (now : Instant) {c : Committing}
    {e : StagedEntry} (h : c.state.registry.contains e.entry.name = true) :
    c.Counts [e] (c.commit settings now e) := by
  obtain ⟨d, hd⟩ : ∃ d, c.state.registry.get? e.entry.name = some d := SortedMap.contains_iff.mp h
  constructor <;> simp only [commit, count, hd] <;> cases storedFormula? settings now e.entry <;>
    cases hoe : e.outcome <;> simp [hoe]

theorem Committing.counts (settings : Settings) (now : Instant) (c : Committing)
    (staged : List StagedEntry)
    (h : ∀ e ∈ staged, c.state.registry.contains e.entry.name = true) :
    c.Counts staged (staged.foldl (·.commit settings now ·) c) := by
  induction staged generalizing c with
  | nil => exact ⟨by simp, by simp, by simp⟩
  | cons e rest ih =>
      obtain ⟨hcreated, hupdated, hskipped⟩ := counts_commit settings now (h e List.mem_cons_self)
      have hrest := ih (c.commit settings now e) fun e' he' => by
        rw [registry_commit]
        exact h e' (List.mem_cons_of_mem _ he')
      constructor
      case created =>
        rw [List.foldl_cons, hrest.created, hcreated, List.append_assoc, ← List.map_append,
          ← List.filter_append, List.singleton_append]
      case updated =>
        rw [List.foldl_cons, hrest.updated, hupdated, List.append_assoc, ← List.map_append,
          ← List.filter_append, List.singleton_append]
      case skipped =>
        rw [List.foldl_cons, hrest.skipped, hskipped, Nat.add_assoc, ← List.length_append,
          ← List.filter_append, List.singleton_append]

namespace State

variable (s : State) (settings : Settings) (now : Instant) (batch : Batch) (staging : Staging)

/-- The state of a batch that was committed. -/
structure Committed (settings : Settings) (now : Instant) (s : State) (staging : Staging)
    (s' : State) : Prop where
  registry : s'.registry = staging.registry
  graph : s'.graph = s.graph.setAll staging.references
  formulas : s'.formulas =
    (staging.staged.filterMap (Committing.storedFormula? settings now ·.entry)).foldl
      (fun t f => t.insert (keyOf f.result) f) s.formulas
  history : ∃ message, s'.history = s.history.recordChanges now message
    settings.registry.defaultAuthor (staging.staged.filterMap (·.change? staging.registry))

theorem committed_commitStaging :
    s.Committed settings now staging (s.commitStaging settings now batch staging).state := by
  obtain ⟨hregistry, hhistory, hgraph, hformulas, hchanges⟩ := Committing.commits settings now
    { state := { s with registry := staging.registry } } staging.staged
  refine ⟨hregistry, hgraph, hformulas, ?_⟩
  simp only [commitStaging, hhistory, hchanges]
  exact ⟨_, rfl⟩

/-! ## Batches -/

variable (supply : TokenSupply) (cancelled : Bool)

/-- A batch that is not refused is committed as far as it could be staged. -/
theorem create_cases : (s.create settings now supply batch cancelled).2.1 = s ∨
    ∃ entries, s.checkEntries settings batch.entries = .ok entries ∧
      s.Committed settings now
        (.ofEntries settings now s supply (if cancelled then [] else entries))
        (s.create settings now supply batch cancelled).2.1 := by
  simp only [create]
  split
  · exact .inl rfl
  · cases hcheck : s.checkEntries settings batch.entries with
    | error issues => exact .inl rfl
    | ok entries =>
        simp only
        split
        · exact .inl rfl
        · exact .inr ⟨entries, rfl, s.committed_commitStaging settings now batch _⟩

end State

end Parametric
