import Parametric.Compilation.Commit
import Parametric.Conflict.Resolution
import Parametric.Proofs.Registry
import Parametric.State.Deletion
import Parametric.State.Rollback

/-!
# Steps of states

For each operation on a state, all that it can make of it.
-/

namespace Parametric.State

variable {s : State} {settings : Settings} {now : Instant}

/-! ## Uses -/

theorem shape_countUses (names : List String) (name : String) :
    ((s.countUses names).registry.get? name).map Definition.shape =
      (s.registry.get? name).map Definition.shape := by
  simp only [countUses]
  generalize s.registry = r
  induction names generalizing r with
  | nil => rfl
  | cons used rest ih =>
      rw [List.foldl_cons, ih, Registry.get?_modify]
      split
      · rename_i hk
        rw [Registry.get?_congr hk]
        cases r.get? used <;> rfl
      · rfl

theorem label_countUses (names : List String) (name : String) :
    ((s.countUses names).registry.get? name).map Definition.label =
      (s.registry.get? name).map Definition.label := by
  have hshape := congrArg (Option.map Definition.label) (shape_countUses (s := s) names name)
  rw [Option.map_map, Option.map_map] at hshape
  exact hshape

theorem keyed_countUses (h : s.registry.Keyed) (names : List String) :
    (s.countUses names).registry.Keyed := by
  simp only [countUses]
  generalize s.registry = r at h
  induction names generalizing r with
  | nil => exact h
  | cons used rest ih => exact ih _ (h.modify fun _ _ => rfl)

/-! ## Formulas -/

/-- A plan is one of the parsed expression with its names in their spellings, which all have one unless
unknown names are allowed. It closes no cycle. -/
theorem plan_eq_ok {options : CompileOptions} {name source : String} {checked : CheckedPlan}
    (h : s.plan settings options name source = .ok checked) :
    ∃ parsed, Formula.parse source = .ok parsed ∧
      let result := (s.spelling? (Text.trim name)).getD (Text.trim name)
      let e := parsed.respelled (.ofNames (s.resolve? options result) parsed.references)
      (options.allowMissing = false →
        ∀ reference ∈ parsed.references, (s.resolve? options result reference).isSome = true) ∧
      s.graph.cycleWith result e.references = none ∧
        checked.plan = s.planOf settings options result source e := by
  by_cases hempty : Text.trim name = ""
  · simp only [plan, hempty, ↓reduceIte, bind, Except.bind, throw, throwThe, MonadExceptOf.throw] at h
    cases h
  · cases hparse : Formula.parse source with
    | error error =>
        simp only [plan, hempty, ↓reduceIte, bind, Except.bind, hparse, Except.mapError] at h
        cases h
    | ok parsed =>
        refine ⟨parsed, rfl, ?_⟩
        simp only [plan, hempty, ↓reduceIte, bind, Except.bind, pure, Except.pure, hparse,
          Except.mapError] at h
        split at h
        · cases h
        · rename_i hunknown
          split at h
          · cases h
          · rename_i hcheck
            cases h
            refine ⟨fun hallow => ?_, hcheck, rfl⟩
            simpa [hallow, List.filter_eq_nil_iff, Option.isSome_iff_ne_none] using hunknown

/-- A compilation that changes the state commits its plan. -/
theorem compile_cases (s : State) (settings : Settings) (now : Instant) (options : CompileOptions)
    (result source : String) : (s.compile settings now options result source).2 = s ∨
      ∃ checked, s.plan settings options result source = .ok checked ∧
        (s.compile settings now options result source).2 = s.commitPlan settings now checked.plan := by
  simp only [compile]
  cases s.plan settings options result source with
  | error error => exact .inl rfl
  | ok checked =>
      simp only
      split
      · exact .inl rfl
      · exact .inr ⟨checked, rfl, rfl⟩

@[simp] theorem graph_setFormulaText (name text : String) :
    (s.setFormulaText name text).1.graph = s.graph := by
  simp only [setFormulaText]
  repeat' split
  all_goals rfl

@[simp] theorem formulas_setFormulaText (name text : String) :
    (s.setFormulaText name text).1.formulas = s.formulas := by
  simp only [setFormulaText]
  repeat' split
  all_goals rfl

@[simp] theorem history_setFormulaText (name text : String) :
    (s.setFormulaText name text).1.history = s.history := by
  simp only [setFormulaText]
  repeat' split
  all_goals rfl

theorem label_setFormulaText (result text name : String) :
    ((s.setFormulaText result text).1.registry.get? name).map Definition.label =
      (s.registry.get? name).map Definition.label := by
  simp only [setFormulaText]
  split
  · rfl
  · rename_i d hd
    split
    · rfl
    · refine Registry.label_modify fun d' hd' => ?_
      cases hd.symm.trans hd'
      rfl

theorem changes_setFormulaText (f : StoredFormula) (name text : String) :
    ((s.putFormula f).setFormulaText name text).2 = (s.setFormulaText name text).2 := by
  simp only [setFormulaText, putFormula]
  repeat' split
  all_goals rfl

theorem label_commitPlan (p : PlannedFormula) (name : String) :
    ((s.commitPlan settings now p).registry.get? name).map Definition.label =
      (s.registry.get? name).map Definition.label :=
  (label_countUses _ _).trans (label_setFormulaText _ _ _)

theorem graph_commitPlan (p : PlannedFormula) :
    (s.commitPlan settings now p).graph = s.graph.setReferences p.result p.references := by
  simp [commitPlan, record, countUses, putFormula]

theorem formulas_commitPlan (p : PlannedFormula) : (s.commitPlan settings now p).formulas =
    s.formulas.insert (keyOf p.result) ⟨p.result, p.target, p.source, p.references, now⟩ := by
  simp [commitPlan, record, countUses, putFormula]

theorem history_commitPlan (p : PlannedFormula) : (s.commitPlan settings now p).history =
    s.history.record now ("compile formula " ++ p.result) settings.registry.defaultAuthor
      (s.setFormulaText p.result p.target).2 .patch := by
  simp only [commitPlan, record, countUses, history_setFormulaText]
  rw [changes_setFormulaText]
  rfl

/-- A formula that is dropped goes from the table, from the graph and from its definition. -/
theorem dropFormula_eq_some {name : String} {s' : State}
    (h : s.dropFormula settings now name = some s') :
    ∃ f, s.formulas.formula? name = some f ∧ s' =
      { registry := s.registry.modify f.result fun d => { d with formula := none }
        formulas := s.formulas.erase (keyOf name)
        graph := s.graph.dropFormula f.result
        history := s.history.record now ("remove formula " ++ f.result)
          settings.registry.defaultAuthor
          ((s.registry.get? f.result).map fun d =>
            (⟨.updated, { d with formula := none }⟩ : Change)).toList .patch } := by
  obtain ⟨f, hf, rfl⟩ := Option.map_eq_some_iff.mp h
  exact ⟨f, hf, rfl⟩

theorem label_dropFormula {dropped : String} {s' : State}
    (h : s.dropFormula settings now dropped = some s') (name : String) :
    (s'.registry.get? name).map Definition.label = (s.registry.get? name).map Definition.label := by
  obtain ⟨f, -, rfl⟩ := dropFormula_eq_some h
  exact Registry.label_modify fun _ _ => rfl

/-! ## Definitions -/

/-- A deletion that changes the state takes a registered definition away that no formula references,
unless it is forced. -/
theorem delete_cases (s : State) (settings : Settings) (now : Instant) (name : String)
    (force : Bool) :
    (s.delete settings now name force).2 = s ∨
      ∃ d, s.registry.get? name = some d ∧ (force = false → s.graph.users d.name = []) ∧
        (s.delete settings now name force).2 =
          { s.dropDefinition d with
            history := s.history.recordChanges now ("delete " ++ d.name)
              settings.registry.defaultAuthor [⟨.deleted, d⟩] } := by
  simp only [delete]
  split
  · exact .inl rfl
  · cases s.registry.get? name with
    | none => exact .inl rfl
    | some d =>
        simp only
        split
        · exact .inl rfl
        · rename_i hunused
          refine .inr ⟨d, rfl, fun hforce => by simpa [hforce] using hunused, ?_⟩
          simp only [dropDefinition]
          split <;> rfl

theorem registry_dropDefinition (d : Definition) :
    (s.dropDefinition d).registry = s.registry.remove d.name := by
  simp only [dropDefinition]
  split <;> rfl

/-- A renaming that succeeds moves a registered definition to a name that is free or its own. -/
theorem rename_eq_ok {old new : String} {renamed : Renamed} (h : s.rename old new = .ok renamed) :
    ∃ d, s.registry.get? old = some d ∧
      (keyOf old = keyOf new ∨ s.registry.contains new = false) ∧ s.graph.users d.name = [] ∧
      renamed = ⟨d, { d with name := new }, s.moveDefinition d new⟩ := by
  simp only [rename] at h
  split at h
  · cases h
  · rename_i d hd
    split at h
    · cases h
    · rename_i hfree
      split at h
      · cases h
      · rename_i husers
        refine ⟨d, hd, ?_, by simpa using husers, (Except.ok.inj h).symm⟩
        by_cases hk : keyOf old = keyOf new
        · exact .inl hk
        · exact .inr (by simpa [hk] using hfree)

section Elements

variable {ε : Type} [ElementAccess ε]

/-- Handling a conflict changes nothing or gives one definition the better name. -/
theorem handle_cases (policy : ResolutionPolicy) (r : Resolving ε) (c : Conflict) :
    ((r.handle now policy c).state = r.state ∧ (r.handle now policy c).changes = r.changes) ∨
      ∃ old new renamed, c.betterName = some new ∧ r.state.rename old new = .ok renamed ∧
        (r.handle now policy c).state = renamed.state ∧
        (r.handle now policy c).changes = r.changes ++ renamed.changes := by
  simp only [Resolving.handle]
  split
  · refine .inl ?_
    simp only [Resolving.standardize]
    split
    · exact ⟨rfl, rfl⟩
    · split <;> exact ⟨rfl, rfl⟩
  · simp only [Resolving.rename]
    split
    · exact .inl ⟨rfl, rfl⟩
    · rename_i new hnew
      split
      · cases hr : r.state.rename c.parameter new with
        | error error => exact .inl ⟨rfl, rfl⟩
        | ok renamed => exact .inr ⟨_, new, renamed, hnew, hr, rfl, rfl⟩
      · exact .inl ⟨rfl, rfl⟩
  all_goals exact .inl ⟨rfl, rfl⟩

/-- What renamings keep, together with the changes so far, holds after any number of conflicts. -/
theorem foldl_handle {P : State → List Change → Prop} (policy : ResolutionPolicy) {conflicts : List Conflict}
    {r : Resolving ε} (hr : P r.state r.changes)
    (hstep : ∀ {s changes old new renamed}, (∃ c ∈ conflicts, c.betterName = some new) →
      P s changes → s.rename old new = .ok renamed → P renamed.state (changes ++ renamed.changes)) :
    P (conflicts.foldl (Resolving.handle now policy) r).state
      (conflicts.foldl (Resolving.handle now policy) r).changes := by
  induction conflicts generalizing r with
  | nil => exact hr
  | cons c rest ih =>
      refine ih ?_ fun ⟨other, hmem, hnew⟩ => hstep ⟨other, List.mem_cons_of_mem c hmem, hnew⟩
      rcases handle_cases policy r c with ⟨hs, hc⟩ | ⟨old, new, renamed, hnew, hok, hs, hc⟩
      · rw [hs, hc]
        exact hr
      · rw [hs, hc]
        exact hstep ⟨c, List.mem_cons_self, hnew⟩ hr hok

/-- What renamings keep, together with the changes so far, holds when all conflicts are handled. -/
theorem resolve_cases (settings : Settings) (now : Instant) {P : State → List Change → Prop}
    (supply : TokenSupply) (survey : ConflictSurvey) (policy : ResolutionPolicy) (elements : List ε)
    (hstart : P s [])
    (hstep : ∀ {s changes old new renamed}, (∃ c ∈ survey.conflicts, c.betterName = some new) →
      P s changes → s.rename old new = .ok renamed → P renamed.state (changes ++ renamed.changes)) :
    (s.resolve settings now supply survey policy elements).state = s ∨
      ∃ s' changes, P s' changes ∧
        (s.resolve settings now supply survey policy elements).state =
          { s' with
            history := s'.history.recordChanges now "resolve naming conflicts"
              settings.registry.defaultAuthor changes } := by
  simp only [resolve]
  split
  · exact .inl rfl
  · exact .inr ⟨_, _, foldl_handle policy (by exact hstart) hstep, rfl⟩

/-- Without a commit no conflict has led to a renaming. -/
theorem resolve_eq_of_no_revision {supply : TokenSupply} {survey : ConflictSurvey} {policy : ResolutionPolicy}
    {elements : List ε}
    (h : (s.resolve settings now supply survey policy elements).result.revision.isSome = false) :
    (s.resolve settings now supply survey policy elements).state = s := by
  simp only [resolve] at h ⊢
  split
  case isTrue => rfl
  case isFalse hpolicy =>
    rw [if_neg hpolicy] at h
    let start : Resolving ε := ⟨s, supply, elements.map fun e => { element := e }, [], {}⟩
    have hkept : (survey.conflicts.foldl (Resolving.handle now policy) start).changes = [] →
        (survey.conflicts.foldl (Resolving.handle now policy) start).state = s :=
      foldl_handle policy (P := fun s' changes => changes = [] → s' = s) (fun _ => rfl) fun _ _ _ hchanges => by
        simp [Renamed.changes] at hchanges
    generalize survey.conflicts.foldl (Resolving.handle (ε := ε) now policy) _ = r at h hkept ⊢
    have hchanges : r.changes = [] := by simpa [Resolving.finish] using h
    simp only [Resolving.finish, hchanges, hkept hchanges]
    rfl

end Elements

/-! ## Snapshots -/

/-- A rollback that changes the state puts the registry and the formulas of a snapshot in place. -/
theorem rollback_cases (s : State) (settings : Settings) (now : Instant) (id : SnapshotNumber) :
    (s.rollback settings now id).2 = s ∨
      ∃ target description, s.history.snapshot? id = some target ∧
        (s.rollback settings now id).2 =
          { registry := target.registry
            formulas := target.formulas
            graph := target.formulas.graph
            history := (s.history.addSnapshot now description s.registry s.formulas).record now
              ("rollback to " ++ id.text) settings.registry.defaultAuthor
              (s.registry.changesInto target.registry) .major } := by
  simp only [rollback]
  cases hfound : s.history.snapshot? id with
  | none => exact .inl rfl
  | some target => exact .inr ⟨target, _, rfl, rfl⟩

end Parametric.State
