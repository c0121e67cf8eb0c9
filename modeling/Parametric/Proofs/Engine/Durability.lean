import Parametric.Proofs.Creation.Check
import Parametric.Proofs.State.Mirror

/-!
# Durability

Every operation leaves the stored part of the state as it is or hands it to the store, with one
exception: a batch that only repeats registered definitions is not stored, although it writes its formulas
anew.
-/

namespace Parametric

variable {ε : Type}

/-- Whether an action is a batch of which everything that is staged repeats a registered definition, while
some formula takes the place of another one. -/
def Action.RewritesSilently (s : State) (settings : Settings) (now : Instant) : Action ε → Prop
  | .create supply batch cancelled => ∃ entries, s.Admits settings batch entries ∧
    let staging := Staging.ofEntries settings now s supply (if cancelled then [] else entries)
    (∀ e ∈ staging.staged, e.outcome = .skipped) ∧
      ∃ e ∈ staging.staged, ∃ f, Committing.storedFormula? settings now e.entry = some f ∧
        s.formulas.formula? e.entry.name ≠ some f
  | _ => False

namespace State

variable {s : State} {settings : Settings} {now : Instant} {supply : TokenSupply} {batch : Batch}
  {cancelled : Bool} {entries : List CheckedEntry} {staging : Staging}

/-! ## Batches that are not stored -/

theorem not_isRefusal_batchResult (conflicts : List Conflict) (c : Committing) :
    ¬(batchResult cancelled conflicts staging c).status.IsRefusal := by
  simp only [batchResult]
  repeat' split
  all_goals exact id

theorem changes_eq_nil_iff (htracks : staging.Tracks settings now s.registry entries) :
    staging.staged.filterMap (·.change? staging.registry) = [] ↔ ∀ e ∈ staging.staged, e.outcome = .skipped := by
  rw [List.filterMap_eq_nil_iff]
  refine forall₂_congr fun e he => ?_
  obtain ⟨d, hd⟩ := (htracks.written e he).registered
  rw [StagedEntry.change?, hd]
  cases e.outcome <;> simp

theorem registry_of_skipped (hkeyed : s.registry.Keyed) (htracks : staging.Tracks settings now s.registry entries)
    (hskipped : ∀ e ∈ staging.staged, e.outcome = .skipped) : staging.registry = s.registry := by
  refine htracks.keyed.ext hkeyed fun name => ?_
  by_cases hname : ∃ e ∈ staging.staged, keyOf e.entry.name = keyOf name
  · obtain ⟨e, he, hkey⟩ := hname
    have hwritten := htracks.written e he
    rw [hskipped e he] at hwritten
    rw [← Registry.get?_congr hkey, ← Registry.get?_congr hkey]
    generalize s.registry.get? e.entry.name = previous, staging.registry.get? e.entry.name = current at hwritten
    cases hwritten
    rfl
  · exact htracks.untouched name fun e he hkey => hname ⟨e, he, hkey⟩

theorem putAll_storedFormulas_eq_iff (htracks : staging.Tracks settings now s.registry entries) :
    s.formulas.putAll (staging.storedFormulas settings now) = s.formulas ↔
      ∀ e ∈ staging.staged, ∀ f, Committing.storedFormula? settings now e.entry = some f →
        s.formulas.formula? e.entry.name = some f := by
  constructor
  · intro heq e he f hf
    have hresult := Committing.result_of_storedFormula? hf
    have hmem : f ∈ staging.storedFormulas settings now := List.mem_filterMap.mpr ⟨e, he, hf⟩
    rw [Formulas.formula?, ← heq]
    refine Formulas.get?_putAll_of_mem hmem (congrArg keyOf hresult) fun f' hf' hkey => ?_
    -- no two staged entries have one key
    obtain ⟨e', he', hstored⟩ := List.mem_filterMap.mp hf'
    rw [Committing.result_of_storedFormula? hstored] at hkey
    obtain rfl := List.inj_on_of_nodup_map htracks.keys_nodup he' he hkey
    exact Option.some.inj (hstored.symm.trans hf)
  · intro hall
    refine Formulas.putAll_eq_self fun f hf => ?_
    obtain ⟨e, he, hstored⟩ := List.mem_filterMap.mp hf
    rw [Committing.result_of_storedFormula? hstored]
    exact hall e he f hstored

theorem changes_commitStaging (s : State) (settings : Settings) (now : Instant) (batch : Batch) (staging : Staging) :
    (s.commitStaging settings now batch staging).changes =
      staging.staged.filterMap (·.change? staging.registry) :=
  (Committing.commits settings now
    { state := { s with registry := staging.registry } } staging.staged).changes.trans (List.nil_append _)

/-- Of a batch that only repeats registered definitions, nothing but the formulas can be new. -/
theorem stored_commitStaging_iff (hkeyed : s.registry.Keyed)
    (htracks : staging.Tracks settings now s.registry entries) (hskipped : ∀ e ∈ staging.staged, e.outcome = .skipped) :
    (s.commitStaging settings now batch staging).state.stored = s.stored ↔
      ∀ e ∈ staging.staged, ∀ f, Committing.storedFormula? settings now e.entry = some f →
        s.formulas.formula? e.entry.name = some f := by
  rw [← putAll_storedFormulas_eq_iff htracks]
  obtain ⟨hregistry, -, hformulas, message, hhistory⟩ := s.committed_commitStaging settings now batch staging
  rw [(changes_eq_nil_iff htracks).mpr hskipped] at hhistory
  rw [stored, stored, StoredState.mk.injEq, hregistry, registry_of_skipped hkeyed htracks hskipped, hformulas,
    hhistory]
  exact ⟨fun h => h.2.1, fun h => ⟨rfl, h, rfl⟩⟩

theorem stored_create_iff (hkeyed : s.registry.Keyed)
    (h : (s.create settings now supply batch cancelled).1.revision.isSome = false) :
    (s.create settings now supply batch cancelled).2.1.stored = s.stored ↔
      ¬(Action.create (ε := ε) supply batch cancelled).RewritesSilently s settings now := by
  rcases s.refused_or_admits settings now supply batch cancelled with
    ⟨result, hrefuses, hcreate⟩ | ⟨entries, hadmits⟩
  · refine iff_of_true (by rw [hcreate]) ?_
    rintro ⟨entries, hadmits, -⟩
    rw [create_of_admits hadmits] at hcreate
    exact not_isRefusal_batchResult _ _ ((Prod.mk.inj hcreate).1 ▸ hrefuses.status)
  · have htracks := Staging.tracks_ofEntries settings now hkeyed supply (if cancelled then [] else entries)
    rw [create_of_admits hadmits] at h ⊢
    have hskipped := (changes_eq_nil_iff htracks).mp (by
      rw [← changes_commitStaging s settings now batch]
      simpa [batchResult] using h)
    rw [stored_commitStaging_iff hkeyed htracks hskipped]
    constructor
    · rintro hall ⟨entries', hadmits', -, e, he, f, hf, hne⟩
      cases hadmits'.checked.symm.trans hadmits.checked
      exact hne (hall e he f hf)
    · intro hnot e he f hf
      by_contra hne
      exact hnot ⟨entries, hadmits, hskipped, e, he, f, hf, hne⟩

/-! ## Actions -/

section Actions

variable [ElementAccess ε]

/-- An action that is not stored changes nothing that is stored, unless it writes formulas silently. -/
theorem stored_perform_iff (hkeyed : s.registry.Keyed) {action : Action ε}
    (h : s.saves settings now action = false) :
    (s.perform settings now action).stored = s.stored ↔ ¬action.RewritesSilently s settings now := by
  -- each action has a condition of its own under which it is stored; only a batch can miss a change
  cases action with
  | create supply batch cancelled => exact stored_create_iff hkeyed h
  | nothing => exact iff_of_true rfl id
  | compile options result source =>
      exact iff_of_true (congrArg stored (Engine.compile_eq_of_not_committed now h)) id
  | dropFormula name =>
      refine iff_of_true ?_ id
      rw [saves, Option.isSome_eq_false_iff, Option.isNone_iff_eq_none] at h
      rw [perform, h, Option.getD_none]
  | delete name force => exact iff_of_true (congrArg stored (Engine.delete_eq_of_no_revision now h)) id
  | resolve supply survey policy elements =>
      exact iff_of_true (congrArg stored (resolve_eq_of_no_revision h)) id
  | addSnapshot description => cases h
  | rollback id =>
      have hnotFound : (s.rollback settings now id).1.status = .notFound := by simpa [saves] using h
      exact iff_of_true (congrArg stored (Engine.rollback_eq_of_notFound now hnotFound)) fun hnot => hnot
  | countUses names => cases h

theorem saves_of_rewritesSilently (hkeyed : s.registry.Keyed) {action : Action ε}
    (h : action.RewritesSilently s settings now) : s.saves settings now action = false := by
  cases action with
  | create supply batch cancelled =>
      obtain ⟨entries, hadmits, hskipped, -⟩ := h
      have htracks := Staging.tracks_ofEntries settings now hkeyed supply (if cancelled then [] else entries)
      simp only [saves, create_of_admits hadmits, batchResult, changes_commitStaging,
        (changes_eq_nil_iff htracks).mpr hskipped]
      rfl
  | _ => exact h.elim

end Actions

end State

/-! ## Runs -/

namespace Engine

/-- Whether a step has left the stored part of the state as it was, or the store holds it. -/
def Durable (before after : Engine) : Prop :=
  after.state.stored = before.state.stored ∨ after.store.saved = some after.state.stored

/-- An engine whose store holds its state and refuses nothing. -/
structure Synced (e : Engine) : Prop where
  keyed : e.state.Keyed
  saved : e.store.saved = some e.state.stored
  fault : e.store.fault = none

variable {e : Engine} {now : Instant} {op : Operation ε}

theorem storeFor_eq (hop : ∀ fault, op ≠ .breakStore fault) : e.storeFor op = e.store := by
  cases op with
  | breakStore fault => exact absurd rfl (hop fault)
  | _ => rfl

variable [ElementAccess ε]

theorem saved_after (hfault : e.store.fault = none) (hreload : ∀ settings, op ≠ .reload settings)
    (hop : ∀ fault, op ≠ .breakStore fault) (hsaves : e.state.saves e.settings now (e.actionOf now op) = true) :
    (e.after now op).store.saved = some (e.after now op).state.stored := by
  have hmoved := moved_after e now op hreload
  rw [storeFor_eq hop, hsaves] at hmoved
  rw [hmoved.store, hmoved.state, if_pos rfl, Store.saved_keep, if_pos hfault]

/-- An engine that is started anew on the store of another one has the state that it holds. -/
theorem Synced.stored_reload (h : e.Synced) (settings : Settings) (now : Instant) :
    (e.reload settings now).state = .ofStored e.state.stored := by
  simp [reload, onStore, h.saved]

/-- An engine whose store holds its state takes a durable step exactly if no formula is written silently. -/
theorem Synced.durable_iff (h : e.Synced) (now : Instant) (hop : ∀ fault, op ≠ .breakStore fault) :
    e.Durable (e.after now op) ↔ ¬(e.actionOf now op).RewritesSilently e.state e.settings now := by
  by_cases hr : ∃ settings, op = .reload settings
  · obtain ⟨settings, rfl⟩ := hr
    have hstored := congrArg State.stored (h.stored_reload settings now)
    exact iff_of_true (.inl hstored) id
  · have hreload : ∀ settings, op ≠ .reload settings := fun settings heq => hr ⟨settings, heq⟩
    cases hsaves : e.state.saves e.settings now (e.actionOf now op) with
    | true =>
        refine iff_of_true (.inr (saved_after h.fault hreload hop hsaves)) fun hsilent => ?_
        rw [State.saves_of_rewritesSilently h.keyed.registry hsilent] at hsaves
        cases hsaves
    | false =>
        have hmoved := moved_after e now op hreload
        rw [storeFor_eq hop, hsaves] at hmoved
        rw [← State.stored_perform_iff h.keyed.registry hsaves, Durable, hmoved.state, hmoved.store,
          if_neg Bool.false_ne_true, h.saved, Option.some_inj, eq_comm (a := e.state.stored), or_self]

theorem Synced.after (h : e.Synced) (hop : ∀ fault, op ≠ .breakStore fault)
    (hdurable : e.Durable (e.after now op)) : (e.after now op).Synced := by
  by_cases hr : ∃ settings, op = .reload settings
  · obtain ⟨settings, rfl⟩ := hr
    have hstate := h.stored_reload settings now
    refine ⟨?_, ?_, h.fault⟩
    · exact hstate ▸ keyed_lasting.stored h.keyed
    · exact h.saved.trans (congrArg (some ·.stored) hstate.symm)
  · have hmoved := moved_after e now op fun settings heq => hr ⟨settings, heq⟩
    rw [storeFor_eq hop] at hmoved
    constructor
    case keyed => exact hmoved.state ▸ h.keyed.perform _
    case saved =>
      rcases hdurable with hsame | hsaved
      · rcases hmoved.saved with hkept | hsaved
        · rw [hkept, h.saved, hsame]
        · rw [hsaved, hmoved.state]
      · exact hsaved
    case fault =>
      rw [hmoved.store]
      split
      · exact (Store.fault_keep _ _).trans h.fault
      · exact h.fault

/-- On a store that refuses nothing and holds the state in the beginning: all operations leave the stored
part of the state as it is or hand it to the store exactly if no batch that only repeats registered
definitions writes a formula over another one. -/
theorem durable_run_iff (e : Engine) (hkeyed : e.state.Keyed) (hsaved : e.store.saved = some e.state.stored)
    (hfault : e.store.fault = none) (steps : List (Instant × Operation ε))
    (hsteps : ∀ step ∈ steps, ∀ fault, step.2 ≠ .breakStore fault) :
    (∀ init step rest, steps = init ++ step :: rest →
        (e.run init).Durable ((e.run init).after step.1 step.2)) ↔
      e.Along (fun e step => ¬(e.actionOf step.1 step.2).RewritesSilently e.state e.settings step.1) steps := by
  suffices h : e.Along (fun e step => e.Durable (e.after step.1 step.2)) steps ↔ e.Along _ steps from
    along_iff.symm.trans h
  have h : e.Synced := ⟨hkeyed, hsaved, hfault⟩
  clear hkeyed hsaved hfault
  -- a durable step hands the next one an engine whose store holds its state
  induction steps generalizing e with
  | nil => rfl
  | cons step rest ih =>
      obtain ⟨hop, hrest⟩ := List.forall_mem_cons.mp hsteps
      have hstep := h.durable_iff step.1 hop
      constructor
      · rintro ⟨hdurable, halong⟩
        exact ⟨hstep.mp hdurable, (ih _ hrest (h.after hop hdurable)).mp halong⟩
      · rintro ⟨hnot, halong⟩
        have hdurable := hstep.mpr hnot
        exact ⟨hdurable, (ih _ hrest (h.after hop hdurable)).mpr halong⟩

def pricedBatch : Batch where
  entries := [{ name := "y", kind := "real" }, { name := "x", kind := "real", formula := some "y + 1" }]

def pricedEngine : Engine :=
  (fresh {} ⟨0, 0⟩ (.ofSeed 0)).after (ε := LocalElement) ⟨0, 0⟩ (.create pricedBatch false)

theorem synced_pricedEngine : pricedEngine.Synced where
  keyed := keyed_invariant.of_any_run (ε := LocalElement) ⟨0, 0⟩ {} (.ofSeed 0)
    [(⟨0, 0⟩, .create pricedBatch false)]
  saved := saved_after rfl (by simp) (by simp) (by decide +kernel)
  fault := by decide +kernel

def variedRun : List (Instant × Operation LocalElement) :=
  [(⟨1, 0⟩, .create { entries := [{ name := "y", kind := "real", visible := false },
      { name := "x", kind := "real", formula := some "y + 2" }] } false),
    (⟨2, 0⟩, .compile {} "x" "y * 2"), (⟨3, 0⟩, .addSnapshot none), (⟨4, 0⟩, .dropFormula "x"),
    (⟨5, 0⟩, .delete "y" false), (⟨6, 0⟩, .rollback ⟨1⟩)]

theorem durable_variedRun :
    pricedEngine.Synced ∧ (∀ step ∈ variedRun, ∀ fault, step.2 ≠ .breakStore fault) ∧
      ∀ init step rest, variedRun = init ++ step :: rest →
        (pricedEngine.run init).Durable ((pricedEngine.run init).after step.1 step.2) := by
  have h := synced_pricedEngine
  have hsteps : ∀ step ∈ variedRun, ∀ fault, step.2 ≠ .breakStore fault := by
    intro step hstep fault
    simp only [variedRun, List.mem_cons, List.not_mem_nil, or_false] at hstep
    rcases hstep with rfl | rfl | rfl | rfl | rfl | rfl <;> simp
  refine ⟨h, hsteps, (durable_run_iff pricedEngine h.keyed h.saved h.fault variedRun hsteps).mpr
    ⟨fun hsilent => ?_, id, id, id, id, id, trivial⟩⟩
  have hunsaved := State.saves_of_rewritesSilently h.keyed.registry hsilent
  exact absurd hunsaved (by decide +kernel)

/-- A batch that repeats a definition, with other blanks in its formula. -/
def respacedBatch : Batch where
  entries := [{ name := "x", kind := "real", formula := some "y  +  1" }]

/-- The formula of the state is the new one, and the formula of the store is the old one. -/
theorem not_durable_respacedBatch :
    let after := pricedEngine.after (ε := LocalElement) ⟨1, 0⟩ (.create respacedBatch false)
    pricedEngine.store.saved = some pricedEngine.state.stored ∧ pricedEngine.store.fault = none ∧
      ¬pricedEngine.Durable after := by
  intro after
  have hbefore : (pricedEngine.state.formulas.formula? "x").map (·.source) = some "y + 1" := by decide +kernel
  have hafter : (after.state.formulas.formula? "x").map (·.source) = some "y  +  1" := by decide +kernel
  have hsaved : (after.store.saved.bind (·.formulas.formula? "x")).map (·.source) = some "y + 1" := by
    decide +kernel
  refine ⟨synced_pricedEngine.saved, synced_pricedEngine.fault, ?_⟩
  rintro (hsame | hkept)
  · have hsource := congrArg (fun s => (s.formulas.formula? "x").map (·.source)) hsame
    exact absurd (hafter.symm.trans (hsource.trans hbefore)) (by decide)
  · rw [hkept] at hsaved
    exact absurd (hafter.symm.trans hsaved) (by decide)

end Engine

end Parametric
