import Parametric.Proofs.State.Invariants

/-!
# Events and the registry

The events of a name say what is registered under it. Every operation records changes that account
for all that it does to the registry, and in the order in which it does it.
-/

namespace Parametric

/-! ## Changes between registries -/

/-- The last changes of all names lead from one registry to another one, up to the time of creation
and the usage count of definitions. -/
def Accounts (changes : List Change) (before after : Registry) : Prop :=
  ∀ name, ((lastOutcome? changes name).getD (before.get? name)).map Definition.shape =
    (after.get? name).map Definition.shape

namespace Accounts

variable {changes more : List Change} {before between after : Registry}

theorem refl (r : Registry) : Accounts [] r r := fun _ => rfl

theorem trans (h : Accounts changes before between) (h' : Accounts more between after) :
    Accounts (changes ++ more) before after := by
  intro name
  have hm := h' name
  rw [lastOutcome?_append]
  cases hl : lastOutcome? more name with
  | some outcome => rwa [hl] at hm
  | none =>
      rw [hl] at hm
      exact (h name).trans hm

theorem of_shapes (h : ∀ name, (after.get? name).map Definition.shape =
    (before.get? name).map Definition.shape) : Accounts [] before after :=
  fun name => (h name).symm

theorem single {c : Change}
    (hself : ∀ name, c.definition.key = keyOf name →
      (c.kind.leaves? c.definition).map Definition.shape = (after.get? name).map Definition.shape)
    (hother : ∀ name, c.definition.key ≠ keyOf name → after.get? name = before.get? name) :
    Accounts [c] before after := by
  intro name
  by_cases hk : c.definition.key = keyOf name
  · rw [lastOutcome?_singleton hk]
    exact hself name hk
  · rw [lastOutcome?_eq_none (by simpa using hk), Option.getD_none, hother name hk]

end Accounts

/-! ## Changes of batches -/

section Batches

variable {settings : Settings} {now : Instant} {before : Registry} {entries : List CheckedEntry}
  {s : Staging} {e : StagedEntry} {c : Change}

/-- A staged entry leaves its definition as it was, or its change leaves the definition that is now
registered. -/
theorem change?_cases (h : s.Tracks settings now before entries) (he : e ∈ s.staged) :
    (e.change? s.registry = none ∧ s.registry.get? e.entry.name = before.get? e.entry.name) ∨
      ∃ c, e.change? s.registry = some c ∧
        c.kind.leaves? c.definition = s.registry.get? e.entry.name := by
  have hwritten := h.written e he
  simp only [StagedEntry.change?]
  generalize e.outcome = outcome, before.get? e.entry.name = b, s.registry.get? e.entry.name = a
    at hwritten
  cases hwritten with
  | created token => exact .inr ⟨_, rfl, rfl⟩
  | updated d hd => exact .inr ⟨_, rfl, rfl⟩
  | skipped d hd => exact .inl ⟨rfl, rfl⟩

theorem key_change? (h : s.registry.Keyed) (hc : e.change? s.registry = some c) :
    c.definition.key = keyOf e.entry.name := by
  simp only [StagedEntry.change?] at hc
  split at hc
  · obtain ⟨d, hd, rfl⟩ := Option.map_eq_some_iff.mp hc
    exact h.key_eq hd
  · obtain ⟨d, hd, rfl⟩ := Option.map_eq_some_iff.mp hc
    exact h.key_eq hd
  · cases hc

/-- The staged entries of a batch account for what it does to the registry. -/
theorem accounts_staging (h : s.Tracks settings now before entries) :
    Accounts (s.staged.filterMap (·.change? s.registry)) before s.registry := by
  intro name
  by_cases hany : ∃ e ∈ s.staged, keyOf e.entry.name = keyOf name
  · obtain ⟨e, he, hname⟩ := hany
    have hall : ∀ c ∈ s.staged.filterMap (·.change? s.registry), c.definition.key = keyOf name →
        e.change? s.registry = some c := by
      intro c hc hk
      obtain ⟨e', he', hc'⟩ := List.mem_filterMap.mp hc
      have hk' := (key_change? h.keyed hc').symm.trans hk
      rwa [List.inj_on_of_nodup_map h.keys_nodup he' he (hk'.trans hname.symm)] at hc'
    rw [← Registry.get?_congr hname, ← Registry.get?_congr hname]
    rcases change?_cases h he with ⟨hnone, hsame⟩ | ⟨c, hsome, hleaves⟩
    · rw [lastOutcome?_eq_none fun c hm hk => by simp [hall c hm hk] at hnone, Option.getD_none,
        hsame]
    · rw [lastOutcome?_eq_some (List.mem_filterMap.mpr ⟨e, he, hsome⟩)
        ((key_change? h.keyed hsome).trans hname) fun c' hm hk =>
          Option.some.inj ((hall c' hm hk).symm.trans hsome), Option.getD_some, hleaves]
  · have hnot : ∀ e ∈ s.staged, keyOf e.entry.name ≠ keyOf name := fun e he hk => hany ⟨e, he, hk⟩
    rw [lastOutcome?_eq_none, Option.getD_none, h.untouched name hnot]
    intro c hc hk
    obtain ⟨e, he, hc⟩ := List.mem_filterMap.mp hc
    exact hnot e he ((key_change? h.keyed hc).symm.trans hk)

end Batches

/-! ## Changes of other operations -/

namespace State

variable {s : State} {settings : Settings} {now : Instant}

theorem accounts_countUses (names : List String) :
    Accounts [] s.registry (s.countUses names).registry :=
  .of_shapes (shape_countUses names)

theorem accounts_setFormulaText (hkeyed : s.registry.Keyed) (name text : String) :
    Accounts (s.setFormulaText name text).2 s.registry (s.setFormulaText name text).1.registry := by
  simp only [setFormulaText]
  cases hd : s.registry.get? name with
  | none => exact .refl s.registry
  | some d =>
      have hkey : d.key = keyOf name := hkeyed.key_eq hd
      simp only
      split
      · exact .refl s.registry
      · refine .single ?_ ?_
        · intro other hk
          rw [Registry.get?_modify, if_pos (hk.symm.trans hkey), hd]
          rfl
        · intro other hk
          rw [Registry.get?_modify, if_neg fun h => hk (hkey.trans h.symm)]

theorem accounts_commitPlan (hkeyed : s.registry.Keyed) (p : PlannedFormula) :
    Accounts (s.setFormulaText p.result p.target).2 s.registry
      (s.commitPlan settings now p).registry := by
  have hset := accounts_setFormulaText
    (s := s.putFormula ⟨p.result, p.target, p.source, p.references, now⟩) hkeyed p.result p.target
  have hall := hset.trans (accounts_countUses p.references)
  rwa [List.append_nil, changes_setFormulaText] at hall

theorem accounts_dropFormula (hkeyed : s.registry.Keyed) (result : String) :
    Accounts ((s.registry.get? result).map fun d =>
        (⟨.updated, { d with formula := none }⟩ : Change)).toList s.registry
      (s.registry.modify result fun d => { d with formula := none }) := by
  cases hd : s.registry.get? result with
  | none =>
      refine .of_shapes fun name => ?_
      rw [Registry.get?_modify]
      split
      · rename_i hk
        rw [Registry.get?_congr hk, hd]
        rfl
      · rfl
  | some d =>
      have hkey : d.key = keyOf result := hkeyed.key_eq hd
      refine .single ?_ ?_
      · intro other hk
        rw [Registry.get?_modify, if_pos (hk.symm.trans hkey), hd]
        rfl
      · intro other hk
        rw [Registry.get?_modify, if_neg fun h => hk (hkey.trans h.symm)]

theorem accounts_dropDefinition (d : Definition) :
    Accounts [⟨.deleted, d⟩] s.registry (s.dropDefinition d).registry := by
  rw [registry_dropDefinition]
  refine .single ?_ ?_
  · intro other hk
    rw [Registry.get?_remove, if_pos (show keyOf other = keyOf d.name from hk.symm)]
    rfl
  · intro other hk
    exact Registry.get?_remove.trans (if_neg (Ne.symm hk))

/-- A renaming to another key is recorded under the old name before it is under the new one. -/
theorem accounts_rename {d : Definition} {new : String} :
    Accounts (Renamed.changes ⟨d, { d with name := new }, s.moveDefinition d new⟩) s.registry
      (s.moveDefinition d new).registry := by
  have hput : Accounts [⟨.updated, { d with name := new }⟩] (s.registry.remove d.name)
      (s.moveDefinition d new).registry := by
    refine .single ?_ ?_
    · intro other hk
      rw [moveDefinition, Registry.get?_put, if_pos hk.symm]
      rfl
    · intro other hk
      rw [moveDefinition, Registry.get?_put]
      exact if_neg (Ne.symm hk)
  simp only [Renamed.changes]
  split
  · rename_i hsame
    refine .single ?_ ?_
    · intro other hk
      rw [moveDefinition, Registry.get?_put, if_pos hk.symm]
      rfl
    · intro other hk
      rw [moveDefinition, Registry.get?_put, if_neg (Ne.symm hk), Registry.get?_remove,
        if_neg fun h => hk (hsame.symm.trans h.symm)]
  · refine Accounts.trans ?_ hput
    refine .single ?_ ?_
    · intro other hk
      rw [Registry.get?_remove, if_pos (show keyOf other = keyOf d.name from hk.symm)]
      rfl
    · intro other hk
      exact Registry.get?_remove.trans (if_neg (Ne.symm hk))

end State

/-! ## Changes of rollbacks -/

section Rollback

variable {r target : Registry} {c : Change} {d : Definition}

theorem key_changeInto? (ht : target.Keyed) (hc : d.changeInto? target = some c) :
    c.definition.key = d.key := by
  simp only [Definition.changeInto?] at hc
  split at hc
  · cases hc
    rfl
  · rename_i restored hrestored
    split at hc
    · cases hc
    · cases hc
      exact ht.key_eq hrestored

/-- What happens under a name when another registry takes the place of its own. -/
theorem mem_changesInto_iff (hr : r.Keyed) (ht : target.Keyed) (name : String) (c : Change) :
    (c ∈ r.changesInto target ∧ c.definition.key = keyOf name) ↔
      (∃ d, r.get? name = some d ∧ d.changeInto? target = some c) ∨
        (r.get? name = none ∧ ∃ d, target.get? name = some d ∧ c = ⟨.created, d⟩) := by
  simp only [Registry.changesInto, List.mem_append, List.mem_filterMap, List.mem_map,
    List.mem_filter, Bool.not_eq_true', Registry.mem_definitions_iff hr,
    Registry.mem_definitions_iff ht]
  constructor
  · rintro ⟨⟨d, hd, hc⟩ | ⟨d, ⟨hd, hnew⟩, rfl⟩, hk⟩
    · have hdk : keyOf d.name = keyOf name := (key_changeInto? ht hc).symm.trans hk
      exact .inl ⟨d, by rwa [Registry.get?_congr hdk] at hd, hc⟩
    · have hdk : keyOf d.name = keyOf name := hk
      rw [Registry.get?_congr hdk] at hd
      refine .inr ⟨?_, d, hd, rfl⟩
      rw [← Registry.get?_congr hdk]
      exact SortedMap.contains_eq_false_iff.mp hnew
  · rintro (⟨d, hd, hc⟩ | ⟨hnone, d, hd, rfl⟩)
    · have hdk : d.key = keyOf name := hr.key_eq hd
      refine ⟨.inl ⟨d, ?_, hc⟩, (key_changeInto? ht hc).trans hdk⟩
      rwa [Registry.get?_congr (show keyOf d.name = keyOf name from hdk)]
    · have hdk : d.key = keyOf name := ht.key_eq hd
      refine ⟨.inr ⟨d, ⟨?_, ?_⟩, rfl⟩, hdk⟩
      · rwa [Registry.get?_congr (show keyOf d.name = keyOf name from hdk)]
      · rw [← Registry.get?_congr (show keyOf d.name = keyOf name from hdk)] at hnone
        exact SortedMap.contains_eq_false_iff.mpr hnone

theorem accounts_changesInto (hr : r.Keyed) (ht : target.Keyed) :
    Accounts (r.changesInto target) r target := by
  intro name
  have hmem := mem_changesInto_iff hr ht name
  cases hd : r.get? name with
  | some d =>
      -- all changes under the key are the one of this definition
      have hget : target.get? d.name = target.get? name := Registry.get?_congr (hr.key_eq hd)
      have hall : ∀ c ∈ r.changesInto target, c.definition.key = keyOf name →
          d.changeInto? target = some c := by
        intro c hc hk
        rcases (hmem c).mp ⟨hc, hk⟩ with ⟨d', hd', hc⟩ | ⟨hnone, -⟩
        · rwa [Option.some.inj (hd.symm.trans hd')]
        · rw [hd] at hnone
          cases hnone
      cases hc : d.changeInto? target with
      | none =>
          rw [lastOutcome?_eq_none fun c hm hk => by simp [hall c hm hk] at hc, Option.getD_none]
          simp only [Definition.changeInto?, hget] at hc
          split at hc
          · cases hc
          · rename_i restored hrestored
            split at hc
            · rename_i hagrees
              rw [hrestored, Option.map_some, Option.map_some, Definition.agreesWith_iff.mp hagrees]
            · cases hc
      | some c =>
          obtain ⟨hm, hk⟩ := (hmem c).mpr (.inl ⟨d, hd, hc⟩)
          rw [lastOutcome?_eq_some hm hk fun c' hm' hk' =>
            Option.some.inj ((hall c' hm' hk').symm.trans hc), Option.getD_some]
          simp only [Definition.changeInto?, hget] at hc
          split at hc
          · rename_i hnone
            cases hc
            rw [hnone]
            rfl
          · rename_i restored hrestored
            split at hc
            · cases hc
            · cases hc
              rw [hrestored]
              rfl
  | none =>
      have hall : ∀ c ∈ r.changesInto target, c.definition.key = keyOf name →
          ∃ d, target.get? name = some d ∧ c = ⟨.created, d⟩ := by
        intro c hc hk
        rcases (hmem c).mp ⟨hc, hk⟩ with ⟨d, hd', -⟩ | ⟨-, hcreated⟩
        · rw [hd] at hd'
          cases hd'
        · exact hcreated
      cases ht' : target.get? name with
      | none =>
          rw [lastOutcome?_eq_none fun c hm hk => by simpa [ht'] using hall c hm hk]
          rfl
      | some d =>
          obtain ⟨hm, hk⟩ := (hmem ⟨.created, d⟩).mpr (.inr ⟨hd, d, ht', rfl⟩)
          rw [lastOutcome?_eq_some hm hk fun c hm' hk' => by
            obtain ⟨d', hd', rfl⟩ := hall c hm' hk'
            rw [Option.some.inj (ht'.symm.trans hd')]]
          rfl

end Rollback

/-! ## Runs -/

namespace State

/-- The events of every name leave the definition that is registered under it. -/
def Replays (s : State) : Prop :=
  ∀ name, (s.history.replayed? name).map Definition.shape =
    (s.registry.get? name).map Definition.shape

variable {s s' : State} {settings : Settings} {now : Instant} {changes : List Change}

theorem Replays.of_eq (h : s.Replays) (hregistry : s'.registry = s.registry)
    (hevents : s'.history.events = s.history.events) : s'.Replays := by
  intro name
  have hsame : s'.history.replayed? name = s.history.replayed? name := by
    simp only [History.replayed?, History.eventsOf, hevents]
  rw [hsame, hregistry]
  exact h name

/-- Recorded changes that account for a new registry keep the events true. -/
theorem Replays.of_accounts {r : Registry} (h : s.Replays)
    (hchanges : Accounts changes s.registry r) (hregistry : s'.registry = r)
    (hhistory : ∀ name, s'.history.replayed? name =
      (lastOutcome? changes name).getD (s.history.replayed? name)) : s'.Replays := by
  intro name
  have hname := hchanges name
  rw [hhistory, hregistry]
  cases hl : lastOutcome? changes name with
  | some outcome => rwa [hl] at hname
  | none =>
      rw [hl] at hname
      exact (h name).trans hname

variable {ε : Type} [ElementAccess ε]

theorem Renames.accounts {conflicts : List Conflict} (hrenames : s.Renames conflicts s' changes) :
    s'.history = s.history ∧ Accounts changes s.registry s'.registry := by
  induction hrenames with
  | refl => exact ⟨rfl, .refl _⟩
  | rename _ _ _ hok ih =>
      obtain ⟨d, -, -, -, rfl⟩ := rename_eq_ok hok
      exact ⟨ih.1, ih.2.trans accounts_rename⟩

theorem Replays.perform (h : s.Replays) (hkeyed : s.Keyed) (action : Action ε) :
    (s.perform settings now action).Replays := by
  have hstep := s.becomes_perform settings now action
  generalize s.perform settings now action = s' at hstep ⊢
  cases hstep with
  | same => exact h
  | created _ hcommitted =>
      obtain ⟨message, hhistory⟩ := hcommitted.history
      refine h.of_accounts (accounts_staging (Staging.tracks_ofEntries settings now hkeyed.registry _ _))
        hcommitted.registry fun name => ?_
      rw [hhistory, History.replayed?_recordChanges]
  | @compiled _ _ _ checked _ =>
      refine h.of_accounts (accounts_commitPlan hkeyed.registry checked.plan) rfl fun name => ?_
      rw [history_commitPlan, History.replayed?_record]
  | dropped hdrop =>
      obtain ⟨f, -, rfl⟩ := dropFormula_eq_some hdrop
      exact h.of_accounts (accounts_dropFormula hkeyed.registry f.result) rfl History.replayed?_record
  | @deleted _ _ d _ _ => exact h.of_accounts (accounts_dropDefinition d) rfl History.replayed?_recordChanges
  | resolved hrenames =>
      obtain ⟨hhistory, hchanges⟩ := hrenames.accounts
      refine h.of_accounts hchanges rfl fun name => ?_
      rw [History.replayed?_recordChanges, hhistory]
  | captured => exact h.of_eq rfl rfl
  | @rolledBack _ target _ hfound =>
      exact h.of_accounts (accounts_changesInto hkeyed.registry
        (hkeyed.snapshots target (History.mem_of_snapshot? hfound))) rfl History.replayed?_record
  | used => exact h.of_accounts (accounts_countUses _) rfl fun _ => rfl

end State

variable {ε : Type} [ElementAccess ε]

theorem replays_invariant :
    Engine.Invariant (ε := ε) (fun s => s.Keyed ∧ s.Replays) fun _ => True where
  start := fun now => ⟨(keyed_invariant (ε := ε)).start now, fun _ => rfl⟩
  stored := fun h => ⟨(keyed_invariant (ε := ε)).stored h.1, h.2.of_eq rfl rfl⟩
  perform := fun _ _ _ action _ h => ⟨h.1.perform action, h.2.perform h.1 action⟩

namespace Engine

/-- After every run, a definition is registered under a name exactly if the last event of the name
is its creation or an update, and it has the shape that this event recorded. -/
theorem replay_run (settings : Settings) (start : Instant) (supply : TokenSupply)
    (steps : List (Instant × Operation ε)) (name : String) :
    let s := ((fresh settings start supply).run steps).state
    (∀ d, s.registry.get? name = some d →
      ∃ e, (s.history.eventsOf name).getLast? = some e ∧
        (e.change = .created ∨ e.change = .updated) ∧ e.definition.agreesWith d = true) ∧
    (∀ e, (s.history.eventsOf name).getLast? = some e →
      (e.change = .created ∨ e.change = .updated) →
        ∃ d, s.registry.get? name = some d ∧ e.definition.agreesWith d = true) := by
  intro s
  have h : (s.history.replayed? name).map Definition.shape =
      (s.registry.get? name).map Definition.shape :=
    (replays_invariant.of_any_run start settings supply steps).2 name
  simp only [History.replayed?] at h
  refine ⟨fun d hd => ?_, fun e he hchange => ?_⟩
  · rw [hd] at h
    cases he : (s.history.eventsOf name).getLast? with
    | none => simp [he] at h
    | some e =>
        refine ⟨e, rfl, ?_⟩
        rw [he, Option.bind_some] at h
        cases hc : e.change with
        | created | updated =>
            simp only [hc, Change.Kind.leaves?, Option.map_some, Option.some.injEq] at h
            exact ⟨by simp, Definition.agreesWith_iff.mpr h⟩
        | deleted | renamed => simp [hc, Change.Kind.leaves?] at h
  · have hleaves : e.change.leaves? e.definition = some e.definition := by
      rcases hchange with hc | hc <;> rw [hc] <;> rfl
    rw [he, Option.bind_some, hleaves] at h
    obtain ⟨d, hd, hshape⟩ := Option.map_eq_some_iff.mp h.symm
    exact ⟨d, hd, Definition.agreesWith_iff.mpr hshape.symm⟩

end Engine

end Parametric
