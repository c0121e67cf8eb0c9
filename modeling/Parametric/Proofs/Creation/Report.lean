import Parametric.Proofs.Creation.Settlement

/-!
# Results of batches

The counts and names in the result of a batch are those of what it has done to the registry, and
so are the events that it records.
-/

namespace Parametric

variable {settings : Settings} {now : Instant}

/-! ## Entries by what they do -/

theorem length_partition {α : Type} (l : List α) (outcome : α → StagedAs) :
    (l.filter (outcome · == .created)).length + (l.filter (outcome · == .updated)).length +
      (l.filter (outcome · == .skipped)).length = l.length := by
  induction l with
  | nil => rfl
  | cons a rest ih =>
      cases h : outcome a <;> simp only [List.filter_cons, h] <;> simp <;> omega

/-- The name of an entry with the kind of the change that it amounts to, if it amounts to one. -/
def CheckedEntry.mark? (e : CheckedEntry) (settings : Settings) (r : Registry) :
    Option (String × Change.Kind) :=
  match e.outcomeIn settings r with
  | .created => some (e.name, .created)
  | .updated => some (e.name, .updated)
  | .skipped => none

theorem perm_marks (entries : List CheckedEntry) (settings : Settings) (r : Registry) :
    (entries.filterMap (·.mark? settings r)).Perm
      (((entries.filter (·.outcomeIn settings r == .created)).map (·.name)).map
          (·, Change.Kind.created) ++
        ((entries.filter (·.outcomeIn settings r == .updated)).map (·.name)).map
          (·, Change.Kind.updated)) := by
  induction entries with
  | nil => exact .nil
  | cons e rest ih =>
      cases h : e.outcomeIn settings r with
      | created =>
          have hmark : e.mark? settings r = some (e.name, .created) := by
            simp only [CheckedEntry.mark?, h]
          simpa [hmark, h] using ih
      | updated =>
          have hmark : e.mark? settings r = some (e.name, .updated) := by
            simp only [CheckedEntry.mark?, h]
          simpa [hmark, h] using (ih.cons (e.name, Change.Kind.updated)).trans
            List.perm_middle.symm
      | skipped =>
          have hmark : e.mark? settings r = none := by simp only [CheckedEntry.mark?, h]
          simpa [hmark, h] using ih

theorem marks_changes {staging : Staging} {before : Registry} {entries : List CheckedEntry}
    (h : staging.Tracks settings now before entries)
    (hname : ∀ e ∈ staging.staged, ∀ d, before.get? e.entry.name = some d → d.name = e.entry.name) :
    (staging.staged.filterMap (·.change? staging.registry)).map
        (fun c => (c.definition.name, c.kind)) =
      (staging.staged.map (·.entry)).filterMap (·.mark? settings before) := by
  rw [List.map_filterMap, List.filterMap_map]
  refine List.filterMap_congr fun e he => ?_
  have hwritten := h.written e he
  have hspelled := hname e he
  simp only [Function.comp_apply, StagedEntry.change?, CheckedEntry.mark?, ← hwritten.eq_outcomeIn]
  generalize e.outcome = outcome, before.get? e.entry.name = b, staging.registry.get? e.entry.name = a
    at hwritten hspelled
  cases hwritten with
  | created token => rfl
  | updated d hd =>
      simp only [Option.map_some]
      exact congrArg (fun name => some (name, Change.Kind.updated)) (hspelled d rfl)
  | skipped d hd => rfl

/-! ## Reports -/

namespace State

/-- The result of a batch of a number of entries says what has become of the state: each entry is
counted once, the names are those of the definitions that are new or have another shape, all others
are as they were, and the history has gained what belongs to these names. -/
structure Reports (now : Instant) (entries : Nat) (before after : State) (result : BatchOutcome) :
    Prop where
  total : result.created + result.updated + result.skipped + result.failed = entries
  completed : result.status = .completed ↔ result.failed = 0
  created : result.createdNames.Perm ((after.registry.definitions.filter fun d =>
    !before.registry.contains d.name).map (·.name))
  updated : result.updatedNames.Perm ((after.registry.definitions.filter fun d =>
    (before.registry.get? d.name).any fun old => !d.agreesWith old).map (·.name))
  unchanged : ∀ name, (∀ listed ∈ result.names, keyOf listed ≠ keyOf name) →
    after.registry.get? name = before.registry.get? name
  history : before.history.Grows now result.createdNames result.updatedNames after.history

variable {s after : State} {kept : List CheckedEntry} {result : BatchOutcome} {name : String}

namespace Accepts

variable (h : s.Accepts settings now kept result after)
include h

theorem length_kept : result.created + result.updated + result.skipped = kept.length := by
  rw [BatchOutcome.created, BatchOutcome.updated, h.created, h.updated, h.skipped, List.length_map,
    List.length_map]
  exact length_partition kept (·.outcomeIn settings s.registry)

/-- What stands under a name is as it was, or what a kept entry of its key has made of it. -/
theorem get?_cases (name : String) : after.registry.get? name = s.registry.get? name ∨
    ∃ e ∈ kept, keyOf e.name = keyOf name ∧ (e.outcomeIn settings s.registry).Writes settings now e
      (s.registry.get? name) (after.registry.get? name) := by
  by_cases hany : ∃ e ∈ kept, keyOf e.name = keyOf name
  · obtain ⟨e, he, hkey⟩ := hany
    have hwritten := h.written e he
    rw [Registry.get?_congr hkey, Registry.get?_congr hkey] at hwritten
    exact .inr ⟨e, he, hkey, hwritten⟩
  · exact .inl (h.untouched name fun e he hkey => hany ⟨e, he, hkey⟩).1

theorem mem_createdNames_iff (hafter : after.registry.Keyed) : name ∈ result.createdNames ↔
    ∃ d ∈ after.registry.definitions, s.registry.contains d.name = false ∧ d.name = name := by
  simp only [h.created, List.mem_map, List.mem_filter, beq_iff_eq, Registry.mem_definitions_iff hafter,
    Registry.contains, SortedMap.contains_eq_false_iff]
  constructor
  · rintro ⟨e, ⟨he, houtcome⟩, rfl⟩
    have hwritten := h.written e he
    rw [houtcome] at hwritten
    generalize hb : s.registry.get? e.name = before, hg : after.registry.get? e.name = current
      at hwritten
    cases hwritten with
    | created token => exact ⟨e.definition settings now token, hg, hb, rfl⟩
  · rintro ⟨d, hd, hnone, rfl⟩
    replace hnone : s.registry.get? d.name = none := hnone
    rcases h.get?_cases d.name with hsame | ⟨e, he, -, hwritten⟩
    · exact absurd ((hd.symm.trans hsame).trans hnone) (by simp)
    · rw [hd, hnone] at hwritten
      generalize ho : e.outcomeIn settings s.registry = outcome at hwritten
      cases hwritten with
      | created token => exact ⟨e, ⟨he, ho⟩, rfl⟩

theorem mem_updatedNames_iff (hafter : after.registry.Keyed)
    (hspelled : ∀ e ∈ kept, ∀ d, s.registry.get? e.name = some d → d.name = e.name) :
    name ∈ result.updatedNames ↔ ∃ d ∈ after.registry.definitions,
      (∃ old, s.registry.get? d.name = some old ∧ d.agreesWith old = false) ∧ d.name = name := by
  simp only [h.updated, List.mem_map, List.mem_filter, beq_iff_eq, Registry.mem_definitions_iff hafter]
  constructor
  · rintro ⟨e, ⟨he, houtcome⟩, rfl⟩
    have hwritten := h.written e he
    have hname := hspelled e he
    rw [houtcome] at hwritten
    generalize hb : s.registry.get? e.name = before, hg : after.registry.get? e.name = current
      at hwritten hname
    cases hwritten with
    | updated old hdiffers =>
        have hname : (e.updated settings old).name = e.name := hname old rfl
        refine ⟨e.updated settings old, ?_, ⟨old, ?_, hdiffers⟩, hname⟩
        · rw [hname, hg]
        · rw [hname, hb]
  · rintro ⟨d, hd, ⟨old, hold, hdiffers⟩, rfl⟩
    have hchanged : d ≠ old := by
      rintro rfl
      exact Bool.false_ne_true (hdiffers.symm.trans (Definition.agreesWith_iff.mpr rfl))
    rcases h.get?_cases d.name with hsame | ⟨e, he, hkey, hwritten⟩
    · exact absurd (Option.some.inj ((hd.symm.trans hsame).trans hold)) hchanged
    · have hname := hspelled e he
      rw [Registry.get?_congr hkey, hold] at hname
      rw [hd, hold] at hwritten
      generalize ho : e.outcomeIn settings s.registry = outcome at hwritten
      cases hwritten with
      | updated _ _ => exact ⟨e, ⟨he, ho⟩, (hname old rfl).symm⟩
      | skipped _ hagrees => exact absurd rfl hchanged

theorem get?_of_not_listed (hlisted : ∀ listed ∈ result.names, keyOf listed ≠ keyOf name) :
    after.registry.get? name = s.registry.get? name := by
  rw [BatchOutcome.names, List.forall_mem_append, h.created, h.updated] at hlisted
  rcases h.get?_cases name with hsame | ⟨e, he, hkey, hwritten⟩
  · exact hsame
  · have hcreated : e.outcomeIn settings s.registry ≠ .created := fun ho =>
      hlisted.1 e.name (List.mem_map.mpr ⟨e, List.mem_filter.mpr ⟨he, by simp [ho]⟩, rfl⟩) hkey
    have hupdated : e.outcomeIn settings s.registry ≠ .updated := fun ho =>
      hlisted.2 e.name (List.mem_map.mpr ⟨e, List.mem_filter.mpr ⟨he, by simp [ho]⟩, rfl⟩) hkey
    generalize e.outcomeIn settings s.registry = outcome, s.registry.get? name = before,
      after.registry.get? name = current at hwritten hcreated hupdated ⊢
    cases hwritten with
    | created token => exact absurd rfl hcreated
    | updated d hd => exact absurd rfl hupdated
    | skipped d hd => rfl

end Accepts

theorem Reports.withWarnings {count : Nat} (h : Reports now count s after result)
    (warnings : List Issue) : Reports now count s after { result with warnings := warnings } :=
  ⟨h.total, h.completed, h.created, h.updated, h.unchanged, h.history⟩

theorem reports_create {batch : Batch} {entries : List CheckedEntry} (now : Instant)
    (hkeyed : s.registry.Keyed) (hc : s.graph.Coherent) (hadmits : s.Admits settings batch entries)
    (supply : TokenSupply) :
    Reports now batch.entries.length s (s.create settings now supply batch false).2.1
      (s.create settings now supply batch false).1 := by
  rw [create_of_admits hadmits, if_neg Bool.false_ne_true]
  have htracks := Staging.tracks_ofEntries settings now hkeyed supply entries
  have haccepts := accepts_commitStaging hc htracks
    (Staging.largest_ofEntries settings now hkeyed supply entries).consistent
    (entries.flatMap (·.clashes s.registry)) batch
  have hcommitted := s.committed_commitStaging settings now batch
    (Staging.ofEntries settings now s supply entries)
  have hlength := s.length_ofEntries settings now supply entries
  simp only
  generalize Staging.ofEntries settings now s supply entries = staging at *
  have hafter : (s.commitStaging settings now batch staging).state.registry.Keyed := by
    rw [hcommitted.registry]
    exact htracks.keyed
  have hspelled : ∀ e ∈ staging.staged, ∀ d, s.registry.get? e.entry.name = some d →
      d.name = e.entry.name := fun e he d hd =>
    name_of_get? hkeyed hadmits.checked (htracks.mem e he) hd
  have hspelled' : ∀ e ∈ staging.staged.map (·.entry), ∀ d, s.registry.get? e.name = some d →
      d.name = e.name := List.forall_mem_map.mpr hspelled
  have hnames : ∀ p : CheckedEntry → Bool,
      (((staging.staged.map (·.entry)).filter p).map (·.name)).Nodup := by
    intro p
    have hall : ((staging.staged.map (·.entry)).map (·.name)).Nodup := by
      refine List.Nodup.of_map keyOf ?_
      rw [List.map_map, List.map_map]
      exact htracks.keys_nodup
    exact (List.filter_sublist.map _).nodup hall
  have hdefinitions : ∀ p : Definition → Bool,
      (((s.commitStaging settings now batch staging).state.registry.definitions.filter p).map
        (·.name)).Nodup := fun p => (List.filter_sublist.map _).nodup hafter.names_nodup
  constructor
  case total =>
    rw [haccepts.length_kept, List.length_map, ← length_checkEntries hadmits.checked, ← hlength,
      Nat.add_comm]
    rfl
  case completed =>
    simp only [batchResult, Bool.false_eq_true, ↓reduceIte]
    cases staging.failed <;> simp
  case created =>
    -- the report is in the order of the batch, the registry in that of its keys: only the members agree
    refine (List.perm_ext_iff_of_nodup (haccepts.created ▸ hnames _) (hdefinitions _)).mpr
      fun name => ?_
    rw [haccepts.mem_createdNames_iff hafter]
    simp [and_assoc]
  case updated =>
    refine (List.perm_ext_iff_of_nodup (haccepts.updated ▸ hnames _) (hdefinitions _)).mpr
      fun name => ?_
    rw [haccepts.mem_updatedNames_iff hafter hspelled']
    simp [and_assoc, Option.any_eq_true]
  case unchanged => exact fun name hlisted => haccepts.get?_of_not_listed hlisted
  case history =>
    obtain ⟨message, hhistory⟩ := hcommitted.history
    rw [hhistory]
    refine History.grows_recordChanges _ _ _ _ ?_
    rw [marks_changes htracks hspelled, haccepts.created, haccepts.updated]
    exact perm_marks _ settings s.registry

end State

namespace Engine

variable {ε : Type} [ElementAccess ε]

/-- Whatever led to an engine, and whatever a batch that is not cancelled asks for: if it is refused
as a whole, nothing has changed, and otherwise its result says what has. -/
theorem report_create (settings : Settings) (start : Instant) (supply : TokenSupply)
    (steps : List (Instant × Operation ε)) (now : Instant) (batch : Batch) :
    let e := (fresh settings start supply).run steps
    let result := (e.create now batch false).1
    let after := (e.create now batch false).2.state
    (result.status.IsRefusal → after = e.state ∧
        result.created = 0 ∧ result.updated = 0 ∧ result.skipped = 0) ∧
      (¬result.status.IsRefusal → State.Reports now batch.entries.length e.state after result) := by
  intro e result after
  have hkeyed := (keyed_invariant.of_any_run start settings supply steps).registry
  have hcoherent := coherent_invariant.of_any_run start settings supply steps
  obtain ⟨warnings, hresult⟩ := outcome_create e now batch false
  have hafter : after = (e.state.create e.settings now e.supply batch false).2.1 :=
    (moved_create e now batch false).state
  rw [hafter, show result = _ from hresult]
  rcases e.state.refused_or_admits e.settings now e.supply batch false with
    ⟨refusal, hrefuses, hcreate⟩ | ⟨entries, hadmits⟩
  · rw [hcreate]
    refine ⟨fun _ => ⟨rfl, ?_, ?_, hrefuses.skipped⟩, fun hnot => absurd hrefuses.status hnot⟩
    · exact congrArg List.length hrefuses.created
    · exact congrArg List.length hrefuses.updated
  · refine ⟨fun hrefusal => ?_, fun _ => ?_⟩
    · rw [State.create_of_admits hadmits] at hrefusal
      simp only [State.batchResult, Bool.false_eq_true, ↓reduceIte] at hrefusal
      split at hrefusal <;> exact hrefusal.elim
    · exact (State.reports_create now hkeyed hcoherent hadmits e.supply).withWarnings warnings

def paneRun : List (Instant × Operation LocalElement) :=
  [(⟨0, 0⟩, .create { entries := [{ name := "w", kind := "real" }, { name := "h", kind := "real" }] }
    false)]

/-- An entry that is new, one that changes a definition, one that repeats a definition, and one of a
name that the batch already has. -/
def mixedBatch : Batch where
  entries := [{ name := "d", kind := "real" }, { name := "w", kind := "real", visible := false },
    { name := "h", kind := "real" }, { name := "d", kind := "text" }]

theorem report_create_mixedBatch :
    let e := (fresh {} ⟨0, 0⟩ (.ofSeed 0)).run paneRun
    let step := e.create ⟨1, 0⟩ mixedBatch false
    step.1.createdNames = ["D"] ∧ step.1.updatedNames = ["W"] ∧ step.1.skipped = 1 ∧
      step.1.failed = 1 ∧ State.Reports ⟨1, 0⟩ 4 e.state step.2.state step.1 := by
  intro e step
  have hstatus : step.1.status = .completedWithErrors := by decide +kernel
  have hpassed : ¬step.1.status.IsRefusal := by
    rw [hstatus]
    exact id
  refine ⟨by decide +kernel, by decide +kernel, by decide +kernel, by decide +kernel, ?_⟩
  dsimp only [step, e] at hpassed ⊢
  exact (report_create {} ⟨0, 0⟩ (.ofSeed 0) paneRun ⟨1, 0⟩ mixedBatch).2 hpassed

end Engine

end Parametric
