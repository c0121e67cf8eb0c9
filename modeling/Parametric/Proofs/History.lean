import Parametric.History.Log
import Parametric.Proofs.Registry

/-!
# Histories

What the last event of a name says about its definition, and how records and snapshots add to it.
-/

namespace Parametric

/-- The definition that a change leaves under its name. -/
def Change.Kind.leaves? (kind : Change.Kind) (d : Definition) : Option Definition :=
  match kind with
  | .created | .updated => some d
  | .deleted | .renamed => none

/-- What the last of some changes leaves under a name, if one of them is about it. -/
def lastOutcome? (changes : List Change) (name : String) : Option (Option Definition) :=
  (changes.filter fun c => c.definition.key == keyOf name).getLast?.map fun c =>
    c.kind.leaves? c.definition

/-- The definition that the events of a name leave under it. -/
def History.replayed? (h : History) (name : String) : Option Definition :=
  (h.eventsOf name).getLast?.bind fun e => e.change.leaves? e.definition

/-! ## The last change of a name -/

section Changes

variable {changes more : List Change} {c : Change} {name : String}

theorem lastOutcome?_append : lastOutcome? (changes ++ more) name =
    (lastOutcome? more name).or (lastOutcome? changes name) := by
  simp only [lastOutcome?, List.filter_append, List.getLast?_append]
  cases (more.filter fun c => c.definition.key == keyOf name).getLast? <;> simp

theorem lastOutcome?_eq_none (h : ∀ c ∈ changes, c.definition.key ≠ keyOf name) :
    lastOutcome? changes name = none := by
  have hnil : (changes.filter fun c => c.definition.key == keyOf name) = [] :=
    List.filter_eq_nil_iff.mpr fun c hc => by simpa using h c hc
  simp [lastOutcome?, hnil]

theorem lastOutcome?_eq_some (hc : c ∈ changes) (hkey : c.definition.key = keyOf name)
    (hall : ∀ c' ∈ changes, c'.definition.key = keyOf name → c' = c) :
    lastOutcome? changes name = some (c.kind.leaves? c.definition) := by
  have hmem : c ∈ changes.filter fun c => c.definition.key == keyOf name :=
    List.mem_filter.mpr ⟨hc, by simpa using hkey⟩
  cases hlast : (changes.filter fun c => c.definition.key == keyOf name).getLast? with
  | none => simp [List.getLast?_eq_none_iff.mp hlast] at hmem
  | some last =>
      obtain ⟨hl, hk⟩ := List.mem_filter.mp (List.mem_of_getLast? hlast)
      rw [lastOutcome?, hlast, hall last hl (by simpa using hk), Option.map_some]

theorem lastOutcome?_singleton (hkey : c.definition.key = keyOf name) :
    lastOutcome? [c] name = some (c.kind.leaves? c.definition) :=
  lastOutcome?_eq_some List.mem_cons_self hkey fun _ h _ => List.mem_singleton.mp h

end Changes

namespace History

variable {h : History} {now : Instant} {message : String} {author : Option String}
  {changes : List Change} {step : VersionStep}

/-! ## Records -/

/-- The changes of a record are the last word on the names that they are about. -/
theorem replayed?_record (name : String) :
    (h.record now message author changes step).replayed? name =
      (lastOutcome? changes name).getD (h.replayed? name) := by
  simp only [replayed?, eventsOf, record, List.filter_append, List.getLast?_append, List.filter_map,
    List.getLast?_map, lastOutcome?]
  have hkey : ((fun e : Event => keyOf e.name == keyOf name) ∘
      eventOf now (h.revision.advance step now).version.text message) =
        fun c => c.definition.key == keyOf name := rfl
  rw [hkey]
  cases (changes.filter fun c => c.definition.key == keyOf name).getLast? <;> rfl

theorem recordChanges_nil : h.recordChanges now message author [] = h := rfl

theorem recordChanges_of_ne_nil (h : History) (now : Instant) (message : String)
    (author : Option String) (hne : changes ≠ []) : ∃ step,
    h.recordChanges now message author changes = h.record now message author changes step := by
  simp only [recordChanges, VersionStep.ofChanges?]
  split
  · rename_i step _
    exact ⟨step, rfl⟩
  · rename_i hnone
    repeat' split at hnone
    all_goals simp_all

theorem replayed?_recordChanges (name : String) :
    (h.recordChanges now message author changes).replayed? name =
      (lastOutcome? changes name).getD (h.replayed? name) := by
  by_cases hne : changes = []
  · rw [hne, recordChanges_nil]
    rfl
  · obtain ⟨step, hstep⟩ := recordChanges_of_ne_nil h now message author hne
    rw [hstep, replayed?_record]

/-- A history has gained one event for each of some created and updated names, and one commit if
there are any, which counts as a minor step if something was created. -/
structure Grows (now : Instant) (created updated : List String) (h h' : History) : Prop where
  snapshots : h'.snapshots = h.snapshots
  events : ∃ new, h'.events = h.events ++ new ∧ (new.map fun e => (e.name, e.change)).Perm
    (created.map (·, Change.Kind.created) ++ updated.map (·, Change.Kind.updated))
  unchanged : created = [] → updated = [] → h' = h
  committed : created ≠ [] ∨ updated ≠ [] → ∃ commit, h'.commits = h.commits ++ [commit] ∧
    commit.revision = h'.revision ∧
      h'.revision = h.revision.advance (if created = [] then .patch else .minor) now

theorem ofChanges?_of_perm {created updated : List String}
    (h : (changes.map fun c => (c.definition.name, c.kind)).Perm
      (created.map (·, Change.Kind.created) ++ updated.map (·, Change.Kind.updated))) :
    VersionStep.ofChanges? changes = if created ≠ [] then some .minor
      else if updated ≠ [] then some .patch else none := by
  have hany : ∀ kind, changes.any (·.kind == kind) = true ↔
      (kind = .created ∧ created ≠ []) ∨ (kind = .updated ∧ updated ≠ []) := by
    intro kind
    have hmap : changes.any (·.kind == kind) =
        (changes.map fun c => (c.definition.name, c.kind)).any (·.2 == kind) := by
      rw [List.any_map]
      rfl
    rw [hmap, h.any_eq, List.any_append, List.any_map, List.any_map]
    cases kind <;> simp [List.eq_nil_iff_forall_not_mem, Function.comp_def]
  have hempty : changes.isEmpty = true ↔ created = [] ∧ updated = [] := by
    rw [List.isEmpty_iff, ← List.length_eq_zero_iff, ← List.length_map, h.length_eq]
    simp
  have hdeleted : ¬changes.any (·.kind == .deleted) = true := by simp [hany]
  simp only [VersionStep.ofChanges?, hdeleted, hempty, hany]
  by_cases hc : created = [] <;> by_cases hu : updated = [] <;> simp [hc, hu]

theorem grows_recordChanges (h : History) (now : Instant) (message : String) (author : Option String)
    {created updated : List String}
    (hperm : (changes.map fun c => (c.definition.name, c.kind)).Perm
      (created.map (·, Change.Kind.created) ++ updated.map (·, Change.Kind.updated))) :
    h.Grows now created updated (h.recordChanges now message author changes) := by
  by_cases hnone : created = [] ∧ updated = []
  · obtain ⟨rfl, rfl⟩ := hnone
    have hnil : changes = [] := by simpa using hperm
    subst hnil
    exact ⟨rfl, ⟨[], (List.append_nil _).symm, .nil⟩, fun _ _ => rfl, by simp⟩
  · have hstep : VersionStep.ofChanges? changes =
        some (if created = [] then .patch else .minor) := by
      rw [ofChanges?_of_perm hperm]
      by_cases hc : created = []
      · have hu : updated ≠ [] := fun hu => hnone ⟨hc, hu⟩
        simp [hc, hu]
      · simp [hc]
    simp only [recordChanges, hstep]
    refine ⟨rfl, ⟨_, rfl, ?_⟩, fun hc hu => absurd ⟨hc, hu⟩ hnone, fun _ => ⟨_, rfl, rfl, rfl⟩⟩
    rw [List.map_map]
    exact hperm

/-! ## Snapshots -/

@[simp] theorem snapshots_record :
    (h.record now message author changes step).snapshots = h.snapshots := rfl

@[simp] theorem snapshots_recordChanges :
    (h.recordChanges now message author changes).snapshots = h.snapshots := by
  simp only [recordChanges]
  split <;> rfl

theorem mem_snapshots_addSnapshot {description : String} {registry : Registry}
    {formulas : Formulas} {snapshot : Snapshot}
    (hm : snapshot ∈ (h.addSnapshot now description registry formulas).snapshots) :
    snapshot ∈ h.snapshots ∨ (snapshot.registry = registry ∧ snapshot.formulas = formulas) := by
  simp only [addSnapshot, List.mem_append, List.mem_singleton] at hm
  rcases hm with hm | rfl
  · exact .inl hm
  · exact .inr ⟨rfl, rfl⟩

theorem mem_of_snapshot? {id : SnapshotNumber} {snapshot : Snapshot}
    (hs : h.snapshot? id = some snapshot) : snapshot ∈ h.snapshots :=
  List.mem_of_find?_eq_some hs

end History

end Parametric
