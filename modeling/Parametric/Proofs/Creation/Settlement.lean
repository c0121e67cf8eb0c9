import Parametric.Element.Local
import Parametric.Proofs.Creation.Check
import Parametric.Proofs.State.Invariants

/-!
# Settled batches

Entries whose formulas reference an entry that failed are taken back one after the other. Whatever
the order, what is left in the end is the largest part of the entries that can do without the others.
-/

namespace Parametric

variable {settings : Settings} {now : Instant}

/-! ## Entries that pass on their own -/

namespace Staging

/-- The entries that do not fail when they are staged one after the other. -/
def passing (settings : Settings) (now : Instant) (s : Staging) :
    List CheckedEntry → List CheckedEntry
  | [] => []
  | e :: rest =>
    match e.stagingError? settings s with
    | none => e :: (s.stage settings now e).passing settings now rest
    | some _ => (s.stage settings now e).passing settings now rest

variable {s : Staging} {entries : List CheckedEntry} {e : CheckedEntry}

theorem stagingError?_eq_none_iff : e.stagingError? settings s = none ↔
    e.name.length ≤ settings.naming.maxLength ∧ keyOf e.name ∉ s.seen ∧
      e.tokenOwner? s.registry = none := by
  simp only [CheckedEntry.stagingError?]
  by_cases hlength : e.name.length > settings.naming.maxLength
  · simp [hlength, Nat.not_le.mpr hlength]
  · by_cases hseen : keyOf e.name ∈ s.seen
    · simp [hlength, hseen]
    · simp [hlength, hseen, Nat.le_of_not_lt hlength]

theorem seen_stage : (s.stage settings now e).seen = s.seenAfter settings e := by
  simp only [stage]
  split <;> rfl

/-- The keys that are taken after some entries are those of the names that are not too long. -/
theorem mem_seen_stageAll {key : String} :
    key ∈ (entries.foldl (·.stage settings now ·) s).seen ↔ key ∈ s.seen ∨
      ∃ e ∈ entries, e.name.length ≤ settings.naming.maxLength ∧ keyOf e.name = key := by
  induction entries generalizing s with
  | nil => simp
  | cons first rest ih =>
      rw [List.foldl_cons, ih, seen_stage, seenAfter, List.exists_mem_cons_iff, ← or_assoc]
      refine or_congr_left ?_
      by_cases hlength : first.name.length > settings.naming.maxLength
      · simp [hlength, Nat.not_le.mpr hlength]
      · simp [hlength, Nat.le_of_not_lt hlength, or_comm, eq_comm]

/-- An entry passes if its name is not too long, no earlier entry has taken its key, and its token
belongs to no other name at that moment. -/
theorem mem_passing_iff : e ∈ s.passing settings now entries ↔ ∃ init tail,
    entries = init ++ e :: tail ∧ e.name.length ≤ settings.naming.maxLength ∧
      (keyOf e.name ∉ s.seen ∧ ∀ e' ∈ init, e'.name.length ≤ settings.naming.maxLength →
        keyOf e'.name ≠ keyOf e.name) ∧
      e.tokenOwner? (init.foldl (·.stage settings now ·) s).registry = none := by
  have hsplit : e ∈ s.passing settings now entries ↔ ∃ init tail, entries = init ++ e :: tail ∧
      e.stagingError? settings (init.foldl (·.stage settings now ·) s) = none := by
    induction entries generalizing s with
    | nil => simp [passing]
    | cons first rest ih =>
        have hmem : e ∈ s.passing settings now (first :: rest) ↔
            (e = first ∧ first.stagingError? settings s = none) ∨
              e ∈ (s.stage settings now first).passing settings now rest := by
          rw [passing]
          cases first.stagingError? settings s <;> simp
        rw [hmem, ih]
        constructor
        · rintro (⟨rfl, hnone⟩ | ⟨init, tail, rfl, hnone⟩)
          · exact ⟨[], rest, rfl, hnone⟩
          · exact ⟨first :: init, tail, rfl, hnone⟩
        · rintro ⟨init, tail, heq, hnone⟩
          cases init with
          | nil =>
              cases heq
              exact .inl ⟨rfl, hnone⟩
          | cons other init =>
              cases heq
              exact .inr ⟨init, tail, rfl, hnone⟩
  simp only [hsplit, stagingError?_eq_none_iff, mem_seen_stageAll, not_or, not_exists, not_and]

theorem staged_write (s : Staging) (settings : Settings) (now : Instant) (e : CheckedEntry) :
    (s.write settings now e).staged.map (·.entry) = s.staged.map (·.entry) ++ [e] := by
  simp only [write]
  split
  · split <;> simp
  · simp

theorem failed_write (s : Staging) (settings : Settings) (now : Instant) (e : CheckedEntry) :
    (s.write settings now e).failed = s.failed := by
  simp only [write]
  split
  · split <;> rfl
  · rfl

theorem staged_stageAll (s : Staging) (settings : Settings) (now : Instant)
    (entries : List CheckedEntry) :
    (entries.foldl (·.stage settings now ·) s).staged.map (·.entry) =
      s.staged.map (·.entry) ++ s.passing settings now entries := by
  induction entries generalizing s with
  | nil => simp [passing]
  | cons first rest ih =>
      rw [List.foldl_cons, ih, passing]
      cases herror : first.stagingError? settings s with
      | none =>
          have hstaged : (s.stage settings now first).staged = (s.write settings now first).staged := by
            simp only [stage, herror]
          rw [hstaged, staged_write, List.append_assoc, List.singleton_append]
      | some error =>
          have hstaged : (s.stage settings now first).staged = s.staged := by
            simp only [stage, herror]
          rw [hstaged]

theorem length_stageAll (s : Staging) (settings : Settings) (now : Instant)
    (entries : List CheckedEntry) :
    (entries.foldl (·.stage settings now ·) s).failed.length +
        (entries.foldl (·.stage settings now ·) s).staged.length =
      s.failed.length + s.staged.length + entries.length := by
  induction entries generalizing s with
  | nil => rfl
  | cons first rest ih =>
      have hfirst : (s.stage settings now first).failed.length +
          (s.stage settings now first).staged.length = s.failed.length + s.staged.length + 1 := by
        cases herror : first.stagingError? settings s with
        | none =>
            have hlength := congrArg List.length (staged_write s settings now first)
            simp only [List.length_map, List.length_append, List.length_singleton] at hlength
            simp only [stage, herror, failed_write, hlength]
            omega
        | some error =>
            simp only [stage, herror, List.length_append, List.length_singleton]
            omega
      rw [List.foldl_cons, ih, hfirst, List.length_cons]
      omega

end Staging

/-! ## Entries that can do without the others -/

namespace State

/-- Whether formulas may reference a name: it is registered, or the result of a formula. -/
def Knows (s : State) (name : String) : Prop :=
  s.registry.contains name = true ∨ s.formulas.contains (keyOf name) = true

theorem knows_congr {s : State} {name other : String} (h : keyOf other = keyOf name) : s.Knows other ↔ s.Knows name := by
  rw [Knows, Knows, Registry.contains, Registry.contains, h]

/-- The formulas of entries reference only names that are known before or that the entries have,
unless they may reference unknown names. -/
def Consistent (s : State) (entries : List CheckedEntry) : Prop :=
  ∀ e ∈ entries, e.proposal.allowMissing = false → ∀ f, e.formula = some f → ∀ name ∈ f.references,
    s.Knows name ∨ ∃ e' ∈ entries, keyOf e'.name = keyOf name

/-- The largest part of some entries that can do without the others. -/
structure Largest (s : State) (entries kept : List CheckedEntry) : Prop where
  sublist : kept.Sublist entries
  consistent : s.Consistent kept
  greatest : ∀ other, (∀ e ∈ other, e ∈ entries) → s.Consistent other → ∀ e ∈ other, e ∈ kept

end State

namespace Staging

variable {before : State} {entries : List CheckedEntry} {s : Staging}

theorem broken?_eq_none_iff {registry : Registry} {formulas : Formulas} {e : StagedEntry} :
    broken? registry formulas e = none ↔ (e.entry.proposal.allowMissing = false →
      ∀ f, e.entry.formula = some f → ∀ name ∈ f.references,
        registry.contains name = true ∨ formulas.contains (keyOf name) = true) := by
  simp only [broken?, StagedEntry.dangling?]
  cases e.entry.proposal.allowMissing with
  | true => simp
  | false =>
      cases e.entry.formula with
      | none => simp
      | some f =>
          simp [List.find?_eq_none, or_iff_not_imp_left]

theorem broken?_eq_some {registry : Registry} {formulas : Formulas} {e : StagedEntry} {name : String}
    (h : broken? registry formulas e = some name) :
    e.entry.proposal.allowMissing = false ∧ ∃ f, e.entry.formula = some f ∧ name ∈ f.references ∧
      registry.contains name = false ∧ formulas.contains (keyOf name) = false := by
  simp only [broken?, StagedEntry.dangling?] at h
  split at h
  · cases h
  · rename_i hallow
    cases hf : e.entry.formula with
    | none => simp [hf] at h
    | some f =>
        rw [hf] at h
        have hfound := List.find?_some h
        rw [Bool.and_eq_true, Bool.not_eq_true', Bool.not_eq_true'] at hfound
        exact ⟨by simpa using hallow, f, rfl, List.mem_of_find?_eq_some h, hfound⟩

/-- The registered names are those from before and those of the staged entries. -/
theorem Tracks.contains_iff {r : Registry} (h : s.Tracks settings now r entries) {name : String} :
    s.registry.contains name = true ↔
      r.contains name = true ∨ ∃ e ∈ s.staged, keyOf e.entry.name = keyOf name := by
  have hcontains : ∀ {r : Registry}, r.contains name = true ↔ ∃ d, r.get? name = some d :=
    SortedMap.contains_iff
  by_cases hany : ∃ e ∈ s.staged, keyOf e.entry.name = keyOf name
  · obtain ⟨e, he, hkey⟩ := hany
    rw [hcontains, ← Registry.get?_congr hkey]
    exact iff_of_true (h.written e he).registered (.inr ⟨e, he, hkey⟩)
  · have hnone : ∀ e ∈ s.staged, keyOf e.entry.name ≠ keyOf name := fun e he hkey =>
      hany ⟨e, he, hkey⟩
    rw [hcontains, hcontains, h.untouched name hnone, or_iff_left hany]

theorem takeFirst?_eq_none {α β : Type} {f : α → Option β} {l : List α}
    (h : takeFirst? f l = none) : ∀ a ∈ l, f a = none := by
  induction l with
  | nil => exact fun a ha => absurd ha List.not_mem_nil
  | cons x xs ih =>
      simp only [takeFirst?] at h
      split at h
      · cases h
      · rename_i hx
        exact List.forall_mem_cons.mpr ⟨hx, ih (Option.map_eq_none_iff.mp h)⟩

theorem sublist_settle (s : Staging) (formulas : Formulas) :
    (s.settle formulas).staged.Sublist s.staged := by
  fun_induction settle s formulas with
  | case1 s hnone => exact .refl _
  | case2 s e name others hfound _ ih =>
      obtain ⟨init, tail, hstaged, rfl, -⟩ := takeFirst?_eq_some hfound
      rw [hstaged]
      exact ih.trans ((List.Sublist.refl init).append (List.sublist_cons_self e tail))

theorem length_settle (s : Staging) (formulas : Formulas) :
    (s.settle formulas).failed.length + (s.settle formulas).staged.length =
      s.failed.length + s.staged.length := by
  fun_induction settle s formulas with
  | case1 s hnone => rfl
  | case2 s e name others hfound _ ih =>
      obtain ⟨init, tail, hstaged, rfl, -⟩ := takeFirst?_eq_some hfound
      rw [ih, hstaged]
      simp only [List.length_append, List.length_cons, List.length_nil]
      omega

/-- The entries that are left in the end can do without those that were taken back. -/
theorem consistent_settle (h : s.Tracks settings now before.registry entries)
    (hbefore : before.registry.Keyed) :
    before.Consistent ((s.settle before.formulas).staged.map (·.entry)) := by
  fun_induction settle s before.formulas with
  | case2 s e name others hfound _ ih =>
      obtain ⟨init, tail, hstaged, rfl, -⟩ := takeFirst?_eq_some hfound
      exact ih (h.undo hbefore hstaged rfl rfl rfl)
  | case1 s hnone =>
      rintro _ hmem hallow f hf name hname
      obtain ⟨e, he, rfl⟩ := List.mem_map.mp hmem
      have hknown := broken?_eq_none_iff.mp (takeFirst?_eq_none hnone e he) hallow f hf name hname
      rw [h.contains_iff, or_right_comm] at hknown
      refine hknown.imp_right ?_
      rintro ⟨e', he', hkey⟩
      exact ⟨e'.entry, List.mem_map_of_mem he', hkey⟩

theorem greatest_settle (h : s.Tracks settings now before.registry entries)
    (hbefore : before.registry.Keyed) {other : List CheckedEntry} (hother : before.Consistent other)
    (hmem : ∀ e ∈ other, e ∈ s.staged.map (·.entry)) :
    ∀ e ∈ other, e ∈ (s.settle before.formulas).staged.map (·.entry) := by
  fun_induction settle s before.formulas with
  | case1 s hnone => exact hmem
  | case2 s e name others hfound _ ih =>
      obtain ⟨init, tail, hstaged, rfl, hbroken⟩ := takeFirst?_eq_some hfound
      obtain ⟨hallow, f, hf, hname, hregistry, hformulas⟩ := broken?_eq_some hbroken
      -- The unknown name would be known if the entry belonged to the others: they are all staged.
      have hnot : e.entry ∉ other := by
        intro he
        refine absurd hregistry (Bool.not_eq_false _ ▸ h.contains_iff.mpr ?_)
        rcases hother e.entry he hallow f hf name hname with (hknown | hknown) | ⟨e', he', hkey⟩
        · exact .inl hknown
        · exact absurd hknown (by simp [hformulas])
        · obtain ⟨staged, hs, rfl⟩ := List.mem_map.mp (hmem e' he')
          exact .inr ⟨staged, hs, hkey⟩
      refine ih (h.undo hbefore hstaged rfl rfl rfl) fun e' he' => ?_
      obtain ⟨staged, hs, rfl⟩ := List.mem_map.mp (hmem e' he')
      rw [hstaged, List.mem_append, List.mem_cons, or_left_comm] at hs
      rcases hs with rfl | hs
      · exact absurd he' hnot
      · exact List.mem_map_of_mem (List.mem_append.mpr hs)

/-- What is staged in the end is the largest part of the entries that pass. -/
theorem largest_ofEntries (settings : Settings) (now : Instant) (hbefore : before.registry.Keyed)
    (supply : TokenSupply) (entries : List CheckedEntry) :
    before.Largest (passing settings now { registry := before.registry, supply := supply } entries)
      ((ofEntries settings now before supply entries).staged.map (·.entry)) := by
  have htracks : Tracks settings now before.registry entries (entries.foldl (·.stage settings now ·)
      { registry := before.registry, supply := supply }) :=
    (Tracks.start hbefore supply).stageAll fun _ he => he
  have hstaged := staged_stageAll { registry := before.registry, supply := supply } settings now entries
  rw [List.map_nil, List.nil_append] at hstaged
  constructor
  case sublist =>
    rw [← hstaged]
    exact (sublist_settle _ _).map _
  case consistent => exact consistent_settle htracks hbefore
  case greatest =>
    intro other hmem hother
    refine greatest_settle htracks hbefore hother fun e he => ?_
    rw [hstaged]
    exact hmem e he

/-- An entry that passes on its own and references nothing unknown is kept. -/
theorem entries_ofEntries_singleton (now : Instant) (hbefore : before.registry.Keyed) (supply : TokenSupply)
    {e : CheckedEntry}
    (hpasses : e.stagingError? settings { registry := before.registry, supply := supply } = none)
    (hconsistent : before.Consistent [e]) :
    (ofEntries settings now before supply [e]).staged.map (·.entry) = [e] := by
  have hlargest := largest_ofEntries settings now hbefore supply [e]
  have hpassing : passing settings now { registry := before.registry, supply := supply } [e] = [e] := by
    simp [passing, hpasses]
  rw [hpassing] at hlargest
  have hmem := hlargest.greatest [e] (fun _ h => h) hconsistent e List.mem_cons_self
  exact (List.sublist_singleton.mp hlargest.sublist).resolve_left fun hnil => by simp [hnil] at hmem

end Staging

/-! ## Batches -/

/-- What an entry does to a name: the definition is created, or it is updated unless it has the shape
that is asked for. -/
def CheckedEntry.outcomeIn (e : CheckedEntry) (settings : Settings) (r : Registry) : StagedAs :=
  match r.get? e.name with
  | none => .created
  | some d => if (e.updated settings d).agreesWith d then .skipped else .updated

theorem StagedAs.Writes.eq_outcomeIn {e : CheckedEntry} {outcome : StagedAs} {r : Registry}
    {current : Option Definition} (h : outcome.Writes settings now e (r.get? e.name) current) :
    outcome = e.outcomeIn settings r := by
  simp only [CheckedEntry.outcomeIn]
  generalize r.get? e.name = previous at h
  cases h with
  | created token => rfl
  | updated d hd => simp [hd]
  | skipped d hd => simp [hd]

namespace State

/-- A batch has done what the entries that were kept ask for, and nothing else. -/
structure Accepts (settings : Settings) (now : Instant) (s : State) (kept : List CheckedEntry)
    (result : BatchOutcome) (after : State) : Prop where
  created : result.createdNames =
    (kept.filter (·.outcomeIn settings s.registry == .created)).map (·.name)
  updated : result.updatedNames =
    (kept.filter (·.outcomeIn settings s.registry == .updated)).map (·.name)
  skipped : result.skipped = (kept.filter (·.outcomeIn settings s.registry == .skipped)).length
  written : ∀ e ∈ kept, (e.outcomeIn settings s.registry).Writes settings now e
    (s.registry.get? e.name) (after.registry.get? e.name)
  untouched : ∀ name, (∀ e ∈ kept, keyOf e.name ≠ keyOf name) →
    after.registry.get? name = s.registry.get? name ∧
      after.formulas.formula? name = s.formulas.formula? name ∧
      after.graph.triplesOf (keyOf name) = s.graph.triplesOf (keyOf name)
  known : ∀ e ∈ kept, e.proposal.allowMissing = false → ∀ f, e.formula = some f →
    ∀ name ∈ f.references, after.Knows name

variable {s : State} {batch : Batch} {entries : List CheckedEntry}

/-- What was known before a batch and the names of its staged entries are known afterwards. -/
theorem Committed.knows {s' : State} {staging : Staging} {name : String}
    (hcommitted : s.Committed settings now staging s')
    (h : staging.Tracks settings now s.registry entries)
    (hname : s.Knows name ∨ ∃ e ∈ staging.staged.map (·.entry), keyOf e.name = keyOf name) :
    s'.Knows name := by
  rw [Knows, hcommitted.registry, hcommitted.formulas, h.contains_iff]
  rcases hname with (hknown | hknown) | ⟨e, he, hkey⟩
  · exact .inl (.inl hknown)
  · exact .inr (Formulas.contains_putAll hknown)
  · obtain ⟨staged, hs, rfl⟩ := List.mem_map.mp he
    exact .inl (.inr ⟨staged, hs, hkey⟩)

theorem accepts_commitStaging {staging : Staging} (hc : s.graph.Coherent)
    (h : staging.Tracks settings now s.registry entries)
    (hconsistent : s.Consistent (staging.staged.map (·.entry))) (conflicts : List Conflict)
    (batch : Batch) :
    s.Accepts settings now (staging.staged.map (·.entry))
      (batchResult false conflicts staging (s.commitStaging settings now batch staging))
      (s.commitStaging settings now batch staging).state := by
  have hcommitted := s.committed_commitStaging settings now batch staging
  have houtcome : ∀ e ∈ staging.staged, e.outcome = e.entry.outcomeIn settings s.registry :=
    fun e he => (h.written e he).eq_outcomeIn
  have hregistered : ∀ e ∈ staging.staged, staging.registry.contains e.entry.name = true :=
    fun e he => SortedMap.contains_iff.mpr (h.written e he).registered
  have hcounts := Committing.counts settings now { state := { s with registry := staging.registry } }
    staging.staged hregistered
  have hfilter : ∀ outcome : StagedAs,
      (staging.staged.map (·.entry)).filter (·.outcomeIn settings s.registry == outcome) =
        (staging.staged.filter (·.outcome == outcome)).map (·.entry) := by
    intro outcome
    rw [List.filter_map]
    refine congrArg _ (List.filter_congr fun e he => ?_)
    rw [Function.comp_apply, houtcome e he]
  constructor
  case created =>
    rw [hfilter, List.map_map]
    exact hcounts.created.trans (List.nil_append _)
  case updated =>
    rw [hfilter, List.map_map]
    exact hcounts.updated.trans (List.nil_append _)
  case skipped =>
    rw [hfilter, List.length_map]
    exact hcounts.skipped.trans (Nat.zero_add _)
  case written =>
    intro _ hmem
    obtain ⟨e, he, rfl⟩ := List.mem_map.mp hmem
    rw [hcommitted.registry, ← houtcome e he]
    exact h.written e he
  case untouched =>
    intro name hname
    have hstaged : ∀ e ∈ staging.staged, keyOf e.entry.name ≠ keyOf name := fun e he =>
      hname e.entry (List.mem_map_of_mem he)
    -- a name is touched in three places, each of them under the keys of staged entries only
    refine ⟨?_, ?_, ?_⟩
    · rw [hcommitted.registry, h.untouched name hstaged]
    · rw [hcommitted.formulas]
      refine Formulas.get?_putAll_of_ne fun f hf => ?_
      obtain ⟨e, he, hstored⟩ := List.mem_filterMap.mp hf
      obtain ⟨_, -, rfl⟩ := Option.map_eq_some_iff.mp hstored
      exact hstaged e he
    · rw [hcommitted.graph]
      refine Graph.triplesOf_setAll hc fun f hf => ?_
      obtain ⟨e, he, hreferences⟩ := List.mem_filterMap.mp hf
      obtain ⟨_, -, rfl⟩ := Option.map_eq_some_iff.mp hreferences
      exact hstaged e he
  case known =>
    intro e he hallow f hf name hname
    exact hcommitted.knows h (hconsistent e he hallow f hf name hname)

theorem Accepts.withWarnings {kept : List CheckedEntry} {result : BatchOutcome} {after : State}
    (h : s.Accepts settings now kept result after) (warnings : List Issue) :
    s.Accepts settings now kept { result with warnings := warnings } after :=
  ⟨h.created, h.updated, h.skipped, h.written, h.untouched, h.known⟩

theorem length_ofEntries (s : State) (settings : Settings) (now : Instant) (supply : TokenSupply)
    (entries : List CheckedEntry) :
    (Staging.ofEntries settings now s supply entries).failed.length +
      (Staging.ofEntries settings now s supply entries).staged.length = entries.length := by
  rw [Staging.ofEntries, Staging.length_settle, Staging.length_stageAll]
  simp only [List.length_nil, Nat.zero_add]

/-- The gates let a batch through only to keep the largest part of its entries. -/
theorem exists_largest (now : Instant) (hkeyed : s.registry.Keyed) (hc : s.graph.Coherent)
    (hadmits : s.Admits settings batch entries) (supply : TokenSupply) :
    let created := s.create settings now supply batch false
    ∃ kept, s.Largest (Staging.passing settings now
        { registry := s.registry, supply := supply } entries) kept ∧
      s.Accepts settings now kept created.1 created.2.1 ∧
      created.1.failed + kept.length = batch.entries.length := by
  rw [create_of_admits hadmits, if_neg Bool.false_ne_true]
  have hlargest := Staging.largest_ofEntries settings now hkeyed supply entries
  refine ⟨_, hlargest, accepts_commitStaging hc (Staging.tracks_ofEntries settings now hkeyed supply
    entries) hlargest.consistent _ batch, ?_⟩
  rw [List.length_map, ← length_checkEntries hadmits.checked]
  exact s.length_ofEntries settings now supply entries

end State

namespace Engine

variable {ε : Type} [ElementAccess ε]

/-- Whatever led to an engine, and whatever a batch asks for that the gates let through: kept is the
largest part of the entries that pass on their own whose formulas can do without all other entries.
The batch does what these ask for and nothing else, and all others fail. -/
theorem largest_create (settings : Settings) (start : Instant) (supply : TokenSupply)
    (steps : List (Instant × Operation ε)) (now : Instant) (batch : Batch)
    (entries : List CheckedEntry)
    (hadmits : ((fresh settings start supply).run steps).state.Admits
      ((fresh settings start supply).run steps).settings batch entries) :
    let e := (fresh settings start supply).run steps
    let s := e.state
    let result := (e.create now batch false).1
    let after := (e.create now batch false).2.state
    ∃ kept, s.Largest (Staging.passing e.settings now
        { registry := s.registry, supply := e.supply } entries) kept ∧
      s.Accepts e.settings now kept result after ∧
      result.failed + kept.length = batch.entries.length := by
  intro e s result after
  obtain ⟨kept, hlargest, haccepts, hlength⟩ := State.exists_largest now
    (keyed_invariant.of_any_run start settings supply steps).registry
    (coherent_invariant.of_any_run start settings supply steps) hadmits e.supply
  obtain ⟨warnings, hresult⟩ := outcome_create e now batch false
  have hafter : after = (s.create e.settings now e.supply batch false).2.1 :=
    (moved_create e now batch false).state
  refine ⟨kept, hlargest, ?_, ?_⟩
  · rw [hafter, show result = _ from hresult]
    exact haccepts.withWarnings warnings
  · rw [show result = _ from hresult]
    exact hlength

def ownedRun : List (Instant × Operation LocalElement) :=
  [(⟨0, 0⟩, .create { entries := [
      { name := "w", kind := "real", identity := some "11111111111141118111111111111111" }] } false)]

/-- Two entries reference, directly or not, an entry whose token is not its own; another one
references a name that is registered. -/
def partialBatch : Batch where
  entries := [{ name := "c", kind := "real", formula := some "b" },
    { name := "d", kind := "real", formula := some "w" },
    { name := "b", kind := "real", formula := some "a" },
    { name := "a", kind := "real", identity := some "11111111111141118111111111111111" }]

/-- Of the four entries one is kept. -/
theorem largest_create_partialBatch :
    let e := (fresh {} ⟨0, 0⟩ (.ofSeed 0)).run ownedRun
    let step := e.create ⟨1, 0⟩ partialBatch false
    step.1.createdNames = ["D"] ∧ step.1.failed = 3 ∧ ∃ entries kept,
      e.state.Admits e.settings partialBatch entries ∧
      e.state.Largest (Staging.passing e.settings ⟨1, 0⟩
        { registry := e.state.registry, supply := e.supply } entries) kept ∧
      e.state.Accepts e.settings ⟨1, 0⟩ kept step.1 step.2.state := by
  intro e step
  obtain ⟨entries, hadmits⟩ : ∃ entries, e.state.Admits e.settings partialBatch entries :=
    State.exists_admits (List.cons_ne_nil _ _) (by decide +kernel)
  obtain ⟨kept, hlargest, haccepts, -⟩ := largest_create {} ⟨0, 0⟩ (.ofSeed 0) ownedRun ⟨1, 0⟩
    partialBatch entries hadmits
  refine ⟨by decide +kernel, by decide +kernel, entries, kept, hadmits, hlargest, ?_⟩
  dsimp only [step, e]
  exact haccepts

end Engine

end Parametric
