import Parametric.Proofs.Creation.Commit

/-!
# Checked batches

What the checks of a batch have seen when they let it pass.
-/

namespace Parametric

/-- A status of batches that are refused as a whole. -/
def BatchOutcome.Status.IsRefusal : BatchOutcome.Status → Prop
  | .rejected | .validationFailed | .conflictsDetected => True
  | .completed | .completedWithErrors | .cancelled => False

/-- A batch that is refused as a whole has done nothing. -/
structure BatchOutcome.Refuses (r : BatchOutcome) : Prop where
  status : r.status.IsRefusal
  created : r.createdNames = []
  updated : r.updatedNames = []
  skipped : r.skipped = 0

namespace State

variable {s : State} {settings : Settings} {proposals : List Proposal}
  {entries : List CheckedEntry}

/-! ## Names -/

section Names

variable {p : Proposal} {d : Definition}

theorem entryName_of_get? (h : s.registry.get? (settings.naming.normalize p.name) = some d) :
    s.entryName settings p = d.name := by
  rw [entryName, Registry.spelling?, h, Option.map_some, Option.getD_some]

theorem entryName_of_none (h : s.registry.get? (settings.naming.normalize p.name) = none) :
    s.entryName settings p = settings.naming.normalize p.name := by
  rw [entryName, Registry.spelling?, h, Option.map_none, Option.getD_none]

theorem keyOf_entryName (hk : s.registry.Keyed) (settings : Settings) (p : Proposal) :
    keyOf (s.entryName settings p) = keyOf (settings.naming.normalize p.name) := by
  cases hget : s.registry.get? (settings.naming.normalize p.name) with
  | none => rw [entryName_of_none hget]
  | some d =>
    rw [entryName_of_get? hget]
    exact hk.key_eq hget

end Names

/-! ## Checks -/

/-- A batch passes if none of its entries has an error and its formulas close no cycle. -/
theorem checkEntries_eq_ok (h : s.checkEntries settings proposals = .ok entries) :
    s.entryIssues settings (s.batchNames settings proposals) 1 proposals = [] ∧
      s.graph.cycleWithAll
        (s.batchFormulas settings (s.batchNames settings proposals) proposals) = none ∧
      entries = proposals.filterMap (s.checked? settings (s.batchNames settings proposals)) := by
  simp only [checkEntries] at h
  split at h
  · rename_i hempty
    rw [List.isEmpty_iff, List.append_eq_nil_iff, cycleIssues] at hempty
    obtain ⟨hissues, hcycle⟩ := hempty
    refine ⟨hissues, ?_, (Except.ok.inj h).symm⟩
    split at hcycle
    · assumption
    · cases hcycle
  · cases h

theorem entryErrors_eq_nil {names : SortedMap String} {number : Nat}
    (h : s.entryIssues settings names number proposals = []) :
    ∀ p ∈ proposals, s.entryErrors settings names p = [] := by
  induction proposals generalizing number with
  | nil => exact fun p hp => absurd hp List.not_mem_nil
  | cons first rest ih =>
      rw [entryIssues, List.append_eq_nil_iff, List.map_eq_nil_iff] at h
      exact List.forall_mem_cons.mpr ⟨h.1, ih h.2⟩

theorem length_checkEntries (h : s.checkEntries settings proposals = .ok entries) :
    entries.length = proposals.length := by
  obtain ⟨hissues, -, rfl⟩ := checkEntries_eq_ok h
  refine List.filterMap_length_eq_length.mpr fun p hp => ?_
  have herrors := entryErrors_eq_nil hissues p hp
  simp only [entryErrors, List.append_eq_nil_iff] at herrors
  obtain ⟨⟨⟨-, hkind⟩, -⟩, -⟩ := herrors
  rw [checked?, Option.isSome_map]
  cases hnamed : ValueKind.named? p.kind with
  | none => simp [Proposal.kindErrors, hnamed] at hkind
  | some kind => rfl

theorem checked?_eq_some {names : SortedMap String} {p : Proposal} {e : CheckedEntry}
    (h : s.checked? settings names p = some e) :
    e.name = s.entryName settings p ∧
      e.formula = p.formula? (s.meaningIn? names (s.entryName settings p)) := by
  rw [checked?, Option.map_eq_some_iff] at h
  obtain ⟨kind, -, he⟩ := h
  exact ⟨(congrArg CheckedEntry.name he).symm, (congrArg CheckedEntry.formula he).symm⟩

theorem proposal_of_checked? {names : SortedMap String} {p : Proposal} {e : CheckedEntry}
    (h : s.checked? settings names p = some e) : e.proposal = p := by
  rw [checked?, Option.map_eq_some_iff] at h
  obtain ⟨kind, -, he⟩ := h
  exact (congrArg CheckedEntry.proposal he).symm

theorem checked?_of_mem (h : s.checkEntries settings proposals = .ok entries) {e : CheckedEntry} (he : e ∈ entries) :
    e.proposal ∈ proposals ∧ s.checked? settings (s.batchNames settings proposals) e.proposal = some e := by
  obtain ⟨-, -, rfl⟩ := checkEntries_eq_ok h
  obtain ⟨p, hp, hentry⟩ := List.mem_filterMap.mp he
  rw [proposal_of_checked? hentry]
  exact ⟨hp, hentry⟩

theorem proposal_mem (h : s.checkEntries settings proposals = .ok entries) {e : CheckedEntry}
    (he : e ∈ entries) : e.proposal ∈ proposals :=
  (checked?_of_mem h he).1

theorem name_of_get? (hkeyed : s.registry.Keyed) (h : s.checkEntries settings proposals = .ok entries)
    {e : CheckedEntry} (he : e ∈ entries) {d : Definition} (hd : s.registry.get? e.name = some d) :
    d.name = e.name := by
  have hname := (checked?_eq_some (checked?_of_mem h he).2).1
  rw [hname, Registry.get?_congr (keyOf_entryName hkeyed settings e.proposal)] at hd
  rw [hname, entryName_of_get? hd]

theorem mem_batchFormulas {names : SortedMap String} {e : CheckedEntry} {f : String × List String}
    (he : e ∈ proposals.filterMap (s.checked? settings names)) (hf : e.references? = some f) :
    f ∈ s.batchFormulas settings names proposals := by
  obtain ⟨p, hp, hentry⟩ := List.mem_filterMap.mp he
  obtain ⟨hname, hformula⟩ := checked?_eq_some hentry
  rw [CheckedEntry.references?, hname, hformula] at hf
  exact List.mem_filterMap.mpr ⟨p, hp, hf⟩

theorem formula_eq_none {names : SortedMap String} {e : CheckedEntry}
    (hnone : ∀ p ∈ proposals, p.source? = none)
    (he : e ∈ proposals.filterMap (s.checked? settings names)) : e.formula = none := by
  obtain ⟨p, hp, hentry⟩ := List.mem_filterMap.mp he
  rw [(checked?_eq_some hentry).2, Proposal.formula?, Proposal.parsed?, hnone p hp,
    Option.map_none]

/-! ## Gates -/

/-- The gates let a batch through: it has entries, they pass the checks, and no kind of a registered
definition changes unless that is asked for. -/
structure Admits (s : State) (settings : Settings) (batch : Batch) (entries : List CheckedEntry) :
    Prop where
  nonempty : batch.entries ≠ []
  checked : s.checkEntries settings batch.entries = .ok entries
  unclashed : batch.overridesConflicts = true ∨
    ∀ e ∈ entries, ∀ c ∈ e.clashes s.registry, c.severity ≠ .critical

variable {batch : Batch} {now : Instant} {supply : TokenSupply} {cancelled : Bool}

theorem unclashed_iff : (batch.overridesConflicts = true ∨
      ∀ e ∈ entries, ∀ c ∈ e.clashes s.registry, c.severity ≠ .critical) ↔
    (!((entries.flatMap (·.clashes s.registry)).filter (·.severity == .critical)).isEmpty &&
      !batch.overridesConflicts) = false := by
  cases batch.overridesConflicts with
  | true => simp
  | false =>
      simp only [Bool.false_eq_true, false_or, Bool.not_false, Bool.and_true, Bool.not_eq_false',
        List.isEmpty_iff, List.filter_eq_nil_iff, List.mem_flatMap, beq_iff_eq, forall_exists_index,
        and_imp]
      exact ⟨fun h c e he hc => h e he c hc, fun h e he c hc => h c e he hc⟩

/-- A batch whose entries pass the checks is let through if they do not clash with the registry at all. -/
theorem exists_admits (hne : batch.entries ≠ [])
    (h : (s.checkEntries settings batch.entries).toOption.any
      (·.all fun e => (e.clashes s.registry).isEmpty) = true) : ∃ entries, s.Admits settings batch entries := by
  cases hcheck : s.checkEntries settings batch.entries with
  | error issues => simp [hcheck, Except.toOption] at h
  | ok entries =>
      simp only [hcheck, Except.toOption, Option.any_some, List.all_eq_true, List.isEmpty_iff] at h
      exact ⟨entries, hne, hcheck, .inr fun e he c hc => by simp [h e he] at hc⟩

/-- A batch that the gates let through is committed as far as it can be staged. -/
theorem create_of_admits (h : s.Admits settings batch entries) :
    s.create settings now supply batch cancelled =
      let staging := Staging.ofEntries settings now s supply (if cancelled then [] else entries)
      let c := s.commitStaging settings now batch staging
      (batchResult cancelled (entries.flatMap (·.clashes s.registry)) staging c, c.state,
        staging.supply) := by
  have hentries : batch.entries.isEmpty = false := by simpa using h.nonempty
  simp only [create, hentries, h.checked, unclashed_iff.mp h.unclashed, Bool.false_eq_true,
    ↓reduceIte]

/-- The gates let a batch through, or they refuse it as a whole. -/
theorem refused_or_admits (s : State) (settings : Settings) (now : Instant) (supply : TokenSupply)
    (batch : Batch) (cancelled : Bool) :
    (∃ result : BatchOutcome, result.Refuses ∧
        s.create settings now supply batch cancelled = (result, s, supply)) ∨
      ∃ entries, s.Admits settings batch entries := by
  by_cases hempty : batch.entries = []
  · simp only [create, hempty, List.isEmpty_nil, ↓reduceIte]
    refine .inl ⟨_, ?_, rfl⟩
    exact ⟨trivial, rfl, rfl, rfl⟩
  · have hentries : batch.entries.isEmpty = false := by simpa using hempty
    cases hcheck : s.checkEntries settings batch.entries with
    | error issues =>
        simp only [create, hentries, hcheck, Bool.false_eq_true, ↓reduceIte]
        refine .inl ⟨_, ?_, rfl⟩
        exact ⟨trivial, rfl, rfl, rfl⟩
    | ok entries =>
        by_cases hclash : (batch.overridesConflicts = true ∨
            ∀ e ∈ entries, ∀ c ∈ e.clashes s.registry, c.severity ≠ .critical)
        · exact .inr ⟨entries, hempty, hcheck, hclash⟩
        · have hcritical := Bool.not_eq_false _ ▸ mt unclashed_iff.mpr hclash
          simp only [create, hentries, hcheck, hcritical, Bool.false_eq_true, ↓reduceIte]
          refine .inl ⟨_, ?_, rfl⟩
          exact ⟨trivial, rfl, rfl, rfl⟩

end State

end Parametric
