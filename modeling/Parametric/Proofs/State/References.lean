import Parametric.Proofs.Creation.Settlement
import Parametric.Proofs.Formula.References
import Parametric.Proofs.State.Shown

/-!
# Known references

What formulas reference is known when they are committed, and no definition is deleted while
formulas reference it. A formula is removed all the same, and its result keeps being referenced.
-/

namespace Parametric

namespace Formulas

/-- Some formula of the table references a name. -/
def Mentions (t : Formulas) (name : String) : Prop :=
  ∃ f ∈ t.values, ∃ reference ∈ f.references, keyOf reference = keyOf name

instance (t : Formulas) (name : String) : Decidable (t.Mentions name) :=
  inferInstanceAs (Decidable (∃ f ∈ t.values, _))

variable {t t' : Formulas} {name : String}

theorem Mentions.mono (h : t'.Mentions name)
    (hsub : ∀ {key f}, t'.get? key = some f → t.get? key = some f) : t.Mentions name := by
  obtain ⟨f, hf, hmentions⟩ := h
  obtain ⟨key, hget⟩ := SortedMap.mem_values_iff.mp hf
  exact ⟨f, SortedMap.mem_values_iff.mpr ⟨key, hsub hget⟩, hmentions⟩

theorem Mentions.of_erase {key : String} (h : Mentions (t.erase key) name) : t.Mentions name := by
  refine h.mono fun {other f} hf => ?_
  rw [SortedMap.get?_erase] at hf
  split at hf
  · cases hf
  · exact hf

theorem Mentions.links (h : t.Mentions name) : ∃ key position, t.Links key (keyOf name) position := by
  obtain ⟨f, hf, reference, hreference, hkey⟩ := h
  obtain ⟨key, hget⟩ := SortedMap.mem_values_iff.mp hf
  obtain ⟨position, hposition⟩ := List.mem_iff_getElem?.mp (List.mem_map_of_mem hreference)
  exact ⟨key, position, f, hget, hkey ▸ hposition⟩

end Formulas

/-! ## Strict actions -/

section Actions

variable {ε : Type}

/-- Whether an action takes nothing but known names into formulas, deletes nothing that formulas
reference and renames nothing. -/
def Action.IsStrict : Action ε → Prop
  | .create _ batch _ => ∀ p ∈ batch.entries, p.allowMissing = false
  | .compile options _ _ => options.allowMissing = false ∧ options.furtherNames = []
  | .delete _ force => force = false
  | .resolve .. => False
  | _ => True

/-- Whether an action removes the formula of a name that is not registered and that another formula
references. -/
def Action.Strands (s : State) (name : String) : Action ε → Prop
  | .dropFormula dropped =>
    keyOf dropped = keyOf name ∧ s.formulas.contains (keyOf name) = true ∧
      s.registry.contains name = false ∧ Formulas.Mentions (s.formulas.erase (keyOf dropped)) name
  | _ => False

theorem Action.IsStrict.keepsNames {action : Action ε} (h : action.IsStrict) : action.KeepsNames := by
  cases action with
  | resolve supply survey policy elements => exact h.elim
  | _ => trivial

end Actions

namespace State

instance (s : State) (name : String) : Decidable (s.Knows name) := inferInstanceAs (Decidable (_ ∨ _))

variable {s s' : State} {settings : Settings} {now : Instant} {name : String}

/-! ## Known names -/

theorem knows_of_spelling? (hk : s.Keyed) (ht : s.Tabled) {spelled : String}
    (h : s.spelling? name = some spelled) : s.Knows spelled := by
  simp only [spelling?, Option.orElse_eq_orElse, Option.orElse_eq_or, Option.or_eq_some_iff] at h
  rcases h with hregistered | ⟨-, hresult⟩
  · obtain ⟨d, hd, rfl⟩ := Option.map_eq_some_iff.mp hregistered
    refine (knows_congr (hk.registry.key_eq hd)).mpr (.inl ?_)
    exact SortedMap.contains_iff.mpr ⟨d, hd⟩
  · obtain ⟨f, hf, rfl⟩ := Option.map_eq_some_iff.mp hresult
    refine (knows_congr (ht.formulas hf)).mpr (.inr ?_)
    exact SortedMap.contains_iff.mpr ⟨f, hf⟩

/-- Without leave for unknown names, a plan references its own result and known names only. -/
theorem knows_of_plan (hk : s.Keyed) (ht : s.Tabled) {options : CompileOptions} {result source : String}
    {checked : CheckedPlan} (h : s.plan settings options result source = .ok checked)
    (hallow : options.allowMissing = false) (hextra : options.furtherNames = []) :
    ∀ reference ∈ checked.plan.references,
      keyOf reference = keyOf checked.plan.result ∨ s.Knows reference := by
  obtain ⟨parsed, -, hmeaning, -, hplan⟩ := plan_eq_ok h
  rw [hplan]
  intro reference hreference
  have hkey := Formula.Expr.keys_references_optimize _ _ (List.mem_map_of_mem hreference)
  obtain ⟨name, -, spelled, hspelled, hsame⟩ :=
    Formula.Expr.exists_spelling_of_mem_respelled (hmeaning hallow) hkey
  rw [← knows_congr hsame, ← hsame]
  simp only [resolve?, CompileOptions.extraName?, hextra, List.find?_nil] at hspelled
  split at hspelled
  · exact .inl (congrArg keyOf (Option.some.inj hspelled).symm)
  · exact .inr (knows_of_spelling? hk ht (by simpa using hspelled))

/-! ## Steps -/

/-- A name that formulas reference is known, in the state and in all snapshots. -/
def Resolves (s : State) (name : String) : Prop :=
  s.Throughout fun r t => t.Mentions name → r.contains name = true ∨ t.contains (keyOf name) = true

theorem live_committed (hk : s.registry.Keyed) {supply : TokenSupply} {batch : Batch} {cancelled : Bool}
    {entries : List CheckedEntry} (hstrict : ∀ p ∈ batch.entries, p.allowMissing = false)
    (hcheck : s.checkEntries settings batch.entries = .ok entries)
    (hcommitted : s.Committed settings now (.ofEntries settings now s supply (if cancelled then [] else entries)) s')
    (h : s.formulas.Mentions name → s.Knows name) : s'.formulas.Mentions name → s'.Knows name := by
  rintro ⟨f, hf, reference, hreference, hkey⟩
  have htracks := Staging.tracks_ofEntries settings now hk supply (if cancelled then [] else entries)
  have hconsistent := (Staging.largest_ofEntries settings now hk supply
    (if cancelled then [] else entries)).consistent
  refine hcommitted.knows htracks ?_
  obtain ⟨key, hget⟩ := SortedMap.mem_values_iff.mp hf
  rw [hcommitted.formulas] at hget
  rcases Formulas.get?_putAll hget with hnew | hold
  · obtain ⟨e, he, hstored⟩ := List.mem_filterMap.mp hnew
    obtain ⟨expression, hformula, rfl⟩ := Option.map_eq_some_iff.mp hstored
    have hallow := hstrict _ (proposal_mem hcheck (htracks.entry_mem he))
    rw [← knows_congr hkey, ← hkey]
    exact hconsistent e.entry (List.mem_map_of_mem he) hallow expression hformula reference hreference
  · exact .inl (h ⟨f, SortedMap.mem_values_iff.mpr ⟨key, hold⟩, reference, hreference, hkey⟩)

theorem live_commitPlan {p : PlannedFormula}
    (hreferences : ∀ reference ∈ p.references, keyOf reference = keyOf p.result ∨ s.Knows reference)
    (h : s.formulas.Mentions name → s.Knows name) :
    (s.commitPlan settings now p).formulas.Mentions name → (s.commitPlan settings now p).Knows name := by
  rintro ⟨f, hf, reference, hreference, hkey⟩
  rw [Knows, Registry.contains_of_label (label_commitPlan p name), formulas_commitPlan,
    SortedMap.contains_insert]
  obtain ⟨key, hget⟩ := SortedMap.mem_values_iff.mp hf
  rw [formulas_commitPlan, SortedMap.get?_insert] at hget
  have hknown : keyOf name = keyOf p.result ∨ s.Knows name := by
    split at hget
    · cases hget
      rw [← hkey, ← knows_congr hkey]
      exact hreferences reference hreference
    · exact .inr (h ⟨f, SortedMap.mem_values_iff.mpr ⟨key, hget⟩, reference, hreference, hkey⟩)
  rcases hknown with hresult | hregistered | hformula
  · exact .inr (.inl hresult)
  · exact .inl hregistered
  · exact .inr (.inr hformula)

theorem formulas_dropFormula {dropped : String} (h : s.dropFormula settings now dropped = some s') :
    s'.formulas = s.formulas.erase (keyOf dropped) := by
  obtain ⟨f, -, rfl⟩ := dropFormula_eq_some h
  rfl

/-- A removal takes its name away from what is known, unless it is registered. -/
theorem knows_dropFormula_iff {dropped : String} (h : s.dropFormula settings now dropped = some s') :
    s'.Knows name ↔ s.registry.contains name = true ∨
      keyOf name ≠ keyOf dropped ∧ s.formulas.contains (keyOf name) = true := by
  rw [Knows, formulas_dropFormula h, SortedMap.contains_erase,
    Registry.contains_of_label (label_dropFormula h name)]

theorem live_dropFormula {dropped : String} (hdrop : s.dropFormula settings now dropped = some s')
    (hstrands : keyOf dropped = keyOf name → s.formulas.contains (keyOf name) = true →
      s.registry.contains name = false → ¬Formulas.Mentions (s.formulas.erase (keyOf dropped)) name)
    (h : s.formulas.Mentions name → s.Knows name) : s'.formulas.Mentions name → s'.Knows name := by
  rw [formulas_dropFormula hdrop, knows_dropFormula_iff hdrop]
  intro hmentions
  rcases h (.of_erase hmentions) with hregistered | hformula
  · exact .inl hregistered
  · by_cases hname : keyOf dropped = keyOf name
    · exact .inl (Bool.not_eq_false _ ▸ fun hnone => hstrands hname hformula hnone hmentions)
    · exact .inr ⟨Ne.symm hname, hformula⟩

theorem live_dropDefinition {d : Definition} (hm : s.Mirrored) (husers : s.graph.users d.name = [])
    (h : s.formulas.Mentions name → s.Knows name) :
    (s.dropDefinition d).formulas.Mentions name → (s.dropDefinition d).Knows name := by
  intro hmentions
  have hbefore : s.formulas.Mentions name := by
    simp only [dropDefinition] at hmentions
    split at hmentions
    · exact .of_erase hmentions
    · exact hmentions
  have hne : keyOf name ≠ keyOf d.name := by
    intro hname
    obtain ⟨key, position, hlinks⟩ := hbefore.links
    rw [hname] at hlinks
    exact hm.represents.not_links_of_users husers (hm.represents.links.mpr hlinks)
  rw [Knows, registry_dropDefinition, Registry.contains_remove]
  refine (h hbefore).imp (fun hregistered => ⟨hne, hregistered⟩) fun hformula => ?_
  simp only [dropDefinition]
  split
  · exact SortedMap.contains_erase.mpr ⟨hne, hformula⟩
  · exact hformula

/-- A strict action that strands no name leaves what formulas reference known. -/
theorem Resolves.perform {ε : Type} [ElementAccess ε] (h : s.Resolves name) (hk : s.Keyed)
    (ht : s.Tabled) (hm : s.Mirrored) {action : Action ε} (hstrict : action.IsStrict)
    (hstrands : ¬action.Strands s name) : (s.perform settings now action).Resolves name := by
  have hlive : s.formulas.Mentions name → s.Knows name := h.live
  refine Throughout.perform h fun hkeeps => ?_
  change (s.perform settings now action).formulas.Mentions name →
    (s.perform settings now action).Knows name
  have hstep := s.becomes_perform settings now action
  generalize s.perform settings now action = s' at hstep ⊢
  cases hstep with
  | same => exact hlive
  | created hcheck hcommitted => exact live_committed hk.registry hstrict hcheck hcommitted hlive
  | compiled hplan => exact live_commitPlan (knows_of_plan hk ht hplan hstrict.1 hstrict.2) hlive
  | dropped hdrop =>
      refine live_dropFormula hdrop (fun hname hformula hnone hmentions => ?_) hlive
      exact hstrands ⟨hname, hformula, hnone, hmentions⟩
  | deleted _ husers => exact live_dropDefinition hm (husers hstrict) hlive
  | resolved _ => exact hstrict.elim
  | captured | rolledBack _ => exact hkeeps.elim
  | used =>
      intro hmentions
      rw [Knows, Registry.contains_of_label (label_countUses _ _)]
      exact hlive hmentions

theorem not_knows_of_strands {ε : Type} [ElementAccess ε] {action : Action ε}
    (h : action.Strands s name) : (s.perform settings now action).formulas.Mentions name ∧
      ¬(s.perform settings now action).Knows name := by
  cases action with
  | dropFormula dropped =>
      obtain ⟨hname, hformula, hnone, hmentions⟩ := h
      obtain ⟨f, hf⟩ := SortedMap.contains_iff.mp hformula
      obtain ⟨s', hdrop⟩ : ∃ s', s.dropFormula settings now dropped = some s' := by
        rw [dropFormula, Formulas.formula?, hname, hf]
        exact ⟨_, rfl⟩
      rw [State.perform, hdrop, Option.getD_some, formulas_dropFormula hdrop,
        knows_dropFormula_iff hdrop, hnone]
      refine ⟨hmentions, ?_⟩
      rintro (hregistered | ⟨hne, -⟩)
      · cases hregistered
      · exact hne hname.symm
  | _ => exact h.elim

end State

/-! ## Runs -/

theorem resolves_lasting (name : String) :
    Engine.Lasting fun s => s.Keyed ∧ (s.Tabled ∧ s.Mirrored) ∧ s.Resolves name := by
  refine keyed_lasting.and (mirrored_lasting.and (State.Throughout.lasting ?_))
  rintro ⟨f, hf, -⟩
  exact absurd hf List.not_mem_nil

namespace Engine

variable {ε : Type} [ElementAccess ε]

/-- As long as no unknown names are allowed, no deletion is forced and nothing is renamed: a name is
known whenever a formula references it exactly if its formula is never removed while the name is not
registered and other formulas reference it. -/
theorem knows_run_iff (settings : Settings) (start : Instant) (supply : TokenSupply)
    (steps : List (Instant × Operation ε)) (name : String)
    (hsteps : ∀ step ∈ steps, step.2.Within Action.IsStrict) :
    (∀ init, init <+: steps →
      ((fresh settings start supply).run init).state.formulas.Mentions name →
        ((fresh settings start supply).run init).state.Knows name) ↔
      (fresh settings start supply).Along (fun e step =>
        ¬(e.actionOf step.1 step.2).Strands e.state name) steps := by
  have hlasting := resolves_lasting name
  refine hlasting.forall_prefix_iff (Q := fun s => s.formulas.Mentions name → s.Knows name)
    (fun s hs => hs.2.2.live) (fun e step hstrict hstrands he => ?_)
    (fun e step hstrands he hknows => ?_) hsteps (hlasting.holds_fresh start settings supply)
  · obtain ⟨hkeyed, ⟨htabled, hmirrored⟩, hresolves⟩ := he.state
    have hstrict := hstrict e step.1
    exact ⟨hkeyed.perform _,
      ⟨htabled.perform _, hmirrored.perform htabled _ hstrict.keepsNames⟩,
      hresolves.perform hkeyed htabled hmirrored hstrict hstrands⟩
  · obtain ⟨hmentions, hunknown⟩ := State.not_knows_of_strands hstrands
    exact hunknown (hknows hmentions)

/-- A run in which a deletion is refused and a formula is removed that nothing references. -/
def guardedRun : List (Instant × Operation LocalElement) :=
  [(⟨0, 0⟩, .create { entries := [{ name := "x", kind := "real" }] } false),
    (⟨1, 0⟩, .compile {} "area" "x * x"), (⟨2, 0⟩, .compile {} "cost" "2 * area"),
    (⟨3, 0⟩, .delete "x" false), (⟨4, 0⟩, .dropFormula "cost")]

theorem knows_guardedRun : (∀ step ∈ guardedRun, step.2.Within Action.IsStrict) ∧
    ∀ init, init <+: guardedRun →
      ((fresh {} ⟨0, 0⟩ (.ofSeed 0)).run init).state.formulas.Mentions "area" →
        ((fresh {} ⟨0, 0⟩ (.ofSeed 0)).run init).state.Knows "area" := by
  have hstrict : ∀ step ∈ guardedRun, step.2.Within Action.IsStrict := by
    simp only [guardedRun, List.forall_mem_cons]
    refine ⟨fun _ _ => ?_, fun _ _ => ⟨rfl, rfl⟩, fun _ _ => ⟨rfl, rfl⟩, fun _ _ => rfl,
      fun _ _ => trivial, by simp⟩
    exact List.forall_mem_singleton.mpr rfl
  refine ⟨hstrict, (knows_run_iff {} ⟨0, 0⟩ (.ofSeed 0) guardedRun "area" hstrict).mpr
    ⟨id, id, id, id, ?_, trivial⟩⟩
  rintro ⟨hname, -⟩
  exact absurd hname (by decide +kernel)

/-- A run that removes a formula whose result another formula references. -/
def strandedRun : List (Instant × Operation LocalElement) :=
  [(⟨0, 0⟩, .compile {} "z" "2"), (⟨1, 0⟩, .compile {} "cost" "z"), (⟨2, 0⟩, .dropFormula "z")]

/-- The other formula references a name that is not known any more. -/
theorem not_knows_strandedRun : (∀ step ∈ strandedRun, step.2.Within Action.IsStrict) ∧
    let s := ((fresh {} ⟨0, 0⟩ (.ofSeed 0)).run strandedRun).state
    ∃ f ∈ s.formulas.values, ∃ name ∈ f.references, ¬s.Knows name := by
  refine ⟨?_, ?_⟩
  · simp only [strandedRun, List.forall_mem_cons]
    exact ⟨fun _ _ => ⟨rfl, rfl⟩, fun _ _ => ⟨rfl, rfl⟩, fun _ _ => trivial, by simp⟩
  · decide +kernel

end Engine

end Parametric
