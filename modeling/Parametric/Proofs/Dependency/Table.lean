import Parametric.Formula.Stored
import Parametric.Proofs.Dependency.Cycle

/-!
# Formula tables and their graphs

A graph represents a table when its edges and its results are those of the formulas in the table.
-/

namespace Parametric

namespace Formulas

def Keyed (t : Formulas) : Prop := ∀ ⦃key f⦄, t.get? key = some f → keyOf f.result = key

def Links (t : Formulas) (key target : String) (position : Nat) : Prop :=
  ∃ f, t.get? key = some f ∧ (f.references.map keyOf)[position]? = some target

variable {t : Formulas} {f : StoredFormula} {key target : String} {position : Nat}

theorem Keyed.empty : Keyed ∅ := by
  intro key f h
  simp at h

theorem Keyed.insert (h : t.Keyed) (f : StoredFormula) : Keyed (SortedMap.insert t (keyOf f.result) f) := by
  intro key f' hf
  rw [SortedMap.get?_insert] at hf
  split at hf
  · rename_i hk
    cases hf
    exact hk.symm
  · exact h hf

theorem Keyed.erase (h : t.Keyed) : Keyed (SortedMap.erase t key) := by
  intro k f hf
  rw [SortedMap.get?_erase] at hf
  split at hf
  · cases hf
  · exact h hf

def putAll (t : Formulas) (fs : List StoredFormula) : Formulas :=
  fs.foldl (fun t f => t.insert (keyOf f.result) f) t

theorem Keyed.putAll (h : t.Keyed) (fs : List StoredFormula) : (t.putAll fs).Keyed := by
  induction fs generalizing t with
  | nil => exact h
  | cons f rest ih => exact ih (h.insert f)

theorem get?_putAll_of_ne {fs : List StoredFormula} (h : ∀ f ∈ fs, keyOf f.result ≠ key) :
    (t.putAll fs).get? key = t.get? key := by
  induction fs generalizing t with
  | nil => rfl
  | cons f rest ih =>
      rw [List.forall_mem_cons] at h
      refine (ih h.2).trans ?_
      rw [SortedMap.get?_insert, if_neg h.1.symm]

theorem get?_putAll_of_mem {fs : List StoredFormula} (hf : f ∈ fs) (hkey : keyOf f.result = key)
    (hall : ∀ f' ∈ fs, keyOf f'.result = key → f' = f) : (t.putAll fs).get? key = some f := by
  induction fs generalizing t with
  | nil => exact absurd hf List.not_mem_nil
  | cons first rest ih =>
      by_cases hrest : f ∈ rest
      · exact ih hrest fun f' hf' => hall f' (List.mem_cons_of_mem _ hf')
      · obtain rfl : f = first := (List.mem_cons.mp hf).resolve_right hrest
        have hother : ∀ f' ∈ rest, keyOf f'.result ≠ key := fun f' hf' hk =>
          hrest (hall f' (List.mem_cons_of_mem _ hf') hk ▸ hf')
        exact (get?_putAll_of_ne hother).trans ((SortedMap.get?_insert ..).trans (if_pos hkey.symm))

theorem get?_putAll {fs : List StoredFormula} (h : (t.putAll fs).get? key = some f) :
    f ∈ fs ∨ t.get? key = some f := by
  induction fs generalizing t with
  | nil => exact .inr h
  | cons first rest ih =>
      rcases ih h with hf | hf
      · exact .inl (List.mem_cons_of_mem _ hf)
      · rw [SortedMap.get?_insert] at hf
        split at hf
        · exact .inl (Option.some.inj hf ▸ List.mem_cons_self)
        · exact .inr hf

theorem putAll_eq_self {fs : List StoredFormula} (h : ∀ f ∈ fs, t.formula? f.result = some f) :
    t.putAll fs = t := by
  induction fs with
  | nil => rfl
  | cons f rest ih =>
      obtain ⟨hf, hrest⟩ := List.forall_mem_cons.mp h
      have hinsert : SortedMap.insert t (keyOf f.result) f = t := by
        refine SortedMap.ext_get? fun other => ?_
        rw [SortedMap.get?_insert]
        split
        · rename_i hother
          rw [hother, ← hf]
          rfl
        · rfl
      rw [putAll, List.foldl_cons, hinsert]
      exact ih hrest

theorem contains_putAll {fs : List StoredFormula} (h : t.contains key = true) :
    (t.putAll fs).contains key = true := by
  induction fs generalizing t with
  | nil => exact h
  | cons f rest ih => exact ih (SortedMap.contains_insert.mpr (.inr h))

theorem mem_references_iff (h : t.Keyed) {entry : String × List String} :
    entry ∈ t.references ↔
      ∃ f, t.get? (keyOf f.result) = some f ∧ (f.result, f.references) = entry := by
  simp only [references, List.mem_map, SortedMap.mem_values_iff]
  refine exists_congr fun f => and_congr_left fun _ => ⟨?_, fun hf => ⟨_, hf⟩⟩
  rintro ⟨key, hf⟩
  rwa [h hf]

end Formulas

/-- A graph with one node for each name, and the edges and results of a table. -/
structure Graph.Represents (g : Graph) (t : Formulas) : Prop extends g.WellFormed where
  links : ∀ {key target position}, g.Links key target position ↔ t.Links key target position
  results : ∀ {key}, g.results.contains key = true ↔ t.contains key = true

namespace Graph.Represents

variable {g : Graph} {t : Formulas} {f : StoredFormula} {result : String}

theorem empty : Represents {} ∅ where
  toWellFormed := .empty
  links := by simp [not_links_empty, Formulas.Links]
  results := by simp [SortedMap.contains]

theorem setReferences (h : g.Represents t) (f : StoredFormula) :
    (g.setReferences f.result f.references).Represents (t.insert (keyOf f.result) f) where
  toWellFormed := h.toWellFormed.setReferences
  links := by
    intro key target position
    by_cases hk : key = keyOf f.result
    · subst hk
      rw [links_setReferences_self h.toCoherent (h.not_split _)]
      simp [Formulas.Links]
    · rw [links_setReferences_of_ne h.toCoherent hk, h.links]
      simp [Formulas.Links, hk]
  results := by
    intro key
    rw [contains_results_setReferences h.toCoherent, h.results, SortedMap.contains_iff,
      SortedMap.contains_iff]
    by_cases hk : key = keyOf f.result <;> simp [hk]

theorem putAll (h : g.Represents t) (fs : List StoredFormula) :
    (g.setAll (fs.map fun f => (f.result, f.references))).Represents (t.putAll fs) := by
  induction fs generalizing g t with
  | nil => exact h
  | cons f rest ih => exact ih (h.setReferences f)

theorem dropFormula (h : g.Represents t) :
    (g.dropFormula result).Represents (t.erase (keyOf result)) where
  toWellFormed := h.toWellFormed.dropFormula
  links := by
    intro key target position
    rw [links_dropFormula h.toWellFormed, h.links]
    by_cases hk : key = keyOf result <;> simp [Formulas.Links, hk]
  results := by
    intro key
    rw [contains_results_dropFormula h.toCoherent, h.results, SortedMap.contains_iff,
      SortedMap.contains_iff]
    by_cases hk : key = keyOf result <;> simp [hk]

/-- The graph that is built from a keyed table represents it. -/
theorem graph (h : t.Keyed) : t.graph.Represents t where
  toWellFormed := WellFormed.empty.setAll
  links := by
    intro key target position
    cases hf : t.get? key with
    | none =>
        have hnot : ∀ entry ∈ t.references, keyOf entry.1 ≠ key := by
          rintro entry he rfl
          obtain ⟨f, hf', rfl⟩ := (Formulas.mem_references_iff h).mp he
          exact absurd (hf.symm.trans hf') (by simp)
        exact iff_of_false (fun hl => not_links_empty ((links_setAll_of_ne .empty hnot).mp hl))
          (by simp [Formulas.Links, hf])
    | some f =>
        have hk := h hf
        have hmem : (f.result, f.references) ∈ t.references :=
          (Formulas.mem_references_iff h).mpr ⟨f, hk.symm ▸ hf, rfl⟩
        have hsame : ∀ entry ∈ t.references, keyOf entry.1 = key → entry.2 = f.references := by
          rintro entry he rfl
          obtain ⟨f', hf', rfl⟩ := (Formulas.mem_references_iff h).mp he
          rw [Option.some.inj (hf.symm.trans hf')]
        refine (links_setAll_self .empty (WellFormed.empty.not_split key) hmem hk hsame).trans ?_
        simp [Formulas.Links, hf]
  results := by
    intro key
    refine (contains_results_setAll .empty).trans ?_
    rw [SortedMap.contains_iff (m := t)]
    constructor
    · rintro (⟨entry, he, rfl⟩ | hr)
      · obtain ⟨f, hf, rfl⟩ := (Formulas.mem_references_iff h).mp he
        exact ⟨f, hf⟩
      · simp [SortedMap.contains] at hr
    · rintro ⟨f, hf⟩
      have hk := h hf
      exact .inl ⟨_, (Formulas.mem_references_iff h).mpr ⟨f, hk.symm ▸ hf, rfl⟩, hk.symm⟩

/-- Two graphs of one table have the same cycles. -/
theorem acyclic_iff {g' : Graph} (h : g.Represents t) (h' : g'.Represents t) :
    g.Acyclic ↔ g'.Acyclic := by
  have hsame : g.References = g'.References := by
    funext key target
    simp only [Graph.References, h.links, h'.links]
  simp only [Acyclic, hsame]

end Graph.Represents

end Parametric
