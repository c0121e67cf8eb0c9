import Parametric.Proofs.Creation.Entry
import Parametric.Proofs.Creation.Settlement

/-!
# Case variants in batches

A name is looked up in any letter case, but a batch looks up what normalization makes of a name, and how that
splits the name into words depends on its letter case. An entry stands for a registered definition only if its
name keeps the key of the definition.
-/

namespace Parametric

/-- A proposal asks for nothing but what a definition has, under whatever name. -/
structure Proposal.Restates (p : Proposal) (d : Definition) : Prop where
  fields : { p with name := d.name, identity := some d.identity.text } = ofDefinition d
  token : p.identity = none ∨ p.identity = some d.identity.text

instance (p : Proposal) (d : Definition) : Decidable (p.Restates d) :=
  decidable_of_iff (_ ∧ _) ⟨fun ⟨hfields, htoken⟩ => ⟨hfields, htoken⟩, fun h => ⟨h.fields, h.token⟩⟩

/-- An entry is taken for a registered definition, and skipped if it asks for nothing new. -/
structure CheckedEntry.TreatedAs (settings : Settings) (r : Registry) (kept : List CheckedEntry) (e : CheckedEntry)
    (d : Definition) : Prop where
  name : e.name = d.name
  registered : e.outcomeIn settings r ≠ .created
  skipped : e.proposal.Restates d → e ∈ kept ∧ e.outcomeIn settings r = .skipped

namespace State

variable {s : State} {settings : Settings} {proposals : List Proposal} {entries : List CheckedEntry}
  {kept : List CheckedEntry} {e : CheckedEntry} {d : Definition}

/-- An entry has the name of a registered definition if its normalized name has the key of it. -/
theorem name_eq_iff (hk : s.registry.Keyed) (h : s.checkEntries settings proposals = .ok entries) (he : e ∈ entries)
    (hd : s.registry.get? d.name = some d) :
    e.name = d.name ↔ keyOf (settings.naming.normalize e.proposal.name) = d.key := by
  have hname := (checked?_eq_some (checked?_of_mem h he).2).1
  constructor
  · intro heq
    rw [← keyOf_entryName hk settings, ← hname, heq, Definition.key]
  · intro hkey
    have hsame : keyOf (settings.naming.normalize e.proposal.name) = keyOf d.name := hkey
    rw [← Registry.get?_congr hsame] at hd
    rw [hname, entryName_of_get? hd]

theorem kind_of_restates {names : SortedMap String} (h : s.checked? settings names e.proposal = some e)
    (hrestates : e.proposal.Restates d) : e.kind = d.kind := by
  rw [checked?, Option.map_eq_some_iff] at h
  obtain ⟨kind, hkind, hentry⟩ := h
  have hname : e.proposal.kind = d.kind.name := congrArg Proposal.kind hrestates.fields
  rw [hname, ValueKind.named?_name] at hkind
  rw [← hentry]
  exact (Option.some.inj hkind).symm

/-- An entry that asks for nothing new is skipped if its group and its formula are those of the definition. -/
theorem outcomeIn_of_restates {names : SortedMap String} (h : s.checked? settings names e.proposal = some e)
    (hrestates : e.proposal.Restates d) (hd : s.registry.get? e.name = some d) :
    e.outcomeIn settings s.registry = .skipped ↔
      e.group settings = d.group ∧ (e.formulaText? settings <|> d.formula) = d.formula := by
  have hkind := kind_of_restates h hrestates
  have hvisible : e.proposal.visible = d.visible := congrArg Proposal.visible hrestates.fields
  have hdescription : e.proposal.description = d.description := congrArg Proposal.description hrestates.fields
  have hcategory : e.proposal.category = d.category := congrArg Proposal.category hrestates.fields
  have hperElement : e.proposal.perElement = d.perElement := congrArg Proposal.perElement hrestates.fields
  have hallow : e.proposal.allowMissing = d.allowMissing := congrArg Proposal.allowMissing hrestates.fields
  have hsame : ∀ {α : Type} (x : Option α), (x <|> x) = x := by rintro α (_ | _) <;> rfl
  have hagrees : (e.updated settings d).agreesWith d = true ↔
      e.group settings = d.group ∧ (e.formulaText? settings <|> d.formula) = d.formula := by
    simp [Definition.agreesWith, CheckedEntry.updated, hkind, hvisible, hdescription, hcategory, hperElement, hallow,
      hsame]
  rw [← hagrees]
  simp only [CheckedEntry.outcomeIn, hd]
  split <;> simp_all

/-- Which entries are taken for a registered definition, and skipped if they ask for nothing new. -/
theorem treatedAs_iff (hk : s.registry.Keyed) (h : s.checkEntries settings proposals = .ok entries) (he : e ∈ entries)
    (hd : s.registry.get? d.name = some d) :
    e.TreatedAs settings s.registry kept d ↔ keyOf (settings.naming.normalize e.proposal.name) = d.key ∧
      (e.proposal.Restates d →
        e ∈ kept ∧ e.group settings = d.group ∧ (e.formulaText? settings <|> d.formula) = d.formula) := by
  have hchecked := (checked?_of_mem h he).2
  constructor
  · rintro ⟨hname, -, hskipped⟩
    have hget : s.registry.get? e.name = some d := hname ▸ hd
    refine ⟨(name_eq_iff hk h he hd).mp hname, fun hrestates => ?_⟩
    obtain ⟨hkept, houtcome⟩ := hskipped hrestates
    exact ⟨hkept, (outcomeIn_of_restates hchecked hrestates hget).mp houtcome⟩
  · rintro ⟨hkey, hrestated⟩
    have hname := (name_eq_iff hk h he hd).mpr hkey
    have hget : s.registry.get? e.name = some d := hname ▸ hd
    refine ⟨hname, fun hcreated => ?_, fun hrestates => ?_⟩
    · simp only [CheckedEntry.outcomeIn, hget] at hcreated
      split at hcreated <;> cases hcreated
    · obtain ⟨hkept, hsame⟩ := hrestated hrestates
      exact ⟨hkept, (outcomeIn_of_restates hchecked hrestates hget).mpr hsame⟩

end State

/-! ## Runs -/

namespace Engine

variable {ε : Type} [ElementAccess ε]

/-- Whatever led to an engine, and whatever a batch asks for that the gates let through: an entry whose name is, up to
letter case, that of a registered definition is taken for it exactly if its normalized name still has the key of the
definition. If the entry asks for nothing new, it is skipped exactly if it is kept, its group is that of the definition
and so is the text of its formula. -/
theorem treatedAs_create_iff (settings : Settings) (start : Instant) (supply : TokenSupply)
    (steps : List (Instant × Operation ε)) (now : Instant) (batch : Batch) (entries : List CheckedEntry)
    (hadmits : ((fresh settings start supply).run steps).state.Admits
      ((fresh settings start supply).run steps).settings batch entries) :
    let e := (fresh settings start supply).run steps
    let created := e.create now batch false
    ∃ kept, e.state.Largest (Staging.passing e.settings now
        { registry := e.state.registry, supply := e.supply } entries) kept ∧
      e.state.Accepts e.settings now kept created.1 created.2.state ∧
      ∀ x ∈ entries, ∀ d, e.state.registry.get? x.proposal.name = some d →
        (x.TreatedAs e.settings e.state.registry kept d ↔
          keyOf (e.settings.naming.normalize x.proposal.name) = d.key ∧
            (x.proposal.Restates d → x ∈ kept ∧ x.group e.settings = d.group ∧
              (x.formulaText? e.settings <|> d.formula) = d.formula)) := by
  intro e created
  have hk : e.state.registry.Keyed := (keyed_invariant.of_any_run start settings supply steps).registry
  obtain ⟨kept, hlargest, haccepts, -⟩ := State.exists_largest now hk
    (coherent_invariant.of_any_run start settings supply steps) hadmits e.supply
  refine ⟨kept, hlargest, ?_, fun x hx d hd => ?_⟩
  · obtain ⟨warnings, hresult⟩ := outcome_create e now batch false
    rw [show created.1 = _ from hresult, show created.2.state = _ from (moved_create e now batch false).state]
    exact haccepts.withWarnings warnings
  · exact State.treatedAs_iff hk hadmits.checked hx ((Registry.get?_congr (hk.key_eq hd)).trans hd)

def sizesRun : List (Instant × Operation LocalElement) :=
  [(⟨0, 0⟩, .create { entries := [{ name := "width", kind := "length", group := some "Sizes" }] } false)]

/-- The same width again, in other letter cases. -/
def variantsBatch : Batch where
  entries := [{ name := "WIDTH", kind := "length", group := some "Sizes" },
    { name := "wiDth", kind := "length", group := some "Sizes" }]

/-- Only the first variant is taken for the width; for the other one a second definition is created. -/
theorem treatedAs_create_variants :
    let e := (fresh {} ⟨0, 0⟩ (.ofSeed 0)).run sizesRun
    let created := e.create ⟨1, 0⟩ variantsBatch false
    created.1.skipped = 1 ∧ created.1.createdNames = ["Wi_Dth"] ∧ ∃ entries kept,
      e.state.Admits e.settings variantsBatch entries ∧
      e.state.Accepts e.settings ⟨1, 0⟩ kept created.1 created.2.state ∧
      ∀ x ∈ entries, ∀ d, e.state.registry.get? x.proposal.name = some d →
        (x.TreatedAs e.settings e.state.registry kept d ↔
          keyOf (e.settings.naming.normalize x.proposal.name) = d.key ∧
            (x.proposal.Restates d → x ∈ kept ∧ x.group e.settings = d.group ∧
              (x.formulaText? e.settings <|> d.formula) = d.formula)) := by
  intro e created
  obtain ⟨entries, hadmits⟩ : ∃ entries, e.state.Admits e.settings variantsBatch entries :=
    State.exists_admits (List.cons_ne_nil _ _) (by decide +kernel)
  obtain ⟨kept, -, haccepts, htreated⟩ :=
    treatedAs_create_iff {} ⟨0, 0⟩ (.ofSeed 0) sizesRun ⟨1, 0⟩ variantsBatch entries hadmits
  refine ⟨by decide +kernel, by decide +kernel, entries, kept, hadmits, ?_⟩
  with_reducible exact ⟨haccepts, htreated⟩

def splitBatch : Batch where
  entries := [{ name := "wiDth", kind := "length", group := some "Sizes" }]

/-- An entry whose name has the key of a registered one, and which asks for nothing else, gets a definition of its
own. -/
theorem not_treatedAs_create_split :
    let e := (fresh {} ⟨0, 0⟩ (.ofSeed 0)).run sizesRun
    let created := e.create ⟨1, 0⟩ splitBatch false
    (∃ d, e.state.registry.get? "wiDth" = some d ∧ d.name = "Width" ∧
        ∀ p ∈ splitBatch.entries, p.name = "wiDth" ∧ p.Restates d) ∧
      created.1.status = .completed ∧ created.1.skipped = 0 ∧ created.1.createdNames = ["Wi_Dth"] ∧
      created.2.state.registry.definitions.map (·.name) = ["Wi_Dth", "Width"] := by
  intro e created
  have hrestates : (e.state.registry.get? "wiDth").any (fun d => d.name = "Width" ∧
      ∀ p ∈ splitBatch.entries, p.name = "wiDth" ∧ p.Restates d) = true := by decide +kernel
  obtain ⟨d, hd, hall⟩ := (Option.any_eq_true _ _).mp hrestates
  exact ⟨⟨d, hd, of_decide_eq_true hall⟩, by decide +kernel, by decide +kernel, by decide +kernel, by decide +kernel⟩

end Engine

end Parametric
