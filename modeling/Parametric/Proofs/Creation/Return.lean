import Parametric.Proofs.Creation.Entry
import Parametric.Proofs.State.Identities

/-!
# Definitions that come back

A batch may ask for definitions that are registered already, under the same names and tokens and without
formulas. No such batch is refused or registers anything new. Each definition takes over what is asked
for, unless its token belongs to another one as well.
-/

namespace Parametric

variable {settings : Settings} {now : Instant}

/-! ## Registered names -/

/-- A name that definitions may have. -/
structure Settings.Admissible (settings : Settings) (name : String) : Prop where
  normal : settings.naming.IsNormal name
  unreserved : settings.registry.reserves name = false
  short : name.length ≤ settings.naming.maxLength

/-- All definitions have names that they may have. -/
def Registry.Named (settings : Settings) (r : Registry) : Prop :=
  ∀ ⦃name d⦄, r.get? name = some d → settings.Admissible d.name

namespace State

variable {s : State} {proposals : List Proposal} {entries : List CheckedEntry}

theorem unreserved_of_checkEntries (hk : s.registry.Keyed)
    (h : s.checkEntries settings proposals = .ok entries) {e : CheckedEntry} (he : e ∈ entries)
    (hnone : s.registry.get? e.name = none) : settings.registry.reserves e.name = false := by
  obtain ⟨p, -, hname, herrors⟩ := proposal_of_new hk h he hnone
  simp only [Proposal.nameErrors, List.append_eq_nil_iff] at herrors
  obtain ⟨-, hreserved⟩ := herrors
  split at hreserved
  · cases hreserved
  · rename_i hfree
    rw [Bool.or_eq_true, not_or, Bool.not_eq_true, Bool.not_eq_true] at hfree
    rw [hname]
    exact hfree.2

theorem named_create (h : s.registry.Named settings) (hc : settings.naming.Separates) (hk : s.registry.Keyed)
    (supply : TokenSupply) (batch : Batch) (cancelled : Bool) :
    (s.create settings now supply batch cancelled).2.1.registry.Named settings :=
  allNames_create (P := settings.Admissible) hk h supply batch cancelled fun _ hadmits _ he hnone hshort =>
    { normal := normal_of_checkEntries hc hk hadmits.checked he hnone
      unreserved := unreserved_of_checkEntries hk hadmits.checked he hnone
      short := hshort }

end State

/-! ## Checks -/

/-- An entry with the kind and the token of the registered definition has no clash that stops a batch. -/
theorem CheckedEntry.severity_of_clash {e : CheckedEntry} {r : Registry} {d : Definition}
    (hd : r.get? e.name = some d) (hkind : d.kind = e.kind) (hidentity : e.identity = some d.identity) {c : Conflict}
    (hc : c ∈ e.clashes r) : c.severity ≠ .critical := by
  have hkindClash : e.kindClash d = [] := if_pos hkind
  simp only [clashes, hd, hkindClash, identityClash, hidentity, ↓reduceIte, List.nil_append, groupClash] at hc
  split at hc
  · cases hc
  · split at hc
    · cases hc
    · rw [List.mem_singleton.mp hc]
      simp [Conflict.withBatch, Conflict.severity, Conflict.Kind.severity]

/-- Definitions with the names, tokens and kinds of registered ones, each of these at most once, and without
formulas. -/
structure Registry.Returns (r : Registry) (ds : List Definition) : Prop where
  known : ∀ d ∈ ds, ∃ old, r.get? d.name = some old ∧ old.label = d.label ∧ old.kind = d.kind
  plain : ∀ d ∈ ds, d.formula = none
  keys_nodup : (ds.map Definition.key).Nodup

namespace State

variable {s : State} {ds : List Definition} (hnamed : s.registry.Named settings) (h : s.registry.Returns ds)
include hnamed h

theorem admissible_of_returns {d : Definition} (hd : d ∈ ds) : settings.Admissible d.name := by
  obtain ⟨old, hold, hlabel, -⟩ := h.known d hd
  have hname : old.name = d.name := congrArg Prod.fst hlabel
  exact hname ▸ hnamed hold

theorem entryName_of_returns {d : Definition} (hd : d ∈ ds) : s.entryName settings (.ofDefinition d) = d.name := by
  obtain ⟨old, hold, hlabel, -⟩ := h.known d hd
  have hname : old.name = d.name := congrArg Prod.fst hlabel
  have hnormal : settings.naming.normalize (Proposal.ofDefinition d).name = d.name :=
    (admissible_of_returns hnamed h hd).normal.fixed
  rw [entryName, hnormal, Registry.spelling?, hold]
  exact hname

omit hnamed in
theorem parsed?_of_returns {d : Definition} (hd : d ∈ ds) : (Proposal.ofDefinition d).parsed? = none := by
  simp [Proposal.parsed?, Proposal.source?, Proposal.ofDefinition, h.plain d hd]

theorem checkEntries_of_returns (hc : settings.naming.Separates) :
    s.checkEntries settings (ds.map .ofDefinition) = .ok (ds.map Definition.checked) := by
  have herrors : ∀ names, ∀ p ∈ ds.map Proposal.ofDefinition, s.entryErrors settings names p = [] := by
    intro names p hp
    obtain ⟨d, hd, rfl⟩ := List.mem_map.mp hp
    have hname := admissible_of_returns hnamed h hd
    simp only [entryErrors, Proposal.nameErrors_ofDefinition hc hname.normal hname.unreserved,
      Proposal.kindErrors_ofDefinition, Proposal.identityErrors_ofDefinition, Proposal.formulaErrors,
      parsed?_of_returns h hd, List.append_nil]
  have hformulas : ∀ names, s.batchFormulas settings names (ds.map .ofDefinition) = [] := by
    intro names
    rw [batchFormulas, List.filterMap_map, List.filterMap_eq_nil_iff]
    intro d hd
    simp [Proposal.formula?, parsed?_of_returns h hd]
  have hchecked : ∀ names, (ds.map .ofDefinition).filterMap (s.checked? settings names) = ds.map Definition.checked := by
    intro names
    rw [List.filterMap_map]
    refine List.filterMap_eq_map_iff_forall_eq_some.mpr fun d hd => ?_
    have hkind : ValueKind.named? (Proposal.ofDefinition d).kind = some d.kind := ValueKind.named?_name d.kind
    simp [checked?, hkind, entryName_of_returns hnamed h hd, Proposal.formula?, parsed?_of_returns h hd,
      Proposal.token?_ofDefinition, Definition.checked, Definition.expression?, h.plain d hd]
  refine checkEntries_eq_ok_iff.mpr ⟨herrors _, ?_, (hchecked _).symm⟩
  rw [hformulas]
  rfl

/-- Nothing refuses definitions that come back, unless there are none. -/
theorem admits_of_returns (hc : settings.naming.Separates) {batch : Batch} (hbatch : batch.entries = ds.map .ofDefinition)
    (hne : ds ≠ []) : s.Admits settings batch (ds.map Definition.checked) where
  nonempty := by simpa [hbatch] using hne
  checked := hbatch ▸ checkEntries_of_returns hnamed h hc
  unclashed := by
    refine .inr fun e he c hclash => ?_
    obtain ⟨d, hd, rfl⟩ := List.mem_map.mp he
    obtain ⟨old, hold, hlabel, hkind⟩ := h.known d hd
    have hidentity : old.identity = d.identity := congrArg Prod.snd hlabel
    exact CheckedEntry.severity_of_clash (e := d.checked) hold hkind (congrArg some hidentity.symm) hclash

end State

/-! ## Owners of tokens -/

/-- The owner of a token that a definition has is this definition, or it stands under another key. -/
theorem Registry.Keyed.ownerOf?_eq_get?_iff {r : Registry} (hk : r.Keyed) {name : String} {d : Definition}
    (hd : r.get? name = some d) :
    r.ownerOf? d.identity = r.get? name ↔ ∀ owner, r.ownerOf? d.identity = some owner → owner.key = keyOf name := by
  constructor
  · intro hown owner howner
    rw [hown] at howner
    exact hk.key_eq howner
  · intro hkey
    have hmem : d ∈ r.definitions := SortedMap.mem_values_iff.mpr ⟨_, hd⟩
    obtain ⟨owner, howner⟩ : ∃ owner, r.ownerOf? d.identity = some owner :=
      Option.isSome_iff_exists.mp (List.find?_isSome.mpr ⟨d, hmem, beq_self_eq_true d.identity⟩)
    have hget := (mem_definitions_iff hk).mp (List.mem_of_find?_eq_some howner)
    have hsame : keyOf owner.name = keyOf name := hkey owner howner
    rw [howner, ← hget, get?_congr hsame]

namespace Staging

variable {before : Registry} {ds : List Definition}

/-- While definitions come back, names and tokens stay. -/
theorem Tracks.label_of_known {s : Staging} {entries : List CheckedEntry}
    (h : s.Tracks settings now before entries) (hknown : ∀ e ∈ entries, ∃ old, before.get? e.name = some old)
    (name : String) : (s.registry.get? name).map Definition.label = (before.get? name).map Definition.label := by
  by_cases hany : ∃ e ∈ s.staged, keyOf e.entry.name = keyOf name
  · obtain ⟨e, he, hkey⟩ := hany
    obtain ⟨old, hold⟩ := hknown e.entry (h.mem e he)
    have hwritten := h.written e he
    rw [hold] at hwritten
    obtain ⟨d, hd, hlabel⟩ := label_of_writes hwritten
    rw [← Registry.get?_congr (r := s.registry) hkey, ← Registry.get?_congr (r := before) hkey, hd, hold,
      Option.map_some, Option.map_some, hlabel]
  · rw [h.untouched name fun e he hkey => hany ⟨e, he, hkey⟩]

section Passing

variable (hk : before.Keyed) (h : before.Returns ds)
include hk h

/-- Whatever came back before, a definition keeps its token unless that belongs to another one. -/
theorem Tracks.tokenOwner?_of_returns {s : Staging} (hs : s.Tracks settings now before (ds.map Definition.checked))
    {d : Definition} (hd : d ∈ ds) :
    d.checked.tokenOwner? s.registry = none ↔ before.ownerOf? d.identity = before.get? d.name := by
  obtain ⟨old, hold, hlabel, -⟩ := h.known d hd
  have hidentity : old.identity = d.identity := congrArg Prod.snd hlabel
  have hknown : ∀ e ∈ ds.map Definition.checked, ∃ old, before.get? e.name = some old := by
    refine List.forall_mem_map.mpr fun d hd => ?_
    obtain ⟨old, hold, -⟩ := h.known d hd
    exact ⟨old, hold⟩
  have howner := hk.label_ownerOf? hs.keyed (hs.label_of_known hknown) d.identity
  have hkeys : (s.registry.ownerOf? d.identity).map Definition.key = (before.ownerOf? d.identity).map Definition.key := by
    have hkey := congrArg (Option.map fun label : String × Identity => keyOf label.1) howner
    rwa [Option.map_map, Option.map_map] at hkey
  have hiff := hk.ownerOf?_eq_get?_iff hold
  rw [hidentity] at hiff
  rw [CheckedEntry.tokenOwner?_eq_none_iff (e := d.checked) rfl, hiff]
  have hall : ∀ found : Option Definition, (∀ owner, found = some owner → owner.key = d.key) ↔
      ∀ key, found.map Definition.key = some key → key = d.key := by
    rintro (_ | owner) <;> simp
  exact (hall _).trans (hkeys ▸ (hall _).symm)

/-- A definition that comes back fails exactly if its token belongs to another one as well, which has it first. -/
theorem mem_passing_of_returns (supply : TokenSupply) (hshort : ∀ d ∈ ds, d.name.length ≤ settings.naming.maxLength)
    {e : CheckedEntry} :
    e ∈ passing settings now { registry := before, supply := supply } (ds.map Definition.checked) ↔
      ∃ d ∈ ds, e = d.checked ∧ before.ownerOf? d.identity = before.get? d.name := by
  -- What is staged first leaves names and tokens as they are, so the owner of a token stays the same.
  have htracks : ∀ init : List CheckedEntry, (∀ e ∈ init, e ∈ ds.map Definition.checked) →
      Tracks settings now before (ds.map Definition.checked)
        (init.foldl (·.stage settings now ·) { registry := before, supply := supply }) :=
    fun init hinit => (Tracks.start hk supply).stageAll hinit
  rw [mem_passing_iff]
  constructor
  · rintro ⟨init, tail, heq, -, -, hfree⟩
    obtain ⟨d, hd, rfl⟩ := List.mem_map.mp (heq ▸ List.mem_append_right init List.mem_cons_self)
    exact ⟨d, hd, rfl, ((htracks init fun e he => heq ▸ List.mem_append_left _ he).tokenOwner?_of_returns hk h hd).mp hfree⟩
  · rintro ⟨d, hd, rfl, hown⟩
    obtain ⟨first, others, rfl⟩ := List.append_of_mem hd
    refine ⟨first.map Definition.checked, others.map Definition.checked, by simp, hshort d hd, ⟨by simp, ?_⟩, ?_⟩
    · refine List.forall_mem_map.mpr fun d' hd' _ hkey => ?_
      have hnodup := h.keys_nodup
      rw [List.map_append, List.nodup_append] at hnodup
      exact hnodup.2.2 d'.key (List.mem_map_of_mem hd') d.key (by simp) hkey
    · refine ((htracks (first.map Definition.checked) fun e he => ?_).tokenOwner?_of_returns hk h hd).mpr hown
      rw [List.map_append]
      exact List.mem_append_left _ he

end Passing

end Staging

/-! ## Batches -/

namespace State

variable {s : State} {ds : List Definition}

/-- What definitions that come back make of the registered ones. -/
structure Renews (settings : Settings) (s : State) (ds : List Definition) (after : State) : Prop where
  renewed : ∀ d ∈ ds, s.registry.ownerOf? d.identity = s.registry.get? d.name →
    ∀ old, s.registry.get? d.name = some old →
      (after.registry.get? d.name).map Definition.shape = some (d.checked.updated settings old).shape
  untouched : ∀ name, (∀ d ∈ ds, s.registry.ownerOf? d.identity = s.registry.get? d.name → d.key ≠ keyOf name) →
    after.registry.get? name = s.registry.get? name

theorem renews_create (hnamed : s.registry.Named settings) (hc : settings.naming.Separates) (hk : s.registry.Keyed)
    (hcoherent : s.graph.Coherent) (h : s.registry.Returns ds) {batch : Batch}
    (hbatch : batch.entries = ds.map .ofDefinition) (supply : TokenSupply) :
    s.Renews settings ds (s.create settings now supply batch false).2.1 := by
  by_cases hne : ds = []
  · have hsame : (s.create settings now supply batch false).2.1 = s := by simp [create, hbatch, hne]
    rw [hsame]
    exact ⟨by simp [hne], fun name _ => rfl⟩
  · obtain ⟨kept, hlargest, haccepts, -⟩ := exists_largest now hk hcoherent
      (admits_of_returns hnamed h hc hbatch hne) supply
    have hpassing : ∀ e, e ∈ Staging.passing settings now { registry := s.registry, supply := supply }
          (ds.map Definition.checked) ↔
        ∃ d ∈ ds, e = d.checked ∧ s.registry.ownerOf? d.identity = s.registry.get? d.name := fun e =>
      Staging.mem_passing_of_returns hk h supply fun d hd => (admissible_of_returns hnamed h hd).short
    -- Nothing that passes has a formula, so nothing is taken back.
    have hconsistent : s.Consistent (Staging.passing settings now { registry := s.registry, supply := supply }
        (ds.map Definition.checked)) := by
      intro e he _ f hf
      obtain ⟨d, hd, rfl, -⟩ := (hpassing e).mp he
      simp [Definition.checked, Definition.expression?, h.plain d hd] at hf
    have hkept : ∀ e, e ∈ kept ↔ ∃ d ∈ ds, e = d.checked ∧ s.registry.ownerOf? d.identity = s.registry.get? d.name :=
      fun e => ⟨fun he => (hpassing e).mp (hlargest.sublist.subset he), fun he =>
        hlargest.greatest _ (fun _ he => he) hconsistent e ((hpassing e).mpr he)⟩
    generalize (s.create settings now supply batch false).2.1 = after at haccepts ⊢
    constructor
    case renewed =>
      intro d hd hown old hold
      have hwritten := haccepts.written d.checked ((hkept _).mpr ⟨d, hd, rfl, hown⟩)
      have hname : d.checked.name = d.name := rfl
      rw [hname, hold] at hwritten
      generalize d.checked.outcomeIn settings s.registry = outcome, after.registry.get? d.name = found at hwritten ⊢
      cases hwritten with
      | updated _ hdiffers => rfl
      | skipped _ hagrees => exact congrArg some (Definition.agreesWith_iff.mp hagrees).symm
    case untouched =>
      intro name hname
      refine (haccepts.untouched name fun e he => ?_).1
      obtain ⟨d, hd, rfl, hown⟩ := (hkept e).mp he
      exact hname d hd hown

end State

/-- What a definition that comes back has to agree with the registered one in, so that this one keeps its shape. -/
theorem Definition.shape_updated_iff {d old : Definition} (hkind : old.kind = d.kind) (hplain : d.formula = none) :
    (d.checked.updated settings old).shape = old.shape ↔
      d.checked.group settings = old.group ∧ d.visible = old.visible ∧
        (d.description <|> old.description) = old.description ∧ (d.category <|> old.category) = old.category ∧
        d.perElement = old.perElement ∧ d.allowMissing = old.allowMissing := by
  have hformula : d.checked.formulaText? settings = none := by
    simp [CheckedEntry.formulaText?, checked, expression?, hplain]
  have hupdated : d.checked.updated settings old = { old with
      group := d.checked.group settings
      visible := d.visible
      perElement := d.perElement
      allowMissing := d.allowMissing
      description := d.description <|> old.description
      category := d.category <|> old.category } := by
    simp only [CheckedEntry.updated, hformula, hkind]
    rfl
  rw [hupdated]
  simp only [shape, Definition.mk.injEq, true_and, and_true]

/-! ## Runs -/

namespace Engine

variable {ε : Type} [ElementAccess ε]

/-- As long as nothing but batches are asked for, all definitions have names that they may have. -/
theorem named_run (settings : Settings) (start : Instant) (supply : TokenSupply)
    (steps : List (Instant × Operation ε)) (hc : settings.naming.Separates)
    (hsteps : ∀ step ∈ steps, ∃ batch cancelled, step.2 = .create batch cancelled) :
    ((fresh settings start supply).run steps).settings = settings ∧
      ((fresh settings start supply).run steps).state.registry.Named settings := by
  have hall : ∀ e : Engine, e.settings = settings → e.state.Keyed → e.state.registry.Named settings →
      (e.run steps).settings = settings ∧ (e.run steps).state.registry.Named settings := by
    induction steps with
    | nil => exact fun e hsettings _ hnamed => ⟨hsettings, hnamed⟩
    | cons step rest ih =>
        intro e hsettings hkeyed hnamed
        obtain ⟨⟨batch, cancelled, hop⟩, hrest⟩ := List.forall_mem_cons.mp hsteps
        have hmoved := moved_create e step.1 batch cancelled
        have hafter : e.after step.1 step.2 = (e.create step.1 batch cancelled).2 := by rw [hop]; rfl
        refine ih hrest (e.after step.1 step.2) ?_ ?_ ?_
        · rw [hafter, hmoved.settings, hsettings]
        · rw [hafter, hmoved.state]
          exact hkeyed.perform (ε := ε) (.create e.supply batch cancelled)
        · rw [hafter, hmoved.state, hsettings]
          exact State.named_create hnamed hc hkeyed.registry e.supply batch cancelled
  refine hall _ rfl (keyed_lasting.start start) ?_
  simp [fresh, onStore, State.start, Registry.Named, Registry.get?]

end Engine

end Parametric
