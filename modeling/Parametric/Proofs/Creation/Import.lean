import Parametric.Proofs.Creation.Entry
import Parametric.Proofs.Creation.Settlement
import Parametric.Proofs.Dependency.Triples

/-!
# Imported definitions

An engine without definitions takes over a list of definitions as it stands, with their formulas and the
references of these, in whatever order they stand in the list.
-/

namespace Parametric

open Relation

/-! ## Lists of definitions -/

/-- The formula of one key references another key. -/
def DependsIn (ds : List Definition) (key target : String) : Prop :=
  ∃ d ∈ ds, d.key = key ∧ ∃ e, d.expression? = some e ∧ target ∈ e.names.map keyOf

/-- Definitions that an engine with certain settings takes over as they are. -/
structure Importable (settings : Settings) (ds : List Definition) : Prop where
  nonempty : ds ≠ []
  keys_nodup : (ds.map Definition.key).Nodup
  identities_nodup : (ds.map Definition.identity).Nodup
  normal : ∀ d ∈ ds, settings.naming.IsNormal d.name
  unreserved : ∀ d ∈ ds, settings.registry.reserves d.name = false
  short : ∀ d ∈ ds, d.name.length ≤ settings.naming.maxLength
  grouped : ∀ d ∈ ds, Text.isBlankText d.group = false
  /-- Formulas are written as they would be rendered, with every name in the spelling of its definition. -/
  written : ∀ d ∈ ds, ∀ text, d.formula = some text → ∃ e, Formula.parse text = .ok e ∧
    e.render settings.formula.style = text ∧ ∀ name ∈ e.names, ∃ other ∈ ds, other.name = name
  acyclic : ∀ key, ¬TransGen (DependsIn ds) key key

/-- A state holds certain definitions, their formulas and the references of these, and nothing else. -/
structure State.Recreates (now : Instant) (ds : List Definition) (s : State) : Prop where
  definitions : (s.registry.definitions.map Definition.shape).Perm (ds.map Definition.shape)
  formulas : ∀ key f, s.formulas.get? key = some f ↔ f ∈ ds.filterMap (·.stored? now) ∧ keyOf f.result = key
  results : ∀ key, s.graph.results.contains key = true ↔ ∃ f ∈ ds.filterMap (·.stored? now), keyOf f.result = key
  links : ∀ key target position, s.graph.Links key target position ↔
    ∃ f ∈ ds.filterMap (·.stored? now), keyOf f.result = key ∧ (f.references.map keyOf)[position]? = some target
  triples_nodup : s.graph.triples.Nodup

namespace Importable

variable {settings : Settings} {ds : List Definition} (h : Importable settings ds)
include h

theorem eq_of_key {d d' : Definition} (hd : d ∈ ds) (hd' : d' ∈ ds) (hkey : d.key = d'.key) : d = d' :=
  List.inj_on_of_nodup_map h.keys_nodup hd hd' hkey

theorem expression?_eq {d : Definition} (hd : d ∈ ds) {text : String} (htext : d.formula = some text) :
    ∃ e, d.expression? = some e ∧ Formula.parse text = .ok e ∧ e.render settings.formula.style = text ∧
      ∀ name ∈ e.names, ∃ other ∈ ds, other.name = name := by
  obtain ⟨e, hparse, hrender, hnames⟩ := h.written d hd text htext
  refine ⟨e, ?_, hparse, hrender, hnames⟩
  rw [Definition.expression?, htext, Option.bind_some, hparse]
  rfl

theorem names_of_expression? {d : Definition} (hd : d ∈ ds) {e : Formula.Term} (he : d.expression? = some e) :
    ∀ name ∈ e.names, ∃ other ∈ ds, other.name = name := by
  cases hformula : d.formula with
  | none => simp [Definition.expression?, hformula] at he
  | some text =>
      obtain ⟨e', he', -, -, hnames⟩ := h.expression?_eq hd hformula
      obtain rfl := Option.some.inj (he.symm.trans he')
      exact hnames

end Importable

/-! ## Checks -/

section Checks

variable {settings : Settings} (hc : settings.naming.Separates) {ds : List Definition}
  (h : Importable settings ds) {history : History}
include h

theorem entryName_ofDefinition {d : Definition} (hd : d ∈ ds) :
    State.entryName { history := history } settings (.ofDefinition d) = d.name := by
  have hnormal : settings.naming.normalize (Proposal.ofDefinition d).name = d.name := (h.normal d hd).fixed
  simp [State.entryName, hnormal, Registry.spelling?, Registry.get?]

def namesOf (ds : List Definition) : SortedMap String := .ofList (ds.map fun d => (d.key, d.name))

theorem batchNames_ofDefinition :
    State.batchNames { history := history } settings (ds.map .ofDefinition) = namesOf ds := by
  have husable : (ds.map Proposal.ofDefinition).filter
      (fun p => settings.naming.normalize p.name != "") = ds.map .ofDefinition := by
    rw [List.filter_eq_self]
    intro p hp
    obtain ⟨d, hd, rfl⟩ := List.mem_map.mp hp
    have hnormal : settings.naming.normalize (Proposal.ofDefinition d).name = d.name := (h.normal d hd).fixed
    simp [hnormal, (h.normal d hd).nonempty]
  simp only [State.batchNames, husable, List.map_map, namesOf]
  refine congrArg SortedMap.ofList (List.map_congr_left fun d hd => ?_)
  simp [entryName_ofDefinition h hd, Definition.key]

theorem meaningIn?_ofDefinition {d other : Definition} (hd : d ∈ ds) (hother : other ∈ ds) :
    State.meaningIn? { history := history } (namesOf ds) d.name other.name = some other.name := by
  have hget : (namesOf ds).get? (keyOf other.name) = some other.name := by
    refine SortedMap.get?_ofList ?_ (List.mem_map_of_mem hother)
    rw [List.map_map]
    exact h.keys_nodup
  rw [State.meaningIn?]
  split
  · rename_i hkey
    rw [h.eq_of_key hd hother hkey.symm]
  · simp [State.spelling?, Registry.spelling?, Registry.get?, Formulas.formula?, hget]

theorem respelled_ofDefinition {d : Definition} (hd : d ∈ ds) {e : Formula.Term}
    (hnames : ∀ name ∈ e.names, ∃ other ∈ ds, other.name = name) :
    e.respelled (.ofNames (State.meaningIn? { history := history } (namesOf ds) d.name) e.references) = e := by
  refine Formula.Expr.mapNames_eq_self fun name hname => ?_
  obtain ⟨other, hother, rfl⟩ := hnames name hname
  rw [Formula.Spellings.apply]
  cases hlookup : (Formula.Spellings.ofNames (State.meaningIn? { history := history } (namesOf ds) d.name)
      e.references).lookup (keyOf other.name) with
  | none => rfl
  | some spelled =>
      obtain ⟨name', hname', hkey, hspelled⟩ := Formula.Expr.exists_of_lookup_ofNames hlookup
      obtain ⟨first, hfirst, rfl⟩ := hnames name' (mem_of_mem_distinctNames hname')
      rw [meaningIn?_ofDefinition h hd hfirst] at hspelled
      rw [Option.getD_some, ← Option.some.inj hspelled, h.eq_of_key hfirst hother hkey]

theorem parsed?_ofDefinition {d : Definition} (hd : d ∈ ds) :
    (Proposal.ofDefinition d).parsed? = d.expression?.map .ok := by
  cases hformula : d.formula with
  | none => simp [Proposal.parsed?, Proposal.source?, Proposal.ofDefinition, Definition.expression?, hformula]
  | some text =>
      obtain ⟨e, he, hparse, -⟩ := h.expression?_eq hd hformula
      have hsource : (Proposal.ofDefinition d).source? = some text := by
        simp [Proposal.source?, Proposal.ofDefinition, hformula, Option.filter, Formula.isBlankText_of_parse hparse]
      rw [Proposal.parsed?, hsource, Option.map_some, hparse, he, Option.map_some]

theorem formula?_ofDefinition {d : Definition} (hd : d ∈ ds) :
    (Proposal.ofDefinition d).formula? (State.meaningIn? { history := history } (namesOf ds) d.name) =
      d.expression? := by
  rw [Proposal.formula?, parsed?_ofDefinition h hd]
  cases he : d.expression? with
  | none => rfl
  | some e => exact congrArg some (respelled_ofDefinition h hd (h.names_of_expression? hd he))

theorem formulaErrors_ofDefinition {d : Definition} (hd : d ∈ ds) :
    (Proposal.ofDefinition d).formulaErrors (State.meaningIn? { history := history } (namesOf ds) d.name) = [] := by
  rw [Proposal.formulaErrors, parsed?_ofDefinition h hd]
  cases he : d.expression? with
  | none => rfl
  | some e =>
      have hknown : e.references.filter
          (fun name => (State.meaningIn? { history := history } (namesOf ds) d.name name).isNone) = [] := by
        refine List.filter_eq_nil_iff.mpr fun name hname => ?_
        obtain ⟨other, hother, rfl⟩ := h.names_of_expression? hd he name (mem_of_mem_distinctNames hname)
        simp [meaningIn?_ofDefinition h hd hother]
      simp [hknown]

theorem batchFormulas_ofDefinition (now : Instant) :
    State.batchFormulas { history := history } settings (namesOf ds) (ds.map .ofDefinition) =
      (ds.filterMap (·.stored? now)).map fun f => (f.result, f.references) := by
  rw [State.batchFormulas, List.filterMap_map, List.map_filterMap]
  refine List.filterMap_congr fun d hd => ?_
  simp only [Function.comp_apply, entryName_ofDefinition h hd, formula?_ofDefinition h hd, Definition.stored?,
    Option.map_map]
  rfl

theorem acyclic_setAll_ofDefinition (now : Instant) :
    (({} : Graph).setAll ((ds.filterMap (·.stored? now)).map fun f => (f.result, f.references))).Acyclic := by
  intro key hcycle
  refine h.acyclic key (TransGen.mono ?_ key key hcycle)
  rintro key target ⟨position, hlink⟩
  obtain ⟨f, hf, hposition⟩ := (Graph.Represents.empty.putAll _).links.mp hlink
  rcases Formulas.get?_putAll hf with hmem | hempty
  · obtain ⟨d, hd, hstored⟩ := List.mem_filterMap.mp hmem
    obtain ⟨e, he, rfl⟩ := Option.map_eq_some_iff.mp hstored
    have hkey := Formulas.Keyed.empty.putAll _ hf
    refine ⟨d, hd, hkey, e, he, ?_⟩
    rw [← mem_keys_distinctNames]
    exact List.mem_of_getElem? hposition
  · simp at hempty

include hc in
theorem checkEntries_ofDefinition : State.checkEntries { history := history } settings (ds.map .ofDefinition) =
    .ok (ds.map Definition.checked) := by
  have hissues : State.entryIssues { history := history } settings (namesOf ds) 1 (ds.map .ofDefinition) = [] := by
    refine State.entryIssues_eq_nil fun p hp => ?_
    obtain ⟨d, hd, rfl⟩ := List.mem_map.mp hp
    rw [State.entryErrors, entryName_ofDefinition h hd, formulaErrors_ofDefinition h hd,
      Proposal.nameErrors_ofDefinition hc (h.normal d hd) (h.unreserved d hd),
      Proposal.kindErrors_ofDefinition, Proposal.identityErrors_ofDefinition]
    rfl
  have hcycle : State.cycleIssues { history := history }
      (State.batchFormulas { history := history } settings (namesOf ds) (ds.map .ofDefinition)) = [] := by
    rw [batchFormulas_ofDefinition h default, State.cycleIssues,
      Graph.cycleWithAll_eq_none .empty (acyclic_setAll_ofDefinition h _)]
  have hentries : (ds.map Proposal.ofDefinition).filterMap
      (State.checked? { history := history } settings (namesOf ds)) = ds.map Definition.checked := by
    rw [List.filterMap_map, ← List.filterMap_eq_map]
    refine List.filterMap_congr fun d hd => ?_
    have hkind : ValueKind.named? (Proposal.ofDefinition d).kind = some d.kind := ValueKind.named?_name d.kind
    simp only [Function.comp_apply, State.checked?, entryName_ofDefinition h hd, formula?_ofDefinition h hd,
      Proposal.token?_ofDefinition, hkind, Option.map_some, Definition.checked]
  simp only [State.checkEntries, batchNames_ofDefinition h, hissues, hcycle, hentries]
  rfl

end Checks

/-! ## Staging -/

namespace Staging

theorem takeFirst?_eq_none_iff {α β : Type} {f : α → Option β} {l : List α} :
    takeFirst? f l = none ↔ ∀ a ∈ l, f a = none := by
  refine ⟨takeFirst?_eq_none, fun h => ?_⟩
  induction l with
  | nil => rfl
  | cons a rest ih =>
      obtain ⟨ha, hrest⟩ := List.forall_mem_cons.mp h
      rw [takeFirst?, ha, ih hrest]
      rfl

theorem settle_eq_self {s : Staging} {formulas : Formulas}
    (h : takeFirst? (broken? s.registry formulas) s.staged = none) : s.settle formulas = s := by
  rw [settle]
  split
  · rfl
  · rename_i hfound
    rw [h] at hfound
    cases hfound

end Staging

def Definition.imported (now : Instant) (d : Definition) : Definition := { d with createdAt := now, uses := 0 }

theorem keys_imported (now : Instant) (ds : List Definition) :
    (ds.map (Definition.imported now)).map Definition.key = ds.map Definition.key := List.map_map

theorem keys_stored_sublist (now : Instant) (ds : List Definition) :
    ((ds.filterMap (·.stored? now)).map fun f => keyOf f.result).Sublist (ds.map Definition.key) := by
  induction ds with
  | nil => exact .slnil
  | cons d rest ih =>
      cases hstored : d.stored? now with
      | none =>
          rw [List.filterMap_cons_none hstored]
          exact ih.cons _
      | some f =>
          obtain ⟨e, -, rfl⟩ := Option.map_eq_some_iff.mp hstored
          rw [List.filterMap_cons_some hstored]
          exact ih.cons_cons _

def Definition.staged (d : Definition) : StagedEntry := ⟨d.checked, .created, none⟩

section Staging

variable {settings : Settings} {ds : List Definition} (h : Importable settings ds) {now : Instant}
include h

theorem formulaText?_checked {d : Definition} (hd : d ∈ ds) : d.checked.formulaText? settings = d.formula := by
  cases hformula : d.formula with
  | none => simp [CheckedEntry.formulaText?, Definition.checked, Definition.expression?, hformula]
  | some text =>
      obtain ⟨e, he, -, hrender, -⟩ := h.expression?_eq hd hformula
      simp [CheckedEntry.formulaText?, Definition.checked, he, hrender]

theorem definition_checked {d : Definition} (hd : d ∈ ds) :
    d.checked.definition settings now d.identity = d.imported now := by
  have hgroup : d.checked.group settings = d.group := by
    simp [CheckedEntry.group, Definition.checked, Proposal.ofDefinition, h.grouped d hd]
  rw [CheckedEntry.definition, hgroup, formulaText?_checked h hd]
  rfl

theorem storedFormula?_checked {d : Definition} (hd : d ∈ ds) :
    Committing.storedFormula? settings now d.checked = d.stored? now := by
  have htext := formulaText?_checked h hd
  rw [CheckedEntry.formulaText?] at htext
  rw [Committing.storedFormula?, Definition.stored?]
  cases he : d.expression? with
  | none => simp [Definition.checked, he]
  | some e =>
      have hrender : some (e.render settings.formula.style) = d.formula := by simpa [Definition.checked, he] using htext
      simp [Definition.checked, Proposal.ofDefinition, he, ← hrender]

theorem stage_checked {s : Staging} {d : Definition} (hd : d ∈ ds) (hnone : s.registry.get? d.name = none)
    (hseen : d.key ∉ s.seen) (howner : ∀ other ∈ s.registry.definitions, other.identity ≠ d.identity) :
    s.stage settings now d.checked = { s with
      registry := s.registry.put (d.imported now)
      seen := d.key :: s.seen
      staged := s.staged ++ [d.staged] } := by
  have hlength : ¬d.checked.name.length > settings.naming.maxLength := Nat.not_lt.mpr (h.short d hd)
  have htoken : s.registry.ownerOf? d.identity = none := List.find?_eq_none.mpr (by simpa using howner)
  have herror : d.checked.stagingError? settings s = none := by
    refine Staging.stagingError?_eq_none_iff.mpr ⟨h.short d hd, hseen, ?_⟩
    simp [CheckedEntry.tokenOwner?, Definition.checked, htoken]
  have hnone' : s.registry.get? d.checked.name = none := hnone
  have hidentity : d.checked.identity = some d.identity := rfl
  simp only [Staging.stage, herror, Staging.write, hnone', hidentity, definition_checked h hd, Staging.seenAfter,
    if_neg hlength]
  rfl

variable (now) in
theorem stageAll_checked {rest : List Definition} (hrest : ∀ d ∈ rest, d ∈ ds)
    (hkeys : (rest.map Definition.key).Nodup) (hids : (rest.map Definition.identity).Nodup) {s : Staging}
    (hnew : ∀ d ∈ rest, s.registry.get? d.name = none ∧ d.key ∉ s.seen ∧
      ∀ other ∈ s.registry.definitions, other.identity ≠ d.identity) :
    ∃ seen, (rest.map Definition.checked).foldl (·.stage settings now ·) s = { s with
      registry := (rest.map (Definition.imported now)).foldl Registry.put s.registry
      seen := seen
      staged := s.staged ++ rest.map Definition.staged } := by
  -- Every definition adds one key and one token, so those of the others are still new after it.
  induction rest generalizing s with
  | nil => exact ⟨s.seen, by simp⟩
  | cons d rest ih =>
      obtain ⟨hd, hrest⟩ := List.forall_mem_cons.mp hrest
      obtain ⟨hkey, hkeys⟩ := List.nodup_cons.mp hkeys
      obtain ⟨hid, hids⟩ := List.nodup_cons.mp hids
      obtain ⟨⟨hnone, hseen, howner⟩, hnew⟩ := List.forall_mem_cons.mp hnew
      rw [List.map_cons, List.foldl_cons, stage_checked h hd hnone hseen howner]
      obtain ⟨seen, hstaged⟩ := ih hrest hkeys hids (s := { s with
        registry := s.registry.put (d.imported now)
        seen := d.key :: s.seen
        staged := s.staged ++ [d.staged] }) fun other hother => by
          obtain ⟨hother', hseen', howner'⟩ := hnew other hother
          have hne : other.key ≠ d.key := fun hk => hkey (hk ▸ List.mem_map_of_mem hother)
          refine ⟨?_, ?_, fun owner howned => ?_⟩
          · exact Registry.get?_put.trans ((if_neg hne).trans hother')
          · exact fun hmem => (List.mem_cons.mp hmem).elim hne hseen'
          · obtain ⟨key, hget⟩ := SortedMap.mem_values_iff.mp howned
            rw [Registry.put, SortedMap.get?_insert] at hget
            split at hget
            · obtain rfl := Option.some.inj hget
              exact fun he => hid (he ▸ List.mem_map_of_mem hother)
            · exact howner' owner (SortedMap.mem_values_iff.mpr ⟨key, hget⟩)
      refine ⟨seen, hstaged.trans ?_⟩
      simp

theorem broken?_staged {d : Definition} (hd : d ∈ ds) (formulas : Formulas) :
    Staging.broken? (.ofList (ds.map (Definition.imported now))) formulas d.staged = none := by
  refine Staging.broken?_eq_none_iff.mpr fun _ e he name hname => .inl ?_
  obtain ⟨other, hother, rfl⟩ := h.names_of_expression? hd he name (mem_of_mem_distinctNames hname)
  have hmem : other.imported now ∈ (Registry.ofList (ds.map (Definition.imported now))).definitions :=
    (Registry.definitions_ofList (keys_imported now ds ▸ h.keys_nodup)).mem_iff.mpr (List.mem_map_of_mem hother)
  have hget := (Registry.mem_definitions_iff (.ofList _)).mp hmem
  exact SortedMap.contains_iff.mpr ⟨other.imported now, hget⟩

variable (now) in
theorem ofEntries_checked (history : History) (supply : TokenSupply) :
    ∃ seen, Staging.ofEntries settings now { history := history } supply (ds.map Definition.checked) = {
      registry := .ofList (ds.map (Definition.imported now))
      supply := supply
      seen := seen
      staged := ds.map Definition.staged } := by
  obtain ⟨seen, hstaged⟩ := stageAll_checked h now (s := { registry := {}, supply := supply })
    (fun _ hd => hd) h.keys_nodup h.identities_nodup fun d _ => ⟨rfl, by simp, by simp [Registry.definitions]⟩
  have hnone : Staging.takeFirst? (Staging.broken? (.ofList (ds.map (Definition.imported now))) ∅)
      (ds.map Definition.staged) = none := by
    refine Staging.takeFirst?_eq_none_iff.mpr fun e he => ?_
    obtain ⟨d, hd, rfl⟩ := List.mem_map.mp he
    exact broken?_staged h hd ∅
  refine ⟨seen, ?_⟩
  simp only [Staging.ofEntries, hstaged, List.nil_append]
  exact Staging.settle_eq_self hnone

variable (now) in
theorem storedFormulas_staged (staging : Staging) (hstaged : staging.staged = ds.map Definition.staged) :
    staging.storedFormulas settings now = ds.filterMap (·.stored? now) := by
  rw [Staging.storedFormulas, hstaged, List.filterMap_map]
  exact List.filterMap_congr fun d hd => storedFormula?_checked h hd

theorem keys_stored_nodup : ((ds.filterMap (·.stored? now)).map fun f => keyOf f.result).Nodup :=
  (keys_stored_sublist now ds).nodup h.keys_nodup

theorem recreates_commit {history : History} {staging : Staging} {s' : State}
    (hregistry : staging.registry = .ofList (ds.map (Definition.imported now)))
    (hstaged : staging.staged = ds.map Definition.staged)
    (hcommitted : State.Committed settings now { history := history } staging s') : s'.Recreates now ds := by
  have hstored := storedFormulas_staged h now staging hstaged
  have hformulas : s'.formulas = Formulas.putAll ∅ (ds.filterMap (·.stored? now)) :=
    hstored ▸ hcommitted.formulas
  have hgraph : s'.graph = ({} : Graph).setAll ((ds.filterMap (·.stored? now)).map fun f => (f.result, f.references)) := by
    rw [hcommitted.graph, staging.references_eq settings now, hstored]
  have hrepresents := Graph.Represents.empty.putAll (ds.filterMap (·.stored? now))
  rw [← hgraph] at hrepresents
  have hget : ∀ key f, (Formulas.putAll ∅ (ds.filterMap (·.stored? now))).get? key = some f ↔
      f ∈ ds.filterMap (·.stored? now) ∧ keyOf f.result = key := by
    refine fun key f => ⟨fun hf => ?_, fun ⟨hf, hkey⟩ => Formulas.get?_putAll_of_mem hf hkey fun f' hf' hkey' => ?_⟩
    · exact ⟨(Formulas.get?_putAll hf).resolve_right (by simp), Formulas.Keyed.empty.putAll _ hf⟩
    · exact List.inj_on_of_nodup_map (keys_stored_nodup h) hf' hf (hkey'.trans hkey.symm)
  constructor
  case definitions =>
    rw [hcommitted.registry, hregistry]
    have hperm := (Registry.definitions_ofList (keys_imported now ds ▸ h.keys_nodup)).map Definition.shape
    rwa [List.map_map] at hperm
  case formulas => exact hformulas ▸ hget
  case results =>
    intro key
    rw [hrepresents.results, SortedMap.contains_iff]
    simp only [hget]
  case links =>
    intro key target position
    rw [hrepresents.links, Formulas.Links]
    simp only [hget, and_assoc]
  case triples_nodup =>
    rw [hgraph]
    exact Graph.triples_nodup (Graph.Simple.setAll .empty) (Graph.WellFormed.empty.setAll).not_split

end Staging

/-! ## Batches -/

section Batches

variable {settings : Settings} (hc : settings.naming.Separates) {ds : List Definition}
  (h : Importable settings ds)
include hc h

theorem admits_ofDefinition {history : History} {batch : Batch} (hbatch : batch.entries = ds.map .ofDefinition) :
    State.Admits { history := history } settings batch (ds.map Definition.checked) where
  nonempty := by simpa [hbatch] using h.nonempty
  checked := hbatch ▸ checkEntries_ofDefinition hc h
  unclashed := .inr fun e _ c hclash => by simp [CheckedEntry.clashes, Registry.get?] at hclash

theorem create_ofDefinition (history : History) (batch : Batch) (hbatch : batch.entries = ds.map .ofDefinition)
    (now : Instant) (supply : TokenSupply) :
    let created := State.create { history := history } settings now supply batch false
    created.1.status = .completed ∧ created.1.created = ds.length ∧ created.2.1.Recreates now ds := by
  obtain ⟨seen, hstaging⟩ := ofEntries_checked h now history supply
  have hkeyed : (State.registry { history := history }).Keyed := .empty
  have htracks := Staging.tracks_ofEntries settings now hkeyed supply (ds.map Definition.checked)
  have hregistered : ∀ e ∈ ds.map Definition.staged,
      (Registry.ofList (ds.map (Definition.imported now))).contains e.entry.name = true := by
    rw [hstaging] at htracks
    exact fun e he => SortedMap.contains_iff.mpr (htracks.written e he).registered
  have hall : (ds.map Definition.staged).filter (·.outcome == .created) = ds.map Definition.staged := by
    rw [List.filter_eq_self]
    intro e he
    obtain ⟨d, -, rfl⟩ := List.mem_map.mp he
    rfl
  have hcreated := (Committing.counts settings now
    { state := { registry := .ofList (ds.map (Definition.imported now)), history := history } }
    (ds.map Definition.staged) hregistered).created
  rw [State.create_of_admits (admits_ofDefinition hc h hbatch), if_neg Bool.false_ne_true, hstaging]
  refine ⟨rfl, ?_, ?_⟩
  · refine (congrArg List.length hcreated).trans ?_
    rw [hall]
    simp
  · exact recreates_commit h rfl rfl (State.committed_commitStaging _ settings now batch _)

end Batches

namespace Engine

/-- An engine without definitions takes over definitions as they are, each of them once, with their formulas
and references and nothing else. -/
theorem recreates_importDefinitions (e : Engine) (now : Instant) (ds : List Definition)
    (hempty : ∃ history, e.state = { history := history }) (hc : e.settings.naming.Separates)
    (h : Importable e.settings ds) :
    let step := e.importDefinitions now ds false
    step.1.status = .completed ∧ step.1.created = ds.length ∧ step.2.state.Recreates now ds := by
  obtain ⟨history, hstate⟩ := hempty
  obtain ⟨hstatus, hcreated, hrecreates⟩ :=
    create_ofDefinition hc h history (batchOf ds) rfl now e.supply
  rw [← hstate] at hstatus hcreated hrecreates
  obtain ⟨warnings, hresult⟩ := outcome_create e now (batchOf ds) false
  have hmoved := (moved_create e now (batchOf ds) false).state
  refine ⟨?_, ?_, ?_⟩
  · exact (congrArg BatchOutcome.status hresult).trans hstatus
  · exact (congrArg BatchOutcome.created hresult).trans hcreated
  · exact (congrArg (State.Recreates now ds) hmoved).mpr hrecreates

/-- Settings under which names have hyphens, so that formulas hold them in brackets. -/
def hyphenSettings : Settings := { naming := { separator := "-" } }

theorem separates_hyphenSettings : hyphenSettings.naming.Separates where
  nonempty := by simp [hyphenSettings]
  other := by simp [hyphenSettings, Char.isAlphanum, Char.isAlpha, Char.isUpper, Char.isLower, Char.isDigit]

def frameDefinitions : List Definition :=
  [{ identity := ⟨1⟩, name := "Total-Width", kind := .length, group := "Sizes", visible := false, perElement := true
     formula := some "[Clear-Width] + 2 * [Frame-Width]", createdAt := ⟨0, 0⟩, uses := 4 },
   { identity := ⟨2⟩, name := "Frame-Width", kind := .length, group := "Sizes", category := some "Doors"
     formula := some "[Clear-Width] / 10", createdAt := ⟨0, 0⟩ },
   { identity := ⟨3⟩, name := "Clear-Width", kind := .length, group := " Sizes ", description := some ""
     createdAt := ⟨0, 0⟩ }]

/-- How many definitions stand behind a key. -/
def frameRank (key : String) : Nat := if key = "total-width" then 2 else if key = "frame-width" then 1 else 0

theorem importable_frameDefinitions : Importable hyphenSettings frameDefinitions where
  nonempty := by simp [frameDefinitions]
  keys_nodup := by decide
  identities_nodup := by decide
  normal := by
    have hnames : ∀ d ∈ frameDefinitions, d.name ≠ "" ∧ hyphenSettings.naming.normalize d.name = d.name := by
      decide
    exact fun d hd => ⟨(hnames d hd).1, (hnames d hd).2⟩
  unreserved := by decide
  short := by decide
  grouped := by decide
  written := by
    intro d hd text htext
    have hread : ∀ d ∈ frameDefinitions, d.formula.all fun text => (Formula.parse text).toOption.any fun e =>
        e.render hyphenSettings.formula.style == text &&
          e.names.all fun name => frameDefinitions.any fun other => other.name == name := by
      decide +kernel
    have hd := hread d hd
    rw [htext, Option.all_some] at hd
    cases hparse : Formula.parse text with
    | error error => simp [hparse, Except.toOption] at hd
    | ok e =>
        simp only [hparse, Except.toOption, Option.any_some, Bool.and_eq_true, beq_iff_eq, List.all_eq_true,
          List.any_eq_true] at hd
        exact ⟨e, rfl, hd⟩
  acyclic := by
    have hstep : ∀ d ∈ frameDefinitions, (d.expression?.map fun e => e.names.map keyOf).all fun targets =>
        targets.all fun target => frameRank target < frameRank d.key := by
      decide +kernel
    have hfalls : ∀ {key target}, TransGen (DependsIn frameDefinitions) key target → frameRank target < frameRank key := by
      intro key target hwalk
      have hone : ∀ {key target}, DependsIn frameDefinitions key target → frameRank target < frameRank key := by
        rintro key target ⟨d, hd, rfl, e, he, htarget⟩
        have hd := hstep d hd
        rw [he, Option.map_some, Option.all_some, List.all_eq_true] at hd
        simpa using hd target htarget
      induction hwalk with
      | single h => exact hone h
      | tail _ h ih => exact (hone h).trans ih
    exact fun key hcycle => absurd (hfalls hcycle) (Nat.lt_irrefl _)

theorem recreates_frameDefinitions :
    let e := fresh hyphenSettings ⟨0, 0⟩ (.ofSeed 0)
    let step := e.importDefinitions ⟨1, 0⟩ frameDefinitions false
    Importable e.settings frameDefinitions ∧ step.1.status = .completed ∧ step.1.created = 3 ∧
      step.2.state.Recreates ⟨1, 0⟩ frameDefinitions :=
  ⟨importable_frameDefinitions, recreates_importDefinitions (fresh hyphenSettings ⟨0, 0⟩ (.ofSeed 0)) ⟨1, 0⟩
    frameDefinitions ⟨_, rfl⟩ separates_hyphenSettings importable_frameDefinitions⟩

end Engine

end Parametric
