import Parametric.Element.Local
import Parametric.Proofs.Creation.Return
import Parametric.Proofs.Exchange.Csv
import Parametric.Proofs.Exchange.SharedFile
import Parametric.Proofs.State.Invariants

/-!
# Exports that are imported again

When definitions are written to a table or an exchange file and imported again, each of them is updated to
what the format says about it. An attribute without a field there comes back as what the reader assumes.
-/

namespace Parametric

/-! ## Names -/

namespace Convention

theorem isBlank_of_isNormal {name : String} (h : Convention.IsNormal {} name) :
    ∀ c ∈ name.toList, Text.isBlank c = false := by
  obtain ⟨words, rfl, -, hsolid⟩ := h.chars ⟨by decide, by simp⟩
  intro c hc
  rw [String.toList_ofList] at hc
  rcases mem_intercalate hc with hseparator | ⟨word, hword, hc⟩
  · obtain rfl : c = '_' := by simpa using hseparator
    decide
  · exact Text.isBlank_of_isAlphanum ((solid_of_mem_styledWords hsolid word hword).isAlphanum c hc)

end Convention

namespace SharedFile

theorem cleaned_eq_self {text : String} (h : ∀ c ∈ text.toList, Text.isBlank c = false) : cleaned text = text := by
  have hfield : fieldText text = text := by
    rw [fieldText, List.map_congr_left fun c hc => ?_, List.map_id, String.ofList_toList]
    have hblank := h c hc
    rw [if_neg, id]
    simp only [Bool.or_eq_true, beq_iff_eq, or_assoc]
    rintro (rfl | rfl | rfl) <;> exact absurd hblank (by decide)
  rw [cleaned, hfield, Text.trim_eq_self h]

end SharedFile

/-! ## Formats -/

namespace FileFormat

def carried : FileFormat → String → String
  | .sharedFile, text => SharedFile.cleaned text
  | .csv, text => Text.trim text
  | .json, text => text

def readBack (now : Instant) : FileFormat → Definition → Definition
  | .sharedFile, d => SharedFile.readBack now d
  | .csv, d => Csv.readBack now d
  | .json, d => d

/-- A definition of which a table or an exchange file says all that there is to say: it has nothing but the
usual values where the format has no field, and its texts come back as they are or count as absent. -/
structure Carries (format : FileFormat) (settings : RegistrySettings) (d : Definition) : Prop where
  visible : format = .csv → d.visible = true
  perElement : format = .sharedFile → d.perElement = false
  allowMissing : d.allowMissing = false
  group : (if Text.isBlankText (format.carried d.group) then settings.defaultGroup else format.carried d.group) =
    d.group
  description : ∀ text, d.description = some text → format.carried text = "" ∨ format.carried text = text
  category : format = .sharedFile → ∀ text, d.category = some text →
    format.carried text = "" ∨ format.carried text = text

theorem orElse_filter_eq_iff (f : String → String) (text : Option String) :
    ((text.map f).filter (· != "") <|> text) = text ↔ ∀ t, text = some t → f t = "" ∨ f t = t := by
  cases text with
  | none => simp
  | some t => by_cases h : f t = "" <;> simp [Option.filter, h]

theorem group_checked (settings : Settings) (d : Definition) : d.checked.group settings =
    if Text.isBlankText d.group then settings.registry.defaultGroup else d.group := rfl

variable {format : FileFormat} (hformat : format = .sharedFile ∨ format = .csv)
include hformat

/-- A definition keeps its shape when it comes back exactly if the format carries it. -/
theorem shape_readBack_iff (settings : Settings) (now : Instant) (d : Definition) (hplain : d.formula = none) :
    ((format.readBack now d).checked.updated settings d).shape = d.shape ↔ format.Carries settings.registry d := by
  rcases hformat with rfl | rfl
  · have hdescription := orElse_filter_eq_iff SharedFile.cleaned d.description
    have hcategory := orElse_filter_eq_iff SharedFile.cleaned d.category
    have hkind : d.kind = (SharedFile.readBack now d).kind := by simp only [SharedFile.readBack]
    have hformula : (SharedFile.readBack now d).formula = none := by simp only [SharedFile.readBack]
    rw [readBack, Definition.shape_updated_iff hkind hformula, group_checked]
    simp only [SharedFile.readBack, SharedFile.cleaned?, hdescription, hcategory, true_and]
    constructor
    · rintro ⟨hgroup, hdescription, hcategory, hperElement, hallow⟩
      exact ⟨by simp, fun _ => hperElement.symm, hallow.symm, hgroup, hdescription, fun _ => hcategory⟩
    · intro h
      exact ⟨h.group, h.description, h.category rfl, (h.perElement rfl).symm, h.allowMissing.symm⟩
  · have hdescription := orElse_filter_eq_iff Text.trim d.description
    have hkind : d.kind = (Csv.readBack now d).kind := by simp only [Csv.readBack]
    have hformula : (Csv.readBack now d).formula = none := by simp [Csv.readBack, Csv.trimmed?, hplain]
    rw [readBack, Definition.shape_updated_iff hkind hformula, group_checked]
    simp only [Csv.readBack, Csv.trimmed?, hdescription]
    constructor
    · rintro ⟨hgroup, hvisible, hdescription, -, -, hallow⟩
      exact ⟨fun _ => hvisible.symm, by simp, hallow.symm, hgroup, hdescription, by simp⟩
    · intro h
      exact ⟨h.group, (h.visible rfl).symm, h.description, rfl, trivial, h.allowMissing.symm⟩

/-- Definitions whose names have no white space come back from their text, in some order. -/
theorem decode_encode (now : Instant) (supply : TokenSupply) (indented : Bool) {ds : List Definition}
    (hnames : ∀ d ∈ ds, d.name ≠ "" ∧ ∀ c ∈ d.name.toList, Text.isBlank c = false)
    (hlength : format = .sharedFile → ds.length < Number.wordLimit) :
    ∃ back, format.decode now supply (format.encode indented ds) = .ok (⟨back, []⟩, supply) ∧
      back.Perm (ds.map (format.readBack now)) := by
  rcases hformat with rfl | rfl
  · have hcleaned : ∀ d ∈ ds, SharedFile.cleaned d.name ≠ "" := by
      intro d hd
      rw [SharedFile.cleaned_eq_self (hnames d hd).2]
      exact (hnames d hd).1
    refine ⟨(SharedFile.inOrder ds).map (SharedFile.readBack now), ?_, (SharedFile.perm_inOrder ds).map _⟩
    rw [decode, encode, SharedFile.read_write_inOrder now hcleaned (hlength rfl)]
    rfl
  · have htrimmed : ∀ d ∈ ds, Text.trim d.name ≠ "" := by
      intro d hd
      rw [Text.trim_eq_self (hnames d hd).2]
      exact (hnames d hd).1
    refine ⟨ds.map (Csv.readBack now), ?_, .refl _⟩
    rw [decode, encode, ← Csv.writeAs_columns, Csv.read_writeAs (.refl _) now supply htrimmed]
    rfl

theorem readBack_same (now : Instant) {d : Definition} (hname : ∀ c ∈ d.name.toList, Text.isBlank c = false) :
    (format.readBack now d).name = d.name ∧ (format.readBack now d).identity = d.identity ∧
      (format.readBack now d).kind = d.kind := by
  rcases hformat with rfl | rfl
  · simp only [readBack, SharedFile.readBack, SharedFile.cleaned_eq_self hname, and_self]
  · simp only [readBack, Csv.readBack, Text.trim_eq_self hname, and_self]

theorem formula_readBack (now : Instant) {d : Definition} (hplain : d.formula = none) :
    (format.readBack now d).formula = none := by
  rcases hformat with rfl | rfl
  · simp only [readBack, SharedFile.readBack]
  · simp [readBack, Csv.readBack, Csv.trimmed?, hplain]

theorem returns_readBack {r : Registry} (hk : r.Keyed) (now : Instant) {back : List Definition}
    (hnames : ∀ d ∈ r.definitions, ∀ c ∈ d.name.toList, Text.isBlank c = false)
    (hplain : ∀ d ∈ r.definitions, d.formula = none)
    (hback : back.Perm (r.definitions.map (format.readBack now))) : r.Returns back := by
  have hsource : ∀ d ∈ back, ∃ old ∈ r.definitions, format.readBack now old = d := fun d hd =>
    List.mem_map.mp (hback.mem_iff.mp hd)
  constructor
  case known =>
    intro d hd
    obtain ⟨old, hold, rfl⟩ := hsource d hd
    obtain ⟨hname, hidentity, hkind⟩ := readBack_same hformat now (hnames old hold)
    refine ⟨old, ?_, ?_, hkind.symm⟩
    · rw [hname]
      exact (Registry.mem_definitions_iff hk).mp hold
    · rw [Definition.label, Definition.label, hname, hidentity]
  case plain =>
    intro d hd
    obtain ⟨old, hold, rfl⟩ := hsource d hd
    exact formula_readBack hformat now (hplain old hold)
  case keys_nodup =>
    have hkeys : (r.definitions.map (format.readBack now)).map Definition.key = r.table.keys := by
      rw [List.map_map, ← hk.keys_definitions]
      refine List.map_congr_left fun old hold => ?_
      rw [Function.comp_apply, Definition.key, (readBack_same hformat now (hnames old hold)).1, Definition.key]
    exact ((hback.map Definition.key).trans (.of_eq hkeys)).nodup_iff.mpr r.table.keys_nodup

end FileFormat

/-! ## Runs -/

namespace Engine

variable {ε : Type} [ElementAccess ε]

/-- Whatever batches led to an engine under the default naming convention, as long as no definition has a
formula: the text of a table or an exchange file of all definitions can be imported again. That registers
nothing new, and a definition keeps its shape exactly if the format carries it or its token belongs to
another definition as well, which has it first. -/
theorem shape_reimport_iff (settings : Settings) (start : Instant) (supply : TokenSupply)
    (steps : List (Instant × Operation ε)) (now : Instant) (format : FileFormat) (hnaming : settings.naming = {})
    (hsteps : ∀ step ∈ steps, ∃ batch cancelled, step.2 = .create batch cancelled)
    (hformat : format = .sharedFile ∨ format = .csv)
    (hplain : ∀ d ∈ ((fresh settings start supply).run steps).state.registry.definitions, d.formula = none)
    (hlength : format = .sharedFile →
      ((fresh settings start supply).run steps).state.registry.definitions.length < Number.wordLimit) :
    let e := (fresh settings start supply).run steps
    ∃ result after, e.importText now format (e.exportText format) false = .ok ([], result, after) ∧
      (∀ name, e.state.registry.get? name = none → after.state.registry.get? name = none) ∧
      ∀ d ∈ e.state.registry.definitions,
        (after.state.registry.get? d.name).map Definition.shape = some d.shape ↔
          (e.state.registry.ownerOf? d.identity = some d → format.Carries settings.registry d) := by
  intro e
  have hc : settings.naming.Separates := hnaming ▸ ⟨by decide, by simp⟩
  have hk := (keyed_invariant.of_any_run start settings supply steps).registry
  have hcoherent := coherent_invariant.of_any_run start settings supply steps
  obtain ⟨hsettings, hnamed⟩ := named_run settings start supply steps hc hsteps
  have hnames : ∀ d ∈ e.state.registry.definitions, d.name ≠ "" ∧ ∀ c ∈ d.name.toList, Text.isBlank c = false := by
    intro d hd
    have hnormal := (hnamed ((Registry.mem_definitions_iff hk).mp hd)).normal
    rw [hnaming] at hnormal
    exact ⟨hnormal.nonempty, Convention.isBlank_of_isNormal hnormal⟩
  obtain ⟨back, hdecode, hback⟩ :=
    FileFormat.decode_encode hformat now e.supply e.settings.prettyExport hnames hlength
  have hreturns := FileFormat.returns_readBack hformat hk now (fun d hd => (hnames d hd).2) hplain hback
  have hrenews : e.state.Renews settings back (e.importDefinitions now back false).2.state := by
    rw [importDefinitions, (moved_create e now (batchOf back) false).state, hsettings]
    exact State.renews_create hnamed hc hk hcoherent hreturns rfl e.supply
  refine ⟨(e.importDefinitions now back false).1, (e.importDefinitions now back false).2, ?_, ?_, ?_⟩
  · simp only [importText, exportText, hdecode]
    rfl
  · intro name hnone
    rw [hrenews.untouched name fun d hd _ hkey => ?_, hnone]
    obtain ⟨old, hold, -⟩ := hreturns.known d hd
    rw [Registry.get?_congr hkey, hnone] at hold
    cases hold
  · intro d hd
    have hget := (Registry.mem_definitions_iff hk).mp hd
    obtain ⟨hname, hidentity, -⟩ := FileFormat.readBack_same hformat now (hnames d hd).2
    by_cases hown : e.state.registry.ownerOf? d.identity = some d
    · have hrenewed := hrenews.renewed (format.readBack now d) (hback.mem_iff.mpr (List.mem_map_of_mem hd))
      rw [hname, hidentity, hget] at hrenewed
      rw [hrenewed hown d rfl, Option.some.injEq, FileFormat.shape_readBack_iff hformat settings now d (hplain d hd)]
      simp [hown]
    · -- Another definition has the token first, so this one fails and is left as it is.
      have hsame : (e.importDefinitions now back false).2.state.registry.get? d.name = some d := by
        refine (hrenews.untouched d.name fun other hother howns hkey => hown ?_).trans hget
        obtain ⟨old, hold, rfl⟩ := List.mem_map.mp (hback.mem_iff.mp hother)
        obtain ⟨hname', hidentity', -⟩ := FileFormat.readBack_same hformat now (hnames old hold).2
        rw [Registry.get?_congr hkey, hget, hidentity'] at howns
        rw [Definition.key, hname'] at hkey
        have hsome := (Registry.mem_definitions_iff hk).mp hold
        rw [Registry.get?_congr hkey, hget] at hsome
        rwa [← Option.some.inj hsome] at howns
      simp [hsame, hown]

/-- A run that registers a hidden definition, and one with a value of its own for each element. -/
def sillRun : List (Instant × Operation LocalElement) :=
  [(⟨0, 0⟩, .create { entries := [
      { name := "sill width", kind := "length", group := some "Sizes", visible := false, category := some "Doors"
        identity := some "11111111111141118111111111111111" },
      { name := "note", kind := "text", perElement := true, description := some "seen"
        identity := some "22222222222242228222222222222222" }] } false)]

def sillWidth : Definition where
  identity := ⟨0x11111111111141118111111111111111⟩
  name := "Sill_Width"
  kind := .length
  group := "Sizes"
  visible := false
  category := some "Doors"
  createdAt := ⟨0, 0⟩

def sillNote : Definition where
  identity := ⟨0x22222222222242228222222222222222⟩
  name := "Note"
  kind := .text
  group := "General"
  description := some "seen"
  perElement := true
  createdAt := ⟨0, 0⟩

theorem registered_sillRun :
    let r := ((fresh {} ⟨0, 0⟩ (.ofSeed 0)).run sillRun).state.registry
    r.definitions = [sillNote, sillWidth] ∧ r.ownerOf? sillWidth.identity = some sillWidth ∧
      r.ownerOf? sillNote.identity = some sillNote := by
  decide +kernel

/-- A table shows the hidden definition again. -/
theorem shown_by_reimport :
    let e := (fresh {} ⟨0, 0⟩ (.ofSeed 0)).run sillRun
    (∀ d ∈ e.state.registry.definitions, d.formula = none) ∧
      (e.state.registry.get? "Sill_Width").map (·.visible) = some false ∧
      (e.importText ⟨1, 0⟩ .csv (e.exportText .csv) false).toOption.map (fun (_, result, after) =>
          (result.updatedNames, result.skipped, (after.state.registry.get? "Sill_Width").map (·.visible))) =
        some (["Sill_Width"], 1, some true) := by
  intro e
  have hdecode : FileFormat.csv.decode ⟨1, 0⟩ e.supply (e.exportText .csv) =
      .ok (⟨[sillNote, sillWidth].map (Csv.readBack ⟨1, 0⟩), []⟩, e.supply) := by
    rw [exportText, registered_sillRun.1, FileFormat.decode, FileFormat.encode, ← Csv.writeAs_columns,
      Csv.read_writeAs (.refl _) _ _ (by decide)]
    rfl
  refine ⟨by rw [registered_sillRun.1]; decide, by decide +kernel, ?_⟩
  simp only [importText, hdecode]
  decide +kernel

/-- An exchange file carries the hidden definition, and not the other one. -/
theorem shape_reimport_sillRun :
    let e := (fresh {} ⟨0, 0⟩ (.ofSeed 0)).run sillRun
    ∃ result after, e.importText ⟨1, 0⟩ .sharedFile (e.exportText .sharedFile) false = .ok ([], result, after) ∧
      (after.state.registry.get? "Sill_Width").map Definition.shape =
        (e.state.registry.get? "Sill_Width").map Definition.shape ∧
      (after.state.registry.get? "Note").map Definition.shape ≠
        (e.state.registry.get? "Note").map Definition.shape := by
  intro e
  obtain ⟨hdefinitions, hwidth, hnote⟩ := registered_sillRun
  have hkeyed := (keyed_invariant.of_any_run ⟨0, 0⟩ {} (.ofSeed 0) sillRun).registry
  have hmem : ∀ d, d ∈ e.state.registry.definitions ↔ d = sillNote ∨ d = sillWidth := by
    simp [e, hdefinitions]
  obtain ⟨result, after, himport, -, hshape⟩ := shape_reimport_iff {} ⟨0, 0⟩ (.ofSeed 0) sillRun ⟨1, 0⟩ .sharedFile rfl
    (by simp [sillRun]) (.inl rfl) (by rw [hdefinitions]; decide) (by rw [hdefinitions]; decide)
  have hcarried : FileFormat.sharedFile.Carries {} sillWidth := by
    refine ⟨nofun, fun _ => rfl, rfl, by decide, nofun, fun _ text htext => .inr ?_⟩
    obtain rfl : "Doors" = text := Option.some.inj htext
    decide
  have hlost : ¬FileFormat.sharedFile.Carries {} sillNote := fun h => Bool.noConfusion (h.perElement rfl)
  refine ⟨result, after, himport, ?_, ?_⟩
  · have hget := (Registry.mem_definitions_iff hkeyed).mp ((hmem sillWidth).mpr (.inr rfl))
    have hkept := (hshape sillWidth ((hmem _).mpr (.inr rfl))).mpr fun _ => hcarried
    exact hkept.trans (congrArg (Option.map Definition.shape) hget).symm
  · have hget := (Registry.mem_definitions_iff hkeyed).mp ((hmem sillNote).mpr (.inl rfl))
    intro hsame
    exact hlost ((hshape sillNote ((hmem _).mpr (.inl rfl))).mp (hsame.trans (congrArg (Option.map Definition.shape) hget))
      hnote)

end Engine

end Parametric
