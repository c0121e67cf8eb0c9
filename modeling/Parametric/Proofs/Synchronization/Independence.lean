import Mathlib
import Parametric.Proofs.Registry
import Parametric.Synchronization.Plan

/-!
# Plans for single elements

The names that a category asks for are looked up once for all spellings of it that differ in case, under the
spelling that comes first. So the task of an element depends on the other ones as far as the categories and the
templates tell spellings apart: they only disregard the case of ASCII letters.
-/

namespace Parametric

/-! ## Spellings of categories -/

section Spellings

variable {a b : String} (h : Text.sameAscii a b = true)
include h

theorem sameAscii_congr (text : String) : Text.sameAscii text a = Text.sameAscii text b := by
  simp only [Text.sameAscii, beq_iff_eq.mp h]

theorem findByAscii_congr {α : Type} (m : SortedMap α) : findByAscii m a = findByAscii m b := by
  simp only [findByAscii, sameAscii_congr h]

theorem listedNames_congr (settings : Settings) (request : SyncRequest) :
    settings.listedNames request a = settings.listedNames request b := by
  simp only [Settings.listedNames, Settings.needs?, findByAscii_congr h]

theorem covers_congr (item : TemplateItem) : item.covers a = item.covers b := by
  simp only [TemplateItem.covers, sameAscii_congr h]

theorem namesFor_congr (t : Template) (settings : Settings) (r : Registry) :
    t.namesFor settings r a = t.namesFor settings r b := by
  simp only [Template.namesFor, Template.proposalsFor, covers_congr h, List.map_map]
  rfl

/-- Spellings that differ in the case of ASCII letters ask for the same names. -/
theorem wantedNames_congr (r : Registry) (settings : Settings) (request : SyncRequest) (template : Option Template) :
    r.wantedNames settings request template a = r.wantedNames settings request template b := by
  cases template <;> simp only [Registry.wantedNames, listedNames_congr h, namesFor_congr h]

end Spellings

/-- The spelling of a category that counts among elements: the first one that differs in case at most. -/
def leadingCategory (captures : List Capture) (category : String) : String :=
  ((captures.find? (Text.lowercase ·.category == Text.lowercase category)).map (·.category)).getD category

theorem leadingCategory_eq (captures : List Capture) (category : String) : leadingCategory captures category =
    ((captures.map (·.category)).find? (Text.lowercase · == Text.lowercase category)).getD category := by
  rw [leadingCategory, List.find?_map]
  rfl

theorem lookup_firstCategories (captures : List Capture) (key : String) : (firstCategories captures).lookup key =
    (captures.find? (Text.lowercase ·.category == key)).map (·.category) := by
  induction captures using List.reverseRecOn with
  | nil => rfl
  | append_singleton rest c ih =>
      have hlast : firstCategories (rest ++ [c]) =
          if ((firstCategories rest).lookup (Text.lowercase c.category)).isSome then firstCategories rest
          else firstCategories rest ++ [(Text.lowercase c.category, c.category)] := List.foldl_concat _ _ _ _
      rw [hlast, List.find?_append, Option.map_or, ← ih, List.find?_singleton]
      by_cases hkey : key = Text.lowercase c.category
      · subst hkey
        cases hfound : (firstCategories rest).lookup (Text.lowercase c.category) with
        | some first => simp [hfound]
        | none => simp [hfound, List.lookup_append]
      · have hother : (Text.lowercase c.category == key) = false := by simpa using Ne.symm hkey
        have hother' : (key == Text.lowercase c.category) = false := by simpa using hkey
        split
        · simp [hother]
        · simp [hother, hother', List.lookup_append, List.lookup]

/-! ## Tasks -/

/-- Whether two lists of names ask the same of an element: they have the same names that it lacks, and if others
are removed, the same of its parameters that are not reserved. -/
structure Capture.AsksSame (c : Capture) (settings : Settings) (request : SyncRequest) (wanted wanted' : List String) :
    Prop where
  additions : wanted.filter (!c.has ·) = wanted'.filter (!c.has ·)
  removals : request.removesOthers = true → ∀ p ∈ c.parameters, settings.registry.reserves p.name = false →
    (p.key ∈ wanted.map keyOf ↔ p.key ∈ wanted'.map keyOf)

namespace Capture

variable {c : Capture} {settings : Settings} {request : SyncRequest} {wanted wanted' : List String}

/-- The names of the parameters that are neither wanted nor reserved. -/
def unwanted (c : Capture) (settings : Settings) (wanted : List String) : List String :=
  (c.parameters.map (·.name)).filter fun name =>
    !(wanted.map keyOf).contains (keyOf name) && !settings.registry.reserves name

theorem mem_unwanted {name : String} : name ∈ c.unwanted settings wanted ↔
    name ∈ c.parameters.map (·.name) ∧ keyOf name ∉ wanted.map keyOf ∧ settings.registry.reserves name = false := by
  simp only [unwanted, List.mem_filter, Bool.and_eq_true, Bool.not_eq_true', List.contains_eq_mem,
    decide_eq_false_iff_not]

theorem unwanted_eq_iff : c.unwanted settings wanted = c.unwanted settings wanted' ↔
    ∀ p ∈ c.parameters, settings.registry.reserves p.name = false →
      (p.key ∈ wanted.map keyOf ↔ p.key ∈ wanted'.map keyOf) := by
  constructor
  · intro heq p hp hfree
    have hname : p.name ∈ c.parameters.map (·.name) := List.mem_map_of_mem hp
    have hmem : p.name ∈ c.unwanted settings wanted ↔ p.name ∈ c.unwanted settings wanted' := by rw [heq]
    simp only [mem_unwanted, hname, hfree, true_and, and_true] at hmem
    exact not_iff_not.mp hmem
  · intro hsame
    refine List.filter_congr (List.forall_mem_map.mpr fun p hp => ?_)
    cases hfree : settings.registry.reserves p.name with
    | true => simp
    | false =>
        have hkey : keyOf p.name ∈ wanted.map keyOf ↔ keyOf p.name ∈ wanted'.map keyOf := hsame p hp hfree
        simp only [List.contains_eq_mem, hkey]

/-- What an element with an id should gain and lose. -/
theorem task_of_id (hid : Text.isBlankText c.elementId = false) : c.task settings request wanted =
    let additions := wanted.filter (!c.has ·)
    let removals := if request.removesOthers then c.unwanted settings wanted else []
    { elementId := c.elementId, category := c.category, additions := additions, removals := removals
      added := if request.preview then 0 else additions.length
      removed := if request.preview then 0 else removals.length } := by
  have hany : ∀ name, (wanted.any fun other => keyOf other == keyOf name) = (wanted.map keyOf).contains (keyOf name) := by
    intro name
    rw [List.contains_eq_any_beq, List.any_map]
    exact congrArg _ (funext fun other => by simp [Bool.beq_comm])
  simp only [task, hid, Bool.false_eq_true, ↓reduceIte, unwanted, List.filter_map, ← hany]
  rfl

theorem task_eq_iff : c.task settings request wanted = c.task settings request wanted' ↔
    Text.isBlankText c.elementId = true ∨ c.AsksSame settings request wanted wanted' := by
  cases hid : Text.isBlankText c.elementId with
  | true => simp [task, hid]
  | false =>
      have hlists : c.task settings request wanted = c.task settings request wanted' ↔
          wanted.filter (!c.has ·) = wanted'.filter (!c.has ·) ∧
            (if request.removesOthers then c.unwanted settings wanted else []) =
              if request.removesOthers then c.unwanted settings wanted' else [] := by
        rw [task_of_id hid, task_of_id hid, ElementTask.mk.injEq]
        refine ⟨fun h => ⟨h.2.2.1, h.2.2.2.1⟩, fun ⟨hadditions, hremovals⟩ => ?_⟩
        rw [hadditions, hremovals]
        exact ⟨rfl, rfl, rfl, rfl, rfl, rfl, rfl⟩
      rw [hlists]
      cases hothers : request.removesOthers with
      | true =>
          simp only [↓reduceIte, unwanted_eq_iff, Bool.false_eq_true, false_or]
          exact ⟨fun h => ⟨h.1, fun _ => h.2⟩, fun h => ⟨h.additions, h.removals hothers⟩⟩
      | false =>
          simp only [Bool.false_eq_true, ↓reduceIte, and_true, false_or]
          exact ⟨fun h => ⟨h, by simp [hothers]⟩, (·.additions)⟩

end Capture

/-! ## Plans -/

namespace Registry

variable {r : Registry} {settings : Settings} {templates : Templates} {request : SyncRequest} {captures : List Capture}

theorem planSync_of_known (hknown : ∀ id, request.template = some id → (templates.get? id).isSome = true)
    (cancelled : Bool) : r.planSync settings templates request captures cancelled =
      r.syncPlans settings request (request.template.bind templates.get?) captures cancelled := by
  simp only [planSync]
  cases htemplate : request.template with
  | none => rfl
  | some id =>
      obtain ⟨template, hget⟩ := Option.isSome_iff_exists.mp (hknown id htemplate)
      simp [hget]

/-- Every element gets the task for the leading spelling of its category. -/
theorem tasks_planSync (hknown : ∀ id, request.template = some id → (templates.get? id).isSome = true) :
    (r.planSync settings templates request captures false).tasks = captures.map fun c =>
      c.task settings request (r.wantedNames settings request (request.template.bind templates.get?)
        (leadingCategory captures c.category)) := by
  rw [planSync_of_known hknown]
  simp only [syncPlans, Bool.false_eq_true, ↓reduceIte, lookup_firstCategories]
  refine List.map_congr_left fun c hc => ?_
  obtain ⟨first, hfirst⟩ : ∃ first,
      captures.find? (Text.lowercase ·.category == Text.lowercase c.category) = some first := by
    rw [← Option.isSome_iff_exists, List.find?_isSome]
    exact ⟨c, hc, beq_self_eq_true _⟩
  simp only [leadingCategory, hfirst, Option.map_some, Option.getD_some]

/-- The task of an element among others is the one that it gets alone exactly if it has no id, or the leading
spelling of its category and its own one ask the same of it. They do if they differ in the case of ASCII letters
only. -/
theorem task_alone_iff (r : Registry) (settings : Settings) (templates : Templates) (request : SyncRequest)
    (captures : List Capture) (hknown : ∀ id, request.template = some id → (templates.get? id).isSome = true)
    {i : Nat} {c : Capture} (hc : captures[i]? = some c) :
    let wanted := r.wantedNames settings request (request.template.bind templates.get?)
    let leading := leadingCategory captures c.category
    ((r.planSync settings templates request captures false).tasks[i]? =
        (r.planSync settings templates request [c] false).tasks[0]? ↔
      Text.isBlankText c.elementId = true ∨ c.AsksSame settings request (wanted leading) (wanted c.category)) ∧
    (Text.sameAscii leading c.category = true →
      c.AsksSame settings request (wanted leading) (wanted c.category)) := by
  intro wanted leading
  have halone : leadingCategory [c] c.category = c.category := by simp [leadingCategory]
  constructor
  · rw [tasks_planSync hknown, tasks_planSync hknown, List.getElem?_map, hc, List.map_singleton, halone,
      List.getElem?_singleton]
    simp only [Option.map_some, ↓reduceIte, Option.some.injEq]
    exact Capture.task_eq_iff
  · intro hsame
    rw [show wanted leading = wanted c.category from wantedNames_congr hsame r settings request _]
    exact ⟨rfl, fun _ _ _ _ => Iff.rfl⟩

def doorSettings : Settings where
  categories := .ofList [("türen", { required := ["width"] })]

def widthRegistry : Registry :=
  .ofList [{ identity := ⟨1⟩, name := "Width", kind := .length, group := "Sizes", createdAt := ⟨0, 0⟩ }]

def noteTemplates : Templates :=
  Templates.insert {} { id := "N", name := "notes", items := [{ proposal := { name := "note", kind := "text" }
                                                                allCategories := true }] }

theorem task_alone_doors :
    let captures := [⟨"door-1", "Türen", []⟩, ⟨"door-2", "TüREN", [{ name := "WIDTH", kind := .length }]⟩]
    let request : SyncRequest := { template := some "n", removesOthers := true }
    (∀ id, request.template = some id → (noteTemplates.get? id).isSome = true) ∧
      captures[1]? = some ⟨"door-2", "TüREN", [{ name := "WIDTH", kind := .length }]⟩ ∧
      (widthRegistry.planSync doorSettings noteTemplates request captures false).tasks[1]? =
        (widthRegistry.planSync doorSettings noteTemplates request
          [⟨"door-2", "TüREN", [{ name := "WIDTH", kind := .length }]⟩] false).tasks[0]? := by
  intro captures request
  have hknown : ∀ id, request.template = some id → (noteTemplates.get? id).isSome = true := by
    rintro id ⟨⟩
    decide +kernel
  obtain ⟨hiff, hsame⟩ := task_alone_iff widthRegistry doorSettings noteTemplates request captures hknown
    (show captures[1]? = some _ from rfl)
  exact ⟨hknown, rfl, hiff.mpr (.inr (hsame (by decide +kernel)))⟩

/-- The letter beyond ASCII keeps an element from its parameter when its category is written in capitals, but
not when there is an element before it that writes it otherwise. -/
theorem not_alone_capitals :
    let tasks captures := (widthRegistry.planSync doorSettings {} {} captures false).tasks
    let capitals : Capture := ⟨"door-2", "TÜREN", []⟩
    ((tasks [⟨"door-1", "türen", []⟩, capitals])[1]?.map (·.additions)) = some ["Width"] ∧
      ((tasks [capitals])[0]?.map (·.additions)) = some [] ∧
      (tasks [⟨"door-1", "türen", []⟩, capitals])[1]? ≠ (tasks [capitals])[0]? := by
  decide +kernel

end Registry

end Parametric
