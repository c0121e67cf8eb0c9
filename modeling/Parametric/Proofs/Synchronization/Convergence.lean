import Mathlib
import Parametric.Element.Local
import Parametric.Proofs.Engine.Run
import Parametric.Proofs.State.Steps
import Parametric.Proofs.Synchronization.Independence

/-!
# Rounds of synchronization

The parameters that a task adds have keys that the element lacks, and the ones that it removes stand under keys of
their own. So a task goes through on any element that refuses nothing, and what the element carries afterwards is
what was wanted of it. Uses are counted, but spellings stay: the next plan wants the same.
-/

namespace Parametric

theorem Capture.has_iff (c : Capture) {name : String} :
    c.has name = true ↔ keyOf name ∈ c.parameters.map (·.key) := by
  simp only [has, List.any_eq_true, beq_iff_eq, List.mem_map]

/-! ## Elements in memory -/

theorem eraseP_eq_filter {α : Type} (key : α → String) (k : String) {l : List α} (h : (l.map key).Nodup) :
    l.eraseP (key · == k) = l.filter (key · != k) := by
  induction l with
  | nil => rfl
  | cons a rest ih =>
      rw [List.map_cons, List.nodup_cons] at h
      by_cases hk : key a = k
      · subst hk
        have hothers : ∀ b ∈ rest, (key b != key a) = true := fun b hb => by
          rw [bne_iff_ne]
          exact fun heq => h.1 (heq ▸ List.mem_map_of_mem hb)
        rw [List.eraseP_cons_of_pos (by simp), List.filter_cons_of_neg (by simp),
          List.filter_eq_self.mpr hothers]
      · rw [List.eraseP_cons_of_neg (by simpa using hk), List.filter_cons_of_pos (by simpa using hk), ih h.2]

/-- Whether a name is registered: there is a definition of that name under its key. -/
def Registry.Defines (r : Registry) (name : String) : Prop := ∃ d, r.get? name = some d ∧ d.key = keyOf name

theorem Registry.Keyed.defines_iff {r : Registry} (h : r.Keyed) {name : String} :
    r.Defines name ↔ r.contains name = true :=
  ⟨fun ⟨_, hd, _⟩ => SortedMap.contains_iff.mpr ⟨_, hd⟩, fun hname =>
    have ⟨d, hd⟩ := SortedMap.contains_iff.mp hname
    ⟨d, hd, h.key_eq hd⟩⟩

namespace LocalElement

/-- Whether an element refuses no call that carries out tasks with the definitions of a registry. -/
structure Willing (x : LocalElement) (r : Registry) : Prop where
  adds : ∀ ⦃name d⦄, r.get? name = some d → x.refusals.names.any (Text.sameAscii · d.name) = false
  removes : x.refusals.remove = false
  saves : x.refusals.save = false
  continues : x.cancelsOnSave = false

def withParameters (x : LocalElement) (ps : List CarriedParameter) : LocalElement := { x with parameters := ps }

theorem access_add (x : LocalElement) (d : Definition) : ElementAccess.add x d = x.add d := rfl

theorem access_remove (x : LocalElement) (name : String) : ElementAccess.remove x name = x.remove name := rfl

theorem access_save (x : LocalElement) : ElementAccess.save x = x.save := rfl

theorem has_iff {x : LocalElement} {name : String} :
    x.has name = true ↔ keyOf name ∈ x.parameters.map (·.key) := x.capture.has_iff

variable {x : LocalElement} {r : Registry} {ps : List CarriedParameter}

theorem add_withParameters (h : x.Willing r) {name : String} {d : Definition} (hd : r.get? name = some d)
    (hnew : d.key ∉ ps.map (·.key)) :
    (x.withParameters ps).add d = ⟨x.withParameters (ps ++ [.ofDefinition d]), none⟩ := by
  have hrefused : (x.withParameters ps).refusals.names.any (Text.sameAscii · d.name) = false := h.adds hd
  have hhas : (x.withParameters ps).has d.name = false := Bool.eq_false_iff.mpr fun hhas => hnew (has_iff.mp hhas)
  simp only [add, hrefused, hhas, Bool.false_eq_true, ↓reduceIte]
  rfl

theorem remove_withParameters (h : x.Willing r) (hkeys : (ps.map (·.key)).Nodup) {name : String}
    (hname : keyOf name ∈ ps.map (·.key)) :
    (x.withParameters ps).remove name = ⟨x.withParameters (ps.filter (·.key != keyOf name)), none⟩ := by
  have hrefused : (x.withParameters ps).refusals.remove = false := h.removes
  have hhas : (x.withParameters ps).has name = true := has_iff.mpr hname
  simp only [remove, hrefused, hhas, Bool.false_eq_true, ↓reduceIte]
  rw [← eraseP_eq_filter CarriedParameter.key _ hkeys]
  rfl

theorem addAll_withParameters (h : x.Willing r) {names : List String} (hdefined : ∀ name ∈ names, r.Defines name)
    (hkeys : (ps.map (·.key) ++ names.map keyOf).Nodup) (used : List String) :
    ∃ ds : List Definition, ds.map (·.key) = names.map keyOf ∧
      ElementProgress.addAll r { element := x.withParameters ps, added := used } names =
        { element := x.withParameters (ps ++ ds.map .ofDefinition), added := used ++ ds.map (·.name) } := by
  induction names generalizing ps used with
  | nil => exact ⟨[], rfl, by simp [ElementProgress.addAll]⟩
  | cons name rest ih =>
      obtain ⟨d, hd, hkey⟩ := hdefined name List.mem_cons_self
      have hnew : d.key ∉ ps.map (·.key) := fun hmem =>
        List.disjoint_of_nodup_append hkeys hmem (hkey ▸ List.mem_cons_self)
      have hparameter : (CarriedParameter.ofDefinition d).key = keyOf name := hkey
      have hkeys' : ((ps ++ [CarriedParameter.ofDefinition d]).map (·.key) ++ rest.map keyOf).Nodup := by
        rw [List.map_append, List.append_assoc, List.map_singleton, hparameter]
        exact hkeys
      obtain ⟨ds, hds, hrest⟩ := ih (fun other hother => hdefined other (List.mem_cons_of_mem _ hother)) hkeys'
        (used ++ [d.name])
      refine ⟨d :: ds, by rw [List.map_cons, List.map_cons, hds, hkey], ?_⟩
      simp only [ElementProgress.addAll, hd, access_add, add_withParameters h hd hnew, hrest, List.append_assoc,
        List.singleton_append, List.map_cons]

theorem removeAll_withParameters (h : x.Willing r) (hkeys : (ps.map (·.key)).Nodup) {names : List String}
    (hnames : (names.map keyOf).Nodup) (hcarried : ∀ name ∈ names, keyOf name ∈ ps.map (·.key))
    (added : List String) (removed : Nat) :
    ElementProgress.removeAll { element := x.withParameters ps, added := added, removed := removed } names =
      { element := x.withParameters (ps.filter fun p => !(names.map keyOf).contains p.key)
        added := added
        removed := removed + names.length } := by
  induction names generalizing ps removed with
  | nil => simp [ElementProgress.removeAll]
  | cons name rest ih =>
      rw [List.map_cons, List.nodup_cons] at hnames
      have hremove := remove_withParameters h hkeys (hcarried name List.mem_cons_self)
      have hcarried' : ∀ other ∈ rest, keyOf other ∈ (ps.filter (·.key != keyOf name)).map (·.key) := by
        intro other hother
        obtain ⟨p, hp, hpkey⟩ := List.mem_map.mp (hcarried other (List.mem_cons_of_mem _ hother))
        refine List.mem_map.mpr ⟨p, List.mem_filter.mpr ⟨hp, ?_⟩, hpkey⟩
        rw [bne_iff_ne, hpkey]
        exact fun heq => hnames.1 (heq ▸ List.mem_map_of_mem hother)
      have hkeys' : ((ps.filter (·.key != keyOf name)).map (·.key)).Nodup :=
        hkeys.sublist (List.filter_sublist.map _)
      have hfilter : (ps.filter (·.key != keyOf name)).filter (fun p => !(rest.map keyOf).contains p.key) =
          ps.filter fun p => !((name :: rest).map keyOf).contains p.key := by
        rw [List.filter_filter]
        refine List.filter_congr fun p _ => ?_
        rw [List.map_cons, List.contains_cons, Bool.not_or, Bool.and_comm, bne]
      have hcount : removed + 1 + rest.length = removed + (name :: rest).length := by
        rw [List.length_cons]
        omega
      rw [← hfilter, ← hcount, ← ih hkeys' hnames.2 hcarried' (removed + 1)]
      simp only [ElementProgress.removeAll, access_remove, hremove]

end LocalElement

/-! ## Tasks that are carried out -/

/-- Whether an element carries all that is wanted and, if others are removed, nothing else that is not reserved. -/
structure Capture.Meets (c : Capture) (settings : Settings) (request : SyncRequest) (wanted : List String) : Prop where
  carries : ∀ name ∈ wanted, c.has name = true
  allowed : request.removesOthers = true →
    ∀ p ∈ c.parameters, p.key ∈ wanted.map keyOf ∨ settings.registry.reserves p.name = true

section Tasks

variable {settings : Settings} {request : SyncRequest} {wanted : List String}

namespace Capture

variable {c : Capture}

theorem elementId_task : (c.task settings request wanted).elementId = c.elementId := by
  simp only [task]
  split <;> rfl

theorem error_task (hid : Text.isBlankText c.elementId = false) : (c.task settings request wanted).error = none := by
  rw [task_of_id hid]

/-- An element that carries what it should has nothing to gain or lose. -/
theorem Meets.task_eq (h : c.Meets settings request wanted) (hid : Text.isBlankText c.elementId = false) :
    c.task settings request wanted = { elementId := c.elementId, category := c.category } := by
  have hadditions : wanted.filter (!c.has ·) = [] :=
    List.filter_eq_nil_iff.mpr fun name hname => by simp [h.carries name hname]
  have hremovals : (if request.removesOthers then c.unwanted settings wanted else []) = [] := by
    split
    · refine List.eq_nil_iff_forall_not_mem.mpr fun name hname => ?_
      obtain ⟨hcarried, hunwanted, hfree⟩ := mem_unwanted.mp hname
      obtain ⟨p, hp, rfl⟩ := List.mem_map.mp hcarried
      rcases h.allowed ‹_› p hp with hkey | hreserved
      · exact hunwanted hkey
      · exact absurd (hreserved.symm.trans hfree) Bool.noConfusion
    · rfl
  rw [task_of_id hid]
  simp only [hadditions, hremovals, List.length_nil, ite_self]

theorem nodup_keys_additions (hkeys : (c.parameters.map (·.key)).Nodup) (hwanted : (wanted.map keyOf).Nodup) :
    (c.parameters.map (·.key) ++ (wanted.filter (!c.has ·)).map keyOf).Nodup := by
  refine hkeys.append (hwanted.sublist (List.filter_sublist.map _)) fun key hcarried hadded => ?_
  obtain ⟨name, hname, rfl⟩ := List.mem_map.mp hadded
  have hnew := (List.mem_filter.mp hname).2
  rw [c.has_iff.mpr hcarried] at hnew
  exact absurd hnew Bool.noConfusion

theorem nodup_keys_unwanted (hkeys : (c.parameters.map (·.key)).Nodup) :
    ((c.unwanted settings wanted).map keyOf).Nodup := by
  have hnames : ((c.parameters.map (·.name)).map keyOf).Nodup := by
    rw [List.map_map]
    exact hkeys
  exact hnames.sublist (List.filter_sublist.map _)

/-- With the parameters of its additions and without those of its removals, an element carries what it should. -/
theorem meets_of_added {added : List CarriedParameter}
    (hadded : added.map (·.key) = (wanted.filter (!c.has ·)).map keyOf) :
    let removals := if request.removesOthers then c.unwanted settings wanted else []
    ({ c with parameters := (c.parameters ++ added).filter fun p => !(removals.map keyOf).contains p.key } :
      Capture).Meets settings request wanted := by
  intro removals
  have hremovals : ∀ name, name ∈ removals ↔ request.removesOthers = true ∧ name ∈ c.unwanted settings wanted := by
    intro name
    simp only [removals]
    split <;> simp [*]
  refine ⟨fun name hname => ?_, fun hothers p hp => ?_⟩
  · have hkey : keyOf name ∈ (c.parameters ++ added).map (·.key) := by
      rw [List.map_append, List.mem_append, hadded]
      cases hhas : c.has name with
      | true => exact .inl (c.has_iff.mp hhas)
      | false => exact .inr (List.mem_map_of_mem (List.mem_filter.mpr ⟨hname, by rw [hhas]; rfl⟩))
    obtain ⟨p, hp, hpkey⟩ := List.mem_map.mp hkey
    have hkept : p.key ∉ removals.map keyOf := by
      intro hremoved
      obtain ⟨other, hother, hsame⟩ := List.mem_map.mp hremoved
      have hunwanted := (mem_unwanted.mp ((hremovals other).mp hother).2).2.1
      rw [hsame, hpkey] at hunwanted
      exact hunwanted (List.mem_map_of_mem hname)
    exact (Capture.has_iff _).mpr (List.mem_map.mpr ⟨p, List.mem_filter.mpr ⟨hp, by simpa using hkept⟩, hpkey⟩)
  · obtain ⟨hp, hkept⟩ := List.mem_filter.mp hp
    rw [Bool.not_eq_true', List.contains_eq_mem, decide_eq_false_iff_not] at hkept
    refine or_iff_not_imp_left.mpr fun hunwanted => ?_
    rcases List.mem_append.mp hp with hp | hp
    · by_contra hfree
      have hname : p.name ∈ c.unwanted settings wanted :=
        mem_unwanted.mpr ⟨List.mem_map_of_mem hp, hunwanted, by simpa using hfree⟩
      exact hkept (List.mem_map_of_mem ((hremovals p.name).mpr ⟨hothers, hname⟩))
    · have hkey : p.key ∈ (wanted.filter (!c.has ·)).map keyOf := hadded ▸ List.mem_map_of_mem hp
      exact absurd ((List.filter_sublist.map _).subset hkey) hunwanted

end Capture

namespace LocalElement

/-- What becomes of an element in one round: it is saved once and has no two parameters of one key. -/
structure Settled (x y : LocalElement) : Prop where
  id : y.id = x.id
  category : y.category = x.category
  saves : y.saves = x.saves + 1
  keys : (y.parameters.map (·.key)).Nodup

variable {x : LocalElement} {r : Registry}

theorem save_withParameters (h : x.Willing r) (ps : List CarriedParameter) :
    (x.withParameters ps).save = ⟨{ x with parameters := ps, saves := x.saves + 1 }, none⟩ := by
  have hrefused : (x.withParameters ps).refusals.save = false := h.saves
  simp only [save, hrefused, Bool.false_eq_true, ↓reduceIte]
  rfl

/-- A task that adds new parameters and removes ones that are carried goes through. -/
theorem applyTo_eq (h : x.Willing r) {task : ElementTask}
    (hadditions : (x.parameters.map (·.key) ++ task.additions.map keyOf).Nodup)
    (hdefined : ∀ name ∈ task.additions, r.Defines name) (hremovals : (task.removals.map keyOf).Nodup)
    (hcarried : ∀ name ∈ task.removals, keyOf name ∈ x.parameters.map (·.key)) :
    ∃ ds : List Definition, ds.map (·.key) = task.additions.map keyOf ∧
      let ps := (x.parameters ++ ds.map CarriedParameter.ofDefinition).filter fun p =>
        !(task.removals.map keyOf).contains p.key
      task.applyTo r x =
        { element := { x with parameters := ps, saves := x.saves + 1 }
          added := ds.map (·.name)
          removed := task.removals.length } := by
  obtain ⟨ds, hds, hadded⟩ := addAll_withParameters h hdefined hadditions []
  have hkeys : ((x.parameters ++ ds.map CarriedParameter.ofDefinition).map (·.key)).Nodup := by
    rw [List.map_append, List.map_map]
    rw [← hds] at hadditions
    exact hadditions
  have hremoved := removeAll_withParameters h hkeys hremovals
    (fun name hname => by
      rw [List.map_append]
      exact List.mem_append_left _ (hcarried name hname)) (ds.map (·.name)) 0
  have hcontinues (ps) : ElementAccess.cancelsOnSave (x.withParameters ps) = false := h.continues
  have hstart : ({ element := x } : ElementProgress LocalElement) =
      { element := x.withParameters x.parameters, added := [] } := rfl
  refine ⟨ds, hds, ?_⟩
  simp only [ElementTask.applyTo, hstart, hadded, ElementProgress.andThen, Option.isSome_none, Bool.false_eq_true,
    ↓reduceIte, List.nil_append, hremoved, ElementProgress.save, access_save, save_withParameters h, hcontinues,
    Option.map_none, Nat.zero_add]

/-- A task can be carried out on an element that refuses nothing, and then the element carries what it should. -/
theorem settled_applyTo (h : x.Willing r) (hid : Text.isBlankText x.id = false)
    (hkeys : (x.parameters.map (·.key)).Nodup) (hwanted : (wanted.map keyOf).Nodup)
    (hdefined : ∀ name ∈ (x.capture.task settings request wanted).additions, r.Defines name) :
    let p := (x.capture.task settings request wanted).applyTo r x
    p.problem = none ∧ p.cancels = false ∧ x.Settled p.element ∧ p.element.capture.Meets settings request wanted := by
  rw [Capture.task_of_id (show Text.isBlankText x.capture.elementId = false from hid)] at hdefined ⊢
  have hadditions : (x.parameters.map (·.key) ++ (wanted.filter (!x.capture.has ·)).map keyOf).Nodup :=
    Capture.nodup_keys_additions (show (x.capture.parameters.map (·.key)).Nodup from hkeys) hwanted
  have hremovals : ((if request.removesOthers then x.capture.unwanted settings wanted else []).map keyOf).Nodup := by
    split
    · exact Capture.nodup_keys_unwanted (show (x.capture.parameters.map (·.key)).Nodup from hkeys)
    · exact List.nodup_nil
  have hcarried : ∀ name ∈ (if request.removesOthers then x.capture.unwanted settings wanted else []),
      keyOf name ∈ x.parameters.map (·.key) := by
    intro name hname
    split at hname
    · obtain ⟨p, hp, rfl⟩ := List.mem_map.mp (Capture.mem_unwanted.mp hname).1
      exact List.mem_map.mpr ⟨p, hp, rfl⟩
    · exact absurd hname List.not_mem_nil
  obtain ⟨ds, hds, happlied⟩ := applyTo_eq h hadditions hdefined hremovals hcarried
  have hadded : (ds.map CarriedParameter.ofDefinition).map (·.key) = (wanted.filter (!x.capture.has ·)).map keyOf := by
    rw [List.map_map]
    exact hds
  have hafter : ((x.parameters ++ ds.map CarriedParameter.ofDefinition).map (·.key)).Nodup := by
    rw [List.map_append, hadded]
    exact hadditions
  simp only [happlied]
  exact ⟨trivial, trivial, ⟨rfl, rfl, rfl, hafter.sublist (List.filter_sublist.map _)⟩, Capture.meets_of_added hadded⟩

end LocalElement

end Tasks

/-! ## Rounds -/

/-- Where no task meets with a problem, every element is what its task makes of it. -/
theorem SyncPlan.applyFrom_eq {ε : Type} [ElementAccess ε] {plan : SyncPlan} {r : Registry}
    (taskOf : ε → ElementTask) {elements : List ε}
    (h : ∀ x ∈ elements, plan.taskFor? (ElementAccess.id x) = some (taskOf x) ∧ (taskOf x).error = none ∧
      ((taskOf x).applyTo r x).problem = none ∧ ((taskOf x).applyTo r x).cancels = false) (done : Applied ε) :
    let after := plan.applyFrom r done false elements
    after.elements = done.elements ++ elements.map (fun x => ((taskOf x).applyTo r x).element) ∧
      after.report.errors = done.report.errors ∧
      after.report.updatedElements = done.report.updatedElements + elements.length := by
  induction elements generalizing done with
  | nil => exact ⟨(List.append_nil _).symm, rfl, rfl⟩
  | cons x rest ih =>
      obtain ⟨htask, herror, hproblem, hcancels⟩ := h x List.mem_cons_self
      have hfound : (plan.taskFor? (ElementAccess.id x)).filter (·.error.isNone) = some (taskOf x) := by
        rw [htask, Option.filter_some, herror]
        rfl
      obtain ⟨helements, herrors, hupdated⟩ := ih (fun y hy => h y (List.mem_cons_of_mem _ hy))
        { elements := done.elements ++ [((taskOf x).applyTo r x).element]
          report := done.report.note (ElementAccess.id x) ((taskOf x).applyTo r x)
          used := done.used ++ ((taskOf x).applyTo r x).added }
      simp only [applyFrom, Bool.false_eq_true, ↓reduceIte, hfound, hcancels]
      refine ⟨helements.trans ?_, herrors.trans ?_, hupdated.trans ?_⟩
      · rw [List.append_assoc, List.singleton_append, List.map_cons]
      · simp only [SyncReport.note, hproblem]
      · simp only [SyncReport.note, hproblem, List.length_cons]
        omega

/-- Among tasks for elements with different ids, the first one of an id is the one for the element. -/
theorem find?_task {elements : List LocalElement} (hids : (elements.map (·.id)).Nodup)
    {taskOf : LocalElement → ElementTask} (htask : ∀ x, (taskOf x).elementId = x.id) {x : LocalElement}
    (hx : x ∈ elements) : (elements.map taskOf).find? (·.elementId == x.id) = some (taskOf x) := by
  induction elements with
  | nil => exact absurd hx List.not_mem_nil
  | cons y rest ih =>
      rw [List.map_cons, List.nodup_cons] at hids
      rw [List.map_cons]
      rcases List.mem_cons.mp hx with rfl | hx
      · rw [List.find?_cons_of_pos (by simp [htask])]
      · have hother : y.id ≠ x.id := fun heq => hids.1 (heq ▸ List.mem_map_of_mem hx)
        rw [List.find?_cons_of_neg (by simpa [htask] using hother)]
        exact ih hids.2 hx

theorem Registry.status_planSync {r : Registry} {settings : Settings} {templates : Templates} {request : SyncRequest}
    (hpreview : request.preview = false)
    (hknown : ∀ id, request.template = some id → (templates.get? id).isSome = true) (captures : List Capture) :
    (r.planSync settings templates request captures false).status ≠ .preview := by
  rw [planSync_of_known hknown]
  simp only [syncPlans, SyncPlan.Status.ofPlans, hpreview, Bool.false_and, Bool.false_eq_true, ↓reduceIte]
  split <;> exact SyncPlan.Status.noConfusion

theorem Registry.wantedNames_of_spelling {r r' : Registry} (h : ∀ name, r'.spelling? name = r.spelling? name) :
    r'.wantedNames = r.wantedNames := by
  have hspelling : r'.spelling? = r.spelling? := funext h
  funext settings request template category
  cases template <;> simp only [Registry.wantedNames, Template.namesFor, hspelling]

namespace Engine

theorem templates_commit (e : Engine) (s : State) : (e.commit s).2.templates = e.templates := by
  simp only [commit, saveOrWarn, save, Store.write]
  cases e.store.fault <;> rfl

section

variable {ε : Type} [ElementAccess ε] (e : Engine) (plan : SyncPlan) (elements : List ε) (cancelled : Bool)

theorem report_carryOut : let applied := plan.applyTo e.state.registry cancelled elements
    (∃ warnings, (e.carryOut plan elements cancelled).1 = { applied.report with warnings := warnings }) ∧
      (e.carryOut plan elements cancelled).2.1 = applied.elements := by
  simp only [carryOut]
  split
  · exact ⟨⟨_, rfl⟩, rfl⟩
  · exact ⟨⟨_, rfl⟩, rfl⟩

theorem spelling_carryOut : let e' := (e.carryOut plan elements cancelled).2.2
    e'.settings = e.settings ∧ e'.templates = e.templates ∧
      ∀ name, e'.state.registry.spelling? name = e.state.registry.spelling? name := by
  simp only [carryOut]
  split
  · exact ⟨rfl, rfl, fun _ => rfl⟩
  · have hmoved := moved_commit e (e.state.countUses (plan.applyTo e.state.registry cancelled elements).used)
    refine ⟨hmoved.settings, templates_commit _ _, fun name => ?_⟩
    have hlabel := congrArg (Option.map Prod.fst)
      (State.label_countUses (s := e.state) (plan.applyTo e.state.registry cancelled elements).used name)
    rw [Option.map_map, Option.map_map] at hlabel
    rw [hmoved.state]
    exact hlabel

end

/-- One round settles elements with ids that refuse nothing and carry no two parameters of one key, if all that
they should gain is registered: every one of them is saved once, and the next plan asks nothing of them. -/
theorem settled_carryOut (e : Engine) (request : SyncRequest) (elements : List LocalElement)
    (hpreview : request.preview = false)
    (hknown : ∀ id, request.template = some id → (e.templates.get? id).isSome = true)
    (hids : (elements.map (·.id)).Nodup) (hblank : ∀ x ∈ elements, Text.isBlankText x.id = false)
    (hkeys : ∀ x ∈ elements, (x.parameters.map (·.key)).Nodup)
    (hwilling : ∀ x ∈ elements, x.Willing e.state.registry)
    (hdefined : ∀ task ∈ (e.planSync request (elements.map (·.capture)) false).tasks,
      ∀ name ∈ task.additions, e.state.registry.Defines name) :
    let round := e.carryOut (e.planSync request (elements.map (·.capture)) false) elements false
    round.1.errors = [] ∧ round.1.updatedElements = elements.length ∧
      List.Forall₂ LocalElement.Settled elements round.2.1 ∧
      (round.2.2.planSync request (round.2.1.map (·.capture)) false).tasks =
        round.2.1.map fun y => { elementId := y.id, category := y.category } := by
  set plan := e.planSync request (elements.map (·.capture)) false with hplan
  let wantedOf (captures : List Capture) (category : String) := e.state.registry.wantedNames e.settings request
    (request.template.bind e.templates.get?) (leadingCategory captures category)
  let taskOf (x : LocalElement) := x.capture.task e.settings request (wantedOf (elements.map (·.capture)) x.category)
  let settledOf (x : LocalElement) := ((taskOf x).applyTo e.state.registry x).element
  have hplanned : plan.tasks = elements.map taskOf := by
    rw [hplan, planSync, Registry.tasks_planSync hknown, List.map_map]
    rfl
  have hstatus : plan.status ≠ .preview := Registry.status_planSync hpreview hknown _
  have happlied : ∀ x ∈ elements, ((taskOf x).applyTo e.state.registry x).problem = none ∧
      ((taskOf x).applyTo e.state.registry x).cancels = false ∧ x.Settled (settledOf x) ∧
      (settledOf x).capture.Meets e.settings request (wantedOf (elements.map (·.capture)) x.category) :=
    fun x hx => LocalElement.settled_applyTo (hwilling x hx) (hblank x hx) (hkeys x hx) (nodup_keys_distinctNames _)
      (hdefined (taskOf x) (hplanned ▸ List.mem_map_of_mem hx))
  have hsmooth : ∀ x ∈ elements, plan.taskFor? (ElementAccess.id x) = some (taskOf x) ∧ (taskOf x).error = none ∧
      ((taskOf x).applyTo e.state.registry x).problem = none ∧
      ((taskOf x).applyTo e.state.registry x).cancels = false := by
    intro x hx
    obtain ⟨hproblem, hcancels, -⟩ := happlied x hx
    refine ⟨?_, Capture.error_task (hblank x hx), hproblem, hcancels⟩
    rw [SyncPlan.taskFor?, hplanned]
    exact find?_task hids (fun _ => Capture.elementId_task) hx
  obtain ⟨helements, herrors, hupdated⟩ := SyncPlan.applyFrom_eq taskOf hsmooth {}
  obtain ⟨⟨warnings, hreport⟩, hsettled⟩ := report_carryOut e plan elements false
  obtain ⟨hsettings, htemplates, hspelling⟩ := spelling_carryOut e plan elements false
  rw [SyncPlan.applyTo, if_neg hstatus] at hreport hsettled
  rw [helements, List.nil_append] at hsettled
  generalize e.carryOut plan elements false = round at *
  obtain ⟨report, settled, e'⟩ := round
  simp only at hreport hsettled hsettings htemplates hspelling ⊢
  subst hreport hsettled
  refine ⟨herrors, hupdated.trans (Nat.zero_add _), ?_, ?_⟩
  · rw [List.forall₂_map_right_iff, List.forall₂_same]
    exact fun x hx => (happlied x hx).2.2.1
  · have hcategories : ((elements.map settledOf).map (·.capture)).map (·.category) =
        (elements.map (·.capture)).map (·.category) := by
      rw [List.map_map, List.map_map, List.map_map]
      exact List.map_congr_left fun x hx => (happlied x hx).2.2.1.category
    rw [planSync, hsettings, htemplates, Registry.tasks_planSync hknown, Registry.wantedNames_of_spelling hspelling]
    refine List.map_map.trans (List.map_congr_left fun y hy => ?_)
    obtain ⟨x, hx, rfl⟩ := List.mem_map.mp hy
    obtain ⟨-, -, hsettled, hmeets⟩ := happlied x hx
    have hblank' : Text.isBlankText (settledOf x).capture.elementId = false :=
      (congrArg Text.isBlankText hsettled.id).trans (hblank x hx)
    have hleading : leadingCategory ((elements.map settledOf).map (·.capture)) (settledOf x).category =
        leadingCategory (elements.map (·.capture)) x.category := by
      rw [leadingCategory_eq, leadingCategory_eq, hcategories, hsettled.category]
    refine Eq.trans ?_ (hmeets.task_eq hblank')
    simp only [Function.comp_apply, wantedOf, ← hleading]
    rfl

/-- An engine with two definitions, one of them for doors and one of a template. -/
def doorEngine : Engine where
  settings := Registry.doorSettings
  templates := Registry.noteTemplates
  state := {
    registry := .ofList [
      { identity := ⟨1⟩, name := "Width", kind := .length, group := "Sizes", createdAt := ⟨0, 0⟩ },
      { identity := ⟨2⟩, name := "Note", kind := .text, group := "Texts", createdAt := ⟨0, 0⟩ }]
    history := .start ⟨0, 0⟩ }
  supply := .ofSeed 0

/-- Two doors: one carries a parameter that is not wanted, the other one a reserved one and one in capitals. -/
def doors : List LocalElement :=
  [{ id := "door-1", category := "Türen", parameters := [{ name := "colour", kind := .text }] },
    { id := "door-2", category := "türen"
      parameters := [{ name := "Family", kind := .text }, { name := "WIDTH", kind := .length }] }]

theorem settled_carryOut_doors :
    let request : SyncRequest := { template := some "n", removesOthers := true }
    (doorEngine.planSync request (doors.map (·.capture)) false).tasks.map (fun t => (t.additions, t.removals)) =
        [(["Width", "Note"], ["colour"]), (["Note"], [])] ∧
      let round := doorEngine.carryOut (doorEngine.planSync request (doors.map (·.capture)) false) doors false
      round.1.errors = [] ∧ round.1.updatedElements = doors.length ∧
        List.Forall₂ LocalElement.Settled doors round.2.1 ∧
        (round.2.2.planSync request (round.2.1.map (·.capture)) false).tasks =
          round.2.1.map fun y => { elementId := y.id, category := y.category } := by
  intro request
  have hknown : ∀ id, request.template = some id → (doorEngine.templates.get? id).isSome = true := by
    rintro id ⟨⟩
    decide +kernel
  have hwilling : ∀ x ∈ doors, x.Willing doorEngine.state.registry := by
    have hrefusals : ∀ x ∈ doors, x.refusals = {} ∧ x.cancelsOnSave = false := by decide +kernel
    intro x hx
    obtain ⟨hrefusals, hcancels⟩ := hrefusals x hx
    exact ⟨fun _ _ _ => by rw [hrefusals]; rfl, by rw [hrefusals], by rw [hrefusals], hcancels⟩
  have hdefined : ∀ task ∈ (doorEngine.planSync request (doors.map (·.capture)) false).tasks,
      ∀ name ∈ task.additions, doorEngine.state.registry.Defines name := by
    have hkeyed : doorEngine.state.registry.Keyed := Registry.Keyed.ofList _
    have hregistered : ∀ task ∈ (doorEngine.planSync request (doors.map (·.capture)) false).tasks,
        ∀ name ∈ task.additions, doorEngine.state.registry.contains name = true := by decide +kernel
    exact fun task htask name hname => hkeyed.defines_iff.mpr (hregistered task htask name hname)
  exact ⟨by decide +kernel, settled_carryOut doorEngine request doors rfl hknown (by decide) (by decide +kernel)
    (by decide +kernel) hwilling hdefined⟩

/-- An engine with two definitions that stand under the keys of other names. -/
def displacedEngine : Engine := { doorEngine with
  state := { doorEngine.state with
    registry := ⟨.ofList [
      ("width", { identity := ⟨1⟩, name := "Height", kind := .length, group := "Sizes", createdAt := ⟨0, 0⟩ }),
      ("height", { identity := ⟨2⟩, name := "Depth", kind := .length, group := "Sizes", createdAt := ⟨0, 0⟩ })]⟩ } }

/-- An unknown template leaves the elements as they are: nothing is planned, and nothing is saved. And where
definitions stand under the keys of other names, elements get others than they should, and the next plan asks for
the same again. -/
theorem not_settled_doors :
    let unknown := doorEngine.planSync { template := some "nope" } (doors.map (·.capture)) false
    let displaced := displacedEngine.planSync {} (doors.map (·.capture)) false
    let round := displacedEngine.carryOut displaced doors false
    ((doors.map (·.id)).Nodup ∧ (∀ x ∈ doors, Text.isBlankText x.id = false) ∧
      (∀ x ∈ doors, (x.parameters.map (·.key)).Nodup) ∧ ∀ x ∈ doors, x.refusals = {} ∧ x.cancelsOnSave = false) ∧
    ((∀ task ∈ unknown.tasks, ∀ name ∈ task.additions, doorEngine.state.registry.contains name = true) ∧
      (doorEngine.carryOut unknown doors false).2.1.map (·.saves) = [0, 0]) ∧
    (∀ task ∈ displaced.tasks, ∀ name ∈ task.additions, displacedEngine.state.registry.contains name = true) ∧
      (round.2.2.planSync {} (round.2.1.map (·.capture)) false).tasks.map (·.additions) = [["Height"], ["Height"]] := by
  decide +kernel

end Engine

end Parametric
