import Parametric.Proofs.Synchronization.Convergence

/-!
# Accounts of synchronization

Elements that record the calls on them answer like the elements themselves. The records show what the report on a plan
that was carried out, and the uses that were counted, have to do with the calls.
-/

namespace Parametric

variable {δ ε : Type}

/-! ## Elements that answer alike -/

def Reply.map (f : δ → ε) (r : Reply δ) : Reply ε := ⟨f r.element, r.problem⟩

def ElementProgress.map (f : δ → ε) (p : ElementProgress δ) : ElementProgress ε :=
  ⟨f p.element, p.added, p.removed, p.problem, p.cancels⟩

/-- The same about other elements. -/
def Applied.map (f : δ → ε) (a : Applied δ) : Applied ε := ⟨a.elements.map f, a.report, a.used⟩

theorem ElementProgress.andThen_map {f : δ → ε} {next : ElementProgress δ → ElementProgress δ}
    {next' : ElementProgress ε → ElementProgress ε}
    (hnext : ∀ p, next' (p.map f) = (next p).map f) (p : ElementProgress δ) :
    (p.map f).andThen next' = (p.andThen next).map f := by
  have hproblem : (p.map f).problem = p.problem := rfl
  simp only [ElementProgress.andThen, hproblem, hnext]
  split <;> rfl

variable [ElementAccess δ] [ElementAccess ε]

/-- Elements answer the calls of a plan like what is made of them. -/
structure AnswersAlike (f : δ → ε) : Prop where
  id (x : δ) : ElementAccess.id (f x) = ElementAccess.id x
  add (x : δ) (d : Definition) : ElementAccess.add (f x) d = (ElementAccess.add x d).map f
  remove (x : δ) (name : String) : ElementAccess.remove (f x) name = (ElementAccess.remove x name).map f
  save (x : δ) : ElementAccess.save (f x) = (ElementAccess.save x).map f
  cancelsOnSave (x : δ) : ElementAccess.cancelsOnSave (f x) = ElementAccess.cancelsOnSave x

namespace AnswersAlike

variable {f : δ → ε} {r : Registry}

theorem addAll (h : AnswersAlike f) (names : List String) (p : ElementProgress δ) :
    (p.map f).addAll r names = (p.addAll r names).map f := by
  induction names generalizing p with
  | nil => rfl
  | cons name rest ih =>
      simp only [ElementProgress.addAll]
      cases r.get? name with
      | none => rfl
      | some d =>
          have hadd : ElementAccess.add (p.map f).element d = (ElementAccess.add p.element d).map f :=
            h.add p.element d
          simp only [hadd, Reply.map]
          cases (ElementAccess.add p.element d).problem with
          | some message => rfl
          | none =>
              exact ih { p with element := (ElementAccess.add p.element d).element, added := p.added ++ [d.name] }

theorem removeAll (h : AnswersAlike f) (names : List String) (p : ElementProgress δ) :
    (p.map f).removeAll names = (p.removeAll names).map f := by
  induction names generalizing p with
  | nil => rfl
  | cons name rest ih =>
      have hremove : ElementAccess.remove (p.map f).element name = (ElementAccess.remove p.element name).map f :=
        h.remove p.element name
      simp only [ElementProgress.removeAll, hremove, Reply.map]
      cases (ElementAccess.remove p.element name).problem with
      | some message => rfl
      | none =>
          exact ih { p with element := (ElementAccess.remove p.element name).element, removed := p.removed + 1 }

theorem applyTo (h : AnswersAlike f) (task : ElementTask) (x : δ) :
    task.applyTo r (f x) = (task.applyTo r x).map f := by
  have hsave (p : ElementProgress δ) : (p.map f).save = p.save.map f := by
    simp only [ElementProgress.save, ElementProgress.map, h.save, h.cancelsOnSave]
    rfl
  have hstart : ({ element := f x } : ElementProgress ε) = ({ element := x } : ElementProgress δ).map f := rfl
  simp only [ElementTask.applyTo, hstart, h.addAll]
  rw [ElementProgress.andThen_map (h.removeAll task.removals), ElementProgress.andThen_map hsave]

theorem applyFrom (h : AnswersAlike f) (plan : SyncPlan) (done : Applied δ) (cancelled : Bool) (elements : List δ) :
    plan.applyFrom r (done.map f) cancelled (elements.map f) = (plan.applyFrom r done cancelled elements).map f := by
  induction elements generalizing done cancelled with
  | nil => rfl
  | cons x rest ih =>
      simp only [List.map_cons, SyncPlan.applyFrom, h.id]
      split
      · simp [Applied.map]
      · cases (plan.taskFor? (ElementAccess.id x)).filter (·.error.isNone) with
        | none =>
            rw [← ih]
            simp [Applied.map]
        | some task =>
            simp only [h.applyTo]
            refine Eq.trans ?_ (ih _ _)
            simp [Applied.map, ElementProgress.map, SyncReport.note]

/-- A plan has the same report and the same uses on elements that answer alike. -/
theorem carryOut (h : AnswersAlike f) (e : Engine) (plan : SyncPlan) (elements : List δ) (cancelled : Bool) :
    let round := e.carryOut plan elements cancelled
    e.carryOut plan (elements.map f) cancelled = (round.1, round.2.1.map f, round.2.2) := by
  have happlied : plan.applyTo e.state.registry cancelled (elements.map f) =
      (plan.applyTo e.state.registry cancelled elements).map f := by
    simp only [SyncPlan.applyTo]
    split
    · rfl
    · exact h.applyFrom plan {} cancelled elements
  simp only [Engine.carryOut, happlied, Applied.map]
  split <;> rfl

end AnswersAlike

/-! ## Records of calls -/

/-- The record of a call that changes an element, with whether the element accepted it. -/
inductive CallRecord where
  | add (d : Definition) (accepted : Bool)
  | update (name : String) (d : Definition) (accepted : Bool)
  | remove (name : String) (accepted : Bool)
  /-- A call that may cancel the operation. -/
  | save (accepted cancels : Bool)
deriving DecidableEq, Repr

namespace CallRecord

def added? : CallRecord → Option Definition
  | .add d true => some d
  | _ => none

def removed? : CallRecord → Option String
  | .remove name true => some name
  | _ => none

def isSave : CallRecord → Bool
  | .save _ _ => true
  | _ => false

def cancels : CallRecord → Bool
  | .save _ cancels => cancels
  | _ => false

theorem cancels_of_not_isSave {call : CallRecord} (h : call.isSave = false) : call.cancels = false := by
  cases call with
  | save => cases h
  | _ => rfl

theorem registered_of_added?_eq_none {call : CallRecord} (h : call.added? = none) {r : Registry} :
    ∀ d ∈ call.added?, ∃ name, r.get? name = some d := by
  rw [h]
  exact fun _ hnone => absurd hnone (Option.not_mem_none _)

/-- The definitions that were added, once for each call that added them. -/
def additions (calls : List CallRecord) : List Definition := calls.filterMap added?

def removals (calls : List CallRecord) : List String := calls.filterMap removed?

@[simp] theorem additions_append (calls more : List CallRecord) :
    additions (calls ++ more) = additions calls ++ additions more := List.filterMap_append

@[simp] theorem removals_append (calls more : List CallRecord) :
    removals (calls ++ more) = removals calls ++ removals more := List.filterMap_append

@[simp] theorem additions_singleton (call : CallRecord) : additions [call] = call.added?.toList := by
  cases hcall : call.added? <;> simp [additions, hcall]

@[simp] theorem removals_singleton (call : CallRecord) : removals [call] = call.removed?.toList := by
  cases hcall : call.removed? <;> simp [removals, hcall]

end CallRecord

/-- An element with the calls that were made on it. -/
structure Recorded (ε : Type) where
  /-- The element before all calls. -/
  start : ε
  element : ε
  calls : List CallRecord := []

namespace Recorded

def of (x : ε) : Recorded ε := ⟨x, x, []⟩

def answer (x : Recorded ε) (reply : Reply ε) (call : Bool → CallRecord) : Reply (Recorded ε) :=
  ⟨⟨x.start, reply.element, x.calls ++ [call reply.problem.isNone]⟩, reply.problem⟩

instance : ElementAccess (Recorded ε) where
  id x := ElementAccess.id x.element
  category x := ElementAccess.category x.element
  list x := ElementAccess.list x.element
  add x d := x.answer (ElementAccess.add x.element d) (.add d)
  update x name d := x.answer (ElementAccess.update x.element name d) (.update name d)
  remove x name := x.answer (ElementAccess.remove x.element name) (.remove name)
  save x := x.answer (ElementAccess.save x.element) (.save · (ElementAccess.cancelsOnSave x.element))
  cancelsOnSave x := ElementAccess.cancelsOnSave x.element

theorem access_add (x : Recorded ε) (d : Definition) :
    ElementAccess.add x d = x.answer (ElementAccess.add x.element d) (.add d) := rfl

theorem access_remove (x : Recorded ε) (name : String) :
    ElementAccess.remove x name = x.answer (ElementAccess.remove x.element name) (.remove name) := rfl

theorem access_save (x : Recorded ε) : ElementAccess.save x =
    x.answer (ElementAccess.save x.element) (.save · (ElementAccess.cancelsOnSave x.element)) := rfl

end Recorded

/-! ## Records of tasks -/

open CallRecord

/-- The progress on an element that was given tells of its record. -/
structure Recorded.Tallied (r : Registry) (x : ε) (p : ElementProgress (Recorded ε)) : Prop where
  start : p.element.start = x
  added : p.added = (additions p.element.calls).map (·.name)
  removed : p.removed = (removals p.element.calls).length
  registered : ∀ d ∈ additions p.element.calls, ∃ name, r.get? name = some d

/-- The element was not saved so far. -/
structure Recorded.Unsaved (r : Registry) (x : ε) (p : ElementProgress (Recorded ε)) : Prop extends
    Recorded.Tallied r x p where
  unsaved : ∀ call ∈ p.element.calls, call.isSave = false
  continues : p.cancels = false

variable {r : Registry} {x : ε} {p q : ElementProgress (Recorded ε)}

omit [ElementAccess ε] in
theorem Recorded.Tallied.next (h : Recorded.Tallied r x p) {y : ε} (call : CallRecord)
    (hregistered : ∀ d ∈ call.added?, ∃ name, r.get? name = some d)
    (helement : q.element = ⟨p.element.start, y, p.element.calls ++ [call]⟩)
    (hadded : q.added = p.added ++ call.added?.toList.map (·.name))
    (hremoved : q.removed = p.removed + call.removed?.toList.length) : Recorded.Tallied r x q := by
  have hadditions : additions q.element.calls = additions p.element.calls ++ call.added?.toList := by
    rw [helement, additions_append, additions_singleton]
  have hremovals : removals q.element.calls = removals p.element.calls ++ call.removed?.toList := by
    rw [helement, removals_append, removals_singleton]
  refine ⟨?_, ?_, ?_, ?_⟩
  · rw [helement]
    exact h.start
  · rw [hadded, hadditions, h.added, List.map_append]
  · rw [hremoved, hremovals, h.removed, List.length_append]
  · rw [hadditions]
    exact List.forall_mem_append.mpr ⟨h.registered, fun d hd => hregistered d (Option.mem_toList.mp hd)⟩

omit [ElementAccess ε] in
theorem Recorded.Unsaved.next (h : Recorded.Unsaved r x p) {y : ε} (call : CallRecord) (hsave : call.isSave = false)
    (hregistered : ∀ d ∈ call.added?, ∃ name, r.get? name = some d)
    (helement : q.element = ⟨p.element.start, y, p.element.calls ++ [call]⟩)
    (hadded : q.added = p.added ++ call.added?.toList.map (·.name))
    (hremoved : q.removed = p.removed + call.removed?.toList.length) (hcancels : q.cancels = p.cancels) :
    Recorded.Unsaved r x q where
  toTallied := h.toTallied.next call hregistered helement hadded hremoved
  unsaved := by
    rw [helement]
    exact List.forall_mem_append.mpr ⟨h.unsaved, List.forall_mem_singleton.mpr hsave⟩
  continues := hcancels.trans h.continues

namespace ElementProgress

end ElementProgress

/-- The calls that carry out a task: all its parameters were added and removed before the element was saved. -/
def ElementTask.CompletedBy (task : ElementTask) (r : Registry) (calls : List CallRecord) : Prop :=
  ∃ ds accepted cancels, List.Forall₂ (fun name d => r.get? name = some d) task.additions ds ∧
    calls = ds.map (.add · true) ++ task.removals.map (.remove · true) ++ [.save accepted cancels]

/-- The record of an element on which a task was carried out. -/
structure Recorded.Done (r : Registry) (task : ElementTask) (x : ε) (p : ElementProgress (Recorded ε)) : Prop extends
    Recorded.Tallied r x p where
  cancels : p.cancels = p.element.calls.any (·.cancels)
  saved : p.element.calls.any (·.isSave) = true → task.CompletedBy r p.element.calls

omit [ElementAccess ε] in
theorem Recorded.Unsaved.done (h : Recorded.Unsaved r x p) (task : ElementTask) : Recorded.Done r task x p where
  toTallied := h.toTallied
  cancels := by
    rw [h.continues, eq_comm, List.any_eq_false]
    intro call hcall
    simp [cancels_of_not_isSave (h.unsaved call hcall)]
  saved hsaved := by
    obtain ⟨call, hcall, hsave⟩ := List.any_eq_true.mp hsaved
    rw [h.unsaved call hcall] at hsave
    cases hsave

theorem Recorded.Unsaved.save (h : Recorded.Unsaved r x p) {task : ElementTask} {ds : List Definition}
    (hds : List.Forall₂ (fun name d => r.get? name = some d) task.additions ds)
    (hcalls : p.element.calls = ds.map (.add · true) ++ task.removals.map (.remove · true)) :
    Recorded.Done r task x p.save where
  toTallied :=
    h.toTallied.next (.save (ElementAccess.save p.element.element).problem.isNone
      (ElementAccess.cancelsOnSave p.element.element)) (registered_of_added?_eq_none rfl) rfl
      (List.append_nil _).symm rfl
  cancels := by
    have hbefore : p.element.calls.any (·.cancels) = false := (h.done task).cancels.symm.trans h.continues
    simp only [ElementProgress.save, Recorded.access_save, Recorded.answer, List.any_append, hbefore]
    simp [CallRecord.cancels, ElementAccess.cancelsOnSave]
  saved _ := ⟨ds, _, _, hds, congrArg (· ++ _) hcalls⟩

section Note

variable (report : SyncReport) (id : String) (p : ElementProgress δ)

end Note

/-- The elements that are reached before a call cancels the operation. -/
def Recorded.reached (cancelled : Bool) : List (Recorded ε) → List (Recorded ε)
  | [] => []
  | x :: rest => if cancelled then [] else x :: reached (x.calls.any (·.cancels)) rest

/-- Whether the first task for an element carries no error. -/
def SyncPlan.serves (plan : SyncPlan) (x : ε) : Bool :=
  (plan.taskFor? (ElementAccess.id x)).any (·.error.isNone)

/-- What the records of elements say about a plan that was carried out on them. -/
structure SyncPlan.Recounts (plan : SyncPlan) (r : Registry) (cancelled : Bool) (xs : List (Recorded ε))
    (before after : Applied (Recorded ε)) : Prop where
  elements : after.elements = before.elements ++ xs
  added : after.report.added = before.report.added + (additions (xs.flatMap (·.calls))).length
  removed : after.report.removed = before.report.removed + (removals (xs.flatMap (·.calls))).length
  reached : after.report.updatedElements + after.report.failed =
    before.report.updatedElements + before.report.failed +
      (Recorded.reached cancelled xs).countP (plan.serves ·.start)
  used : after.used = before.used ++ (additions (xs.flatMap (·.calls))).map (·.name)
  registered : ∀ d ∈ additions (xs.flatMap (·.calls)), ∃ name, r.get? name = some d
  saved : ∀ x ∈ xs, x.calls.any (·.isSave) = true → ∃ task, plan.taskFor? (ElementAccess.id x.start) = some task ∧
    task.error = none ∧ task.CompletedBy r x.calls

/-- The records of the first element and of the other ones, which may be out of reach after it. -/
theorem SyncPlan.Recounts.trans {plan : SyncPlan} {y : Recorded ε} {ys : List (Recorded ε)}
    {done mid after : Applied (Recorded ε)} (h : plan.Recounts r false [y] done mid)
    (h' : plan.Recounts r (y.calls.any (·.cancels)) ys mid after) : plan.Recounts r false (y :: ys) done after where
  elements := by rw [h'.elements, h.elements, List.append_assoc, List.singleton_append]
  added := by
    rw [h'.added, h.added]
    simp [Nat.add_assoc]
  removed := by
    rw [h'.removed, h.removed]
    simp [Nat.add_assoc]
  reached := by
    rw [h'.reached, h.reached]
    simp [Recorded.reached, List.countP_cons]
    omega
  used := by
    rw [h'.used, h.used]
    simp
  registered := by
    have hfirst := h.registered
    simp only [List.flatMap_singleton] at hfirst
    rw [List.flatMap_cons, additions_append]
    exact List.forall_mem_append.mpr ⟨hfirst, h'.registered⟩
  saved := List.forall_mem_cons.mpr ⟨h.saved y List.mem_cons_self, h'.saved⟩

namespace Engine

/-- What the records of elements say about a plan that was carried out on them. -/
structure Accounted (plan : SyncPlan) (cancelled : Bool) (before after : State) (report : SyncReport)
    (xs : List (Recorded ε)) : Prop where
  added : report.added = (additions (xs.flatMap (·.calls))).length
  removed : report.removed = (removals (xs.flatMap (·.calls))).length
  /-- The elements that were reached are counted if their first task carries no error. -/
  reached : report.updatedElements + report.failed = (Recorded.reached cancelled xs).countP (plan.serves ·.start)
  /-- The definition under a key gains one use for each call that added a definition with a name of that key. -/
  uses (key : String) : after.registry.table.get? key = (before.registry.table.get? key).map fun d =>
    { d with uses := d.uses + (additions (xs.flatMap (·.calls))).countP (·.key == key) }
  /-- Where definitions stand under the keys of their names, they gain one use for each call that added them. -/
  usesOf : before.registry.Keyed → ∀ key d, before.registry.table.get? key = some d →
    after.registry.table.get? key = some { d with uses := d.uses + (additions (xs.flatMap (·.calls))).count d }
  unchanged : { after with registry := before.registry } = before
  /-- An element is saved only after all parameters of its task were added and removed. -/
  saved : ∀ x ∈ xs, x.calls.any (·.isSave) = true → ∃ task,
    plan.taskFor? (ElementAccess.id x.start) = some task ∧ task.error = none ∧
      task.CompletedBy before.registry x.calls

end Engine

end Parametric
