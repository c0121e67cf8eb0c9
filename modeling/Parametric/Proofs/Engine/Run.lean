import Parametric.Engine.Operations

/-!
# Runs of engines

A run is a sequence of operations, each at a point in time of its own. What the operations do to
the state is said once for each of them; a property that every operation keeps holds along runs.
-/

namespace Parametric

/-- What can be asked of an engine that may change it, on elements of a type. -/
inductive Operation (ε : Type) where
  | create (batch : Batch) (cancelled : Bool)
  | importDefinitions (definitions : List Definition) (cancelled : Bool)
  | importText (format : FileFormat) (text : String) (cancelled : Bool)
  | addTemplate (template : Template)
  | addTemplateFiles (files : List (String × String))
  | instantiate (id category : String) (options : TemplateUse) (cancelled : Bool)
  | compile (options : CompileOptions) (result source : String)
  | compileText (options : CompileOptions) (text : String)
  | compileCases (options : CompileOptions) (result : String) (branches : List Formula.CaseArm)
      (otherwise : String)
  | compileTable (options : CompileOptions) (result key : String) (table : List (String × String))
      (otherwise : String)
  | translate (options : CompileOptions) (sentence : String)
  | dropFormula (name : String)
  | delete (name : String) (force : Bool)
  | settle (survey : ConflictSurvey) (policy : ResolutionPolicy) (elements : List ε)
  | addSnapshot (description : Option String)
  | rollback (id : SnapshotNumber)
  | planSync (options : SyncRequest) (captures : List Capture) (cancelled : Bool)
  | carryOut (plan : SyncPlan) (elements : List ε) (cancelled : Bool)
  /-- From now on the store refuses everything, or nothing. -/
  | breakStore (fault : Option String)
  | reload (settings : Settings)

namespace Engine

def fresh (settings : Settings) (now : Instant) (supply : TokenSupply) : Engine :=
  .onStore settings now supply {}

variable {ε : Type} [ElementAccess ε]

def after (e : Engine) (now : Instant) : Operation ε → Engine
  | .create batch cancelled => (e.create now batch cancelled).2
  | .importDefinitions definitions cancelled => (e.importDefinitions now definitions cancelled).2
  | .importText format text cancelled =>
    match e.importText now format text cancelled with
    | .ok (_, _, e) => e
    | .error _ => e
  | .addTemplate template => e.addTemplate template
  | .addTemplateFiles files => (e.addTemplateFiles files).2
  | .instantiate id category options cancelled =>
    match e.instantiate now id category options cancelled with
    | .ok (_, e) => e
    | .error _ => e
  | .compile options result source => (e.compile now options result source).2
  | .compileText options text => (e.compileText now options text).2
  | .compileCases options result branches otherwise =>
    (e.compileCases now options result branches otherwise).2
  | .compileTable options result key table otherwise =>
    (e.compileTable now options result key table otherwise).2
  | .translate options sentence =>
    match e.translate now options sentence with
    | .ok (_, _, e) => e
    | .error _ => e
  | .dropFormula name => (e.dropFormula now name).2
  | .delete name force => (e.delete now name force).2
  | .settle survey policy elements => (e.settle now survey policy elements).2.2
  | .addSnapshot description => (e.addSnapshot now description).2
  | .rollback id => (e.rollback now id).2
  | .planSync _ _ _ => e
  | .carryOut plan elements cancelled => (e.carryOut plan elements cancelled).2.2
  | .breakStore fault => { e with store := { e.store with fault := fault } }
  | .reload settings => e.reload settings now

def run (e : Engine) (steps : List (Instant × Operation ε)) : Engine :=
  steps.foldl (fun e step => e.after step.1 step.2) e

end Engine

/-! ## What operations do to the state -/

/-- What an operation does to the state, apart from everything else in an engine. -/
inductive Action (ε : Type) where
  | nothing
  | create (supply : TokenSupply) (batch : Batch) (cancelled : Bool)
  | compile (options : CompileOptions) (result source : String)
  | dropFormula (name : String)
  | delete (name : String) (force : Bool)
  | resolve (supply : TokenSupply) (survey : ConflictSurvey) (policy : ResolutionPolicy)
      (elements : List ε)
  | addSnapshot (description : String)
  | rollback (id : SnapshotNumber)
  | countUses (names : List String)

section Actions

variable {ε : Type}

def State.perform [ElementAccess ε] (s : State) (settings : Settings) (now : Instant) :
    Action ε → State
  | .nothing => s
  | .create supply batch cancelled => (s.create settings now supply batch cancelled).2.1
  | .compile options result source => (s.compile settings now options result source).2
  | .dropFormula name => (s.dropFormula settings now name).getD s
  | .delete name force => (s.delete settings now name force).2
  | .resolve supply survey policy elements =>
    (s.resolve settings now supply survey policy elements).state
  | .addSnapshot description => s.addSnapshot now description
  | .rollback id => (s.rollback settings now id).2
  | .countUses names => s.countUses names

def State.saves [ElementAccess ε] (s : State) (settings : Settings) (now : Instant) :
    Action ε → Bool
  | .nothing => false
  | .create supply batch cancelled =>
    (s.create settings now supply batch cancelled).1.revision.isSome
  | .compile options result source => (s.compile settings now options result source).1.isCommitted
  | .dropFormula name => (s.dropFormula settings now name).isSome
  | .delete name force => (s.delete settings now name force).1.revision.isSome
  | .resolve supply survey policy elements =>
    (s.resolve settings now supply survey policy elements).result.revision.isSome
  | .addSnapshot _ | .countUses _ => true
  | .rollback id => (s.rollback settings now id).1.status != .notFound

/-- The compilation of an expression that was put together from parts. -/
def Action.ofParts (options : CompileOptions) (result : String)
    (parts : Except Formula.SyntaxError Formula.Term) : Action ε :=
  match parts with
  | .ok e => .compile options result (e.render {})
  | .error _ => .nothing

def Engine.actionOf [ElementAccess ε] (e : Engine) (now : Instant) : Operation ε → Action ε
  | .create batch cancelled => .create e.supply batch cancelled
  | .importDefinitions definitions cancelled => .create e.supply (batchOf definitions) cancelled
  | .importText format text cancelled =>
    match format.decode now e.supply text with
    | .ok (decoded, supply) => .create supply (batchOf decoded.definitions) cancelled
    | .error _ => .nothing
  | .instantiate id category options cancelled =>
    match e.templates.get? id with
    | some t => .create e.supply (templateBatch t category options) cancelled
    | none => .nothing
  | .compile options result source => .compile options result source
  | .compileText options text =>
    match Formula.Assignment.parse? text with
    | some a => .compile options a.result a.expression
    | none => .nothing
  | .compileCases options result branches otherwise =>
    .ofParts options result (Formula.conditional branches otherwise)
  | .compileTable options result key table otherwise =>
    .ofParts options result (Formula.lookup key table otherwise)
  | .translate options sentence =>
    match e.toAssignment sentence with
    | .ok a => .compile options a.result a.expression
    | .error _ => .nothing
  | .dropFormula name => .dropFormula name
  | .delete name force => .delete name force
  | .settle survey policy elements => .resolve e.supply survey policy elements
  | .addSnapshot description => .addSnapshot (description.getD manualDescription)
  | .rollback id => .rollback id
  | .carryOut plan elements cancelled =>
    let used := (plan.applyTo e.state.registry cancelled elements).used
    if used.isEmpty then .nothing else .countUses used
  | .addTemplate _ | .addTemplateFiles _ | .planSync _ _ _ | .breakStore _ | .reload _ => .nothing

/-- Whether an operation does nothing but allowed actions to any engine. -/
def Operation.Within [ElementAccess ε] (allowed : Action ε → Prop) (op : Operation ε) : Prop :=
  ∀ (e : Engine) (now : Instant), allowed (e.actionOf now op)

end Actions

/-! ## States and stores after operations -/

/-- The store after it was asked to keep a state, which it may refuse. -/
def Store.keep (store : Store) (s : StoredState) : Store := (store.write s).toOption.getD store

theorem Store.fault_keep (store : Store) (s : StoredState) : (store.keep s).fault = store.fault := by
  simp only [keep, write]
  cases h : store.fault with
  | none => rfl
  | some message => exact h

theorem Store.saved_keep (store : Store) (s : StoredState) :
    (store.keep s).saved = if store.fault = none then some s else store.saved := by
  simp only [keep, write]
  cases store.fault with
  | none => rfl
  | some message => rfl

namespace Engine

/-- An engine that has moved on to a state, which it has asked the store to keep or not. -/
structure Moved (settings : Settings) (before : Store) (saves : Bool) (s : State) (e : Engine) :
    Prop where
  state : e.state = s
  store : e.store = if saves then before.keep s.stored else before
  settings : e.settings = settings

theorem Moved.saved {settings : Settings} {before : Store} {saves : Bool} {s : State} {e : Engine}
    (h : Moved settings before saves s e) :
    e.store.saved = before.saved ∨ e.store.saved = some s.stored := by
  rw [h.store]
  split
  · rw [Store.saved_keep]
    split
    · exact .inr rfl
    · exact .inl rfl
  · exact .inl rfl

theorem Moved.refl (e : Engine) : Moved e.settings e.store false e.state e := ⟨rfl, rfl, rfl⟩

theorem moved_commit (e : Engine) (s : State) : Moved e.settings e.store true s (e.commit s).2 := by
  simp only [commit, saveOrWarn, save, Store.write]
  cases h : e.store.fault <;> exact ⟨rfl, by simp [Store.keep, Store.write, h, Except.map, Except.toOption], rfl⟩

variable (e : Engine) (now : Instant)

theorem moved_create (batch : Batch) (cancelled : Bool) :
    Moved e.settings e.store
      (e.state.create e.settings now e.supply batch cancelled).1.revision.isSome
      (e.state.create e.settings now e.supply batch cancelled).2.1
      (e.create now batch cancelled).2 := by
  simp only [create]
  cases (e.state.create e.settings now e.supply batch cancelled).1.revision.isSome with
  | true =>
      exact moved_commit { e with
        supply := (e.state.create e.settings now e.supply batch cancelled).2.2 } _
  | false => exact ⟨rfl, rfl, rfl⟩

theorem outcome_create (batch : Batch) (cancelled : Bool) :
    ∃ warnings, (e.create now batch cancelled).1 =
      { (e.state.create e.settings now e.supply batch cancelled).1 with warnings := warnings } := by
  simp only [create]
  split
  · exact ⟨_, rfl⟩
  · exact ⟨_, rfl⟩

theorem moved_afterCompile {step : Compilation × State}
    (h : step.1.isCommitted = false → step.2 = e.state) :
    Moved e.settings e.store step.1.isCommitted step.2 (e.afterCompile step).2 := by
  simp only [afterCompile]
  cases hc : step.1.isCommitted with
  | true => exact moved_commit e step.2
  | false => exact ⟨(h hc).symm, rfl, rfl⟩

theorem compile_eq_of_not_committed {s : State} {settings : Settings} {options : CompileOptions}
    {result source : String}
    (h : (s.compile settings now options result source).1.isCommitted = false) :
    (s.compile settings now options result source).2 = s := by
  simp only [State.compile] at h ⊢
  split
  · rfl
  · rename_i checked hplan
    simp only [hplan] at h
    split at h
    · rename_i hpreview
      rw [if_pos hpreview]
    · simp [Compilation.isCommitted] at h

theorem moved_compile (options : CompileOptions) (result source : String) :
    Moved e.settings e.store (e.state.compile e.settings now options result source).1.isCommitted
      (e.state.compile e.settings now options result source).2
      (e.compile now options result source).2 :=
  moved_afterCompile e fun h => compile_eq_of_not_committed now h

theorem isCommitted_compile (options : CompileOptions) (result source : String) :
    (e.compile now options result source).1.isCommitted =
      (e.state.compile e.settings now options result source).1.isCommitted := by
  simp only [compile, afterCompile]
  split
  · cases (e.state.compile e.settings now options result source).1 <;> rfl
  · rfl

theorem delete_eq_of_no_revision {s : State} {settings : Settings} {name : String} {force : Bool}
    (h : (s.delete settings now name force).1.revision.isSome = false) :
    (s.delete settings now name force).2 = s := by
  simp only [State.delete] at h ⊢
  split
  · rfl
  · rename_i hreserved
    rw [if_neg hreserved] at h
    split
    · rfl
    · rename_i d hget
      simp only [hget] at h
      split at h
      · rename_i hdep
        rw [if_pos hdep]
      · simp at h

theorem moved_delete (name : String) (force : Bool) :
    Moved e.settings e.store (e.state.delete e.settings now name force).1.revision.isSome
      (e.state.delete e.settings now name force).2 (e.delete now name force).2 := by
  simp only [delete]
  cases hr : (e.state.delete e.settings now name force).1.revision.isSome with
  | true => exact moved_commit e _
  | false => exact ⟨(delete_eq_of_no_revision now hr).symm, rfl, rfl⟩

theorem moved_dropFormula (name : String) :
    Moved e.settings e.store (e.state.dropFormula e.settings now name).isSome
      ((e.state.dropFormula e.settings now name).getD e.state) (e.dropFormula now name).2 := by
  simp only [dropFormula]
  cases e.state.dropFormula e.settings now name with
  | some s => exact moved_commit e s
  | none => exact .refl e

theorem rollback_eq_of_notFound {s : State} {settings : Settings} {id : SnapshotNumber}
    (h : (s.rollback settings now id).1.status = .notFound) :
    (s.rollback settings now id).2 = s := by
  simp only [State.rollback] at h ⊢
  split
  · rfl
  · rename_i target hfound
    simp [hfound] at h

theorem moved_rollback (id : SnapshotNumber) :
    Moved e.settings e.store ((e.state.rollback e.settings now id).1.status != .notFound)
      (e.state.rollback e.settings now id).2 (e.rollback now id).2 := by
  simp only [rollback]
  split
  · rename_i hs
    rw [hs]
    exact ⟨(rollback_eq_of_notFound now hs).symm, rfl, rfl⟩
  · rename_i hs
    rw [bne_iff_ne.mpr hs]
    simp only [save, Store.write]
    cases h : e.store.fault <;>
      exact ⟨rfl, by simp [Store.keep, Store.write, h, Except.map, Except.toOption], rfl⟩

def storeFor {ε : Type} (e : Engine) : Operation ε → Store
  | .breakStore fault => { e.store with fault := fault }
  | _ => e.store

theorem saved_storeFor {ε : Type} (op : Operation ε) : (e.storeFor op).saved = e.store.saved := by
  cases op <;> rfl

variable {ε : Type} [ElementAccess ε]

theorem moved_settle (survey : ConflictSurvey) (policy : ResolutionPolicy) (elements : List ε) :
    Moved e.settings e.store
      (e.state.resolve e.settings now e.supply survey policy elements).result.revision.isSome
      (e.state.resolve e.settings now e.supply survey policy elements).state
      (e.settle now survey policy elements).2.2 := by
  simp only [settle]
  cases (e.state.resolve e.settings now e.supply survey policy elements).result.revision.isSome with
  | true =>
      exact moved_commit { e with
        supply := (e.state.resolve e.settings now e.supply survey policy elements).supply } _
  | false => exact ⟨rfl, rfl, rfl⟩

/-- All that an operation does, apart from a reload, is its action. -/
theorem moved_after (op : Operation ε) (hop : ∀ settings, op ≠ .reload settings) :
    Moved e.settings (e.storeFor op) (e.state.saves e.settings now (e.actionOf now op))
      (e.state.perform e.settings now (e.actionOf now op)) (e.after now op) := by
  cases op with
  | create batch cancelled => exact moved_create e now batch cancelled
  | importDefinitions definitions cancelled =>
      exact moved_create e now (batchOf definitions) cancelled
  | importText format text cancelled =>
      simp only [after, actionOf, importText]
      cases format.decode now e.supply text with
      | error failure => exact .refl e
      | ok decoded =>
          exact moved_create { e with supply := decoded.2 } now (batchOf decoded.1.definitions)
            cancelled
  | addTemplate template => exact ⟨rfl, rfl, rfl⟩
  | addTemplateFiles files => exact ⟨rfl, rfl, rfl⟩
  | instantiate id category options cancelled =>
      simp only [after, actionOf, instantiate]
      cases e.templates.get? id with
      | none => exact .refl e
      | some t => exact moved_create e now (templateBatch t category options) cancelled
  | compile options result source => exact moved_compile e now options result source
  | compileText options text =>
      simp only [after, actionOf, compileText, State.compileText]
      cases Formula.Assignment.parse? text with
      | none => exact .refl e
      | some a => exact moved_compile e now options a.result a.expression
  | compileCases options result branches otherwise =>
      simp only [after, actionOf, compileCases, State.compileParts, Action.ofParts]
      cases Formula.conditional branches otherwise with
      | error error => exact .refl e
      | ok term => exact moved_compile e now options result (term.render {})
  | compileTable options result key table otherwise =>
      simp only [after, actionOf, compileTable, State.compileParts, Action.ofParts]
      cases Formula.lookup key table otherwise with
      | error error => exact .refl e
      | ok term => exact moved_compile e now options result (term.render {})
  | translate options sentence =>
      simp only [after, actionOf, translate]
      cases e.toAssignment sentence with
      | error failure => exact .refl e
      | ok a => exact moved_compile e now options a.result a.expression
  | dropFormula name => exact moved_dropFormula e now name
  | delete name force => exact moved_delete e now name force
  | settle survey policy elements => exact moved_settle e now survey policy elements
  | addSnapshot description => exact moved_commit e _
  | rollback id => exact moved_rollback e now id
  | planSync options captures cancelled => exact .refl e
  | carryOut plan elements cancelled =>
      simp only [after, actionOf, carryOut]
      split
      · exact .refl e
      · exact moved_commit e _
  | breakStore fault => exact ⟨rfl, rfl, rfl⟩
  | reload settings => exact absurd rfl (hop settings)

/-- What all settings that engines are started with have in common stays as it is. -/
theorem setting_run {α : Type} (f : Settings → α) {e : Engine} {steps : List (Instant × Operation ε)}
    (hsteps : ∀ step ∈ steps, ∀ settings, step.2 = .reload settings → f settings = f e.settings) :
    f (e.run steps).settings = f e.settings := by
  induction steps generalizing e with
  | nil => rfl
  | cons step rest ih =>
      obtain ⟨hstep, hrest⟩ := List.forall_mem_cons.mp hsteps
      have hafter : f (e.after step.1 step.2).settings = f e.settings := by
        by_cases hr : ∃ settings, step.2 = .reload settings
        · obtain ⟨settings, hop⟩ := hr
          rw [← hstep settings hop, hop]
          rfl
        · rw [(moved_after e step.1 step.2 fun settings hop => hr ⟨settings, hop⟩).settings]
      exact (ih (hafter ▸ hrest)).trans hafter

/-! ## Properties along runs -/

/-- A property of the state and of what the store holds. -/
structure Holds (P : State → Prop) (e : Engine) : Prop where
  state : P e.state
  saved : ∀ s, e.store.saved = some s → P (.ofStored s)

variable {P : State → Prop} {allowed : Action ε → Prop}

/-- A property that new states have, and that survives in stores. -/
structure Lasting (P : State → Prop) : Prop where
  start : ∀ now, P (.start now)
  stored : ∀ {s}, P s → P (.ofStored s.stored)

theorem Lasting.congr {Q : State → Prop} (h : Lasting P) (heq : ∀ s, Q s ↔ P s) : Lasting Q where
  start := fun now => (heq _).mpr (h.start now)
  stored := fun hs => (heq _).mpr (h.stored ((heq _).mp hs))

theorem Lasting.and {Q : State → Prop} (h : Lasting P) (hQ : Lasting Q) :
    Lasting fun s => P s ∧ Q s where
  start := fun now => ⟨h.start now, hQ.start now⟩
  stored := fun hs => ⟨h.stored hs.1, hQ.stored hs.2⟩

/-- A condition on the engine and what it is asked for, at every step of a run. -/
def Along (condition : Engine → Instant × Operation ε → Prop) (e : Engine) :
    List (Instant × Operation ε) → Prop
  | [] => True
  | step :: rest => condition e step ∧ (e.after step.1 step.2).Along condition rest

section Along

variable {condition : Engine → Instant × Operation ε → Prop} {e : Engine}
  {steps : List (Instant × Operation ε)}

theorem along_iff : e.Along condition steps ↔
    ∀ init step rest, steps = init ++ step :: rest → condition (e.run init) step := by
  induction steps generalizing e with
  | nil => simp [Along]
  | cons first rest ih =>
      rw [Along, ih]
      constructor
      · rintro ⟨hfirst, hrest⟩ init step tail heq
        cases init with
        | nil =>
            cases heq
            exact hfirst
        | cons other init =>
            cases heq
            exact hrest init step tail rfl
      · exact fun h => ⟨h [] first rest rfl, fun init step tail heq =>
          h (first :: init) step tail (congrArg (first :: ·) heq)⟩

theorem along_append {rest : List (Instant × Operation ε)} :
    e.Along condition (steps ++ rest) ↔ e.Along condition steps ∧ (e.run steps).Along condition rest := by
  induction steps generalizing e with
  | nil => simp [Along, run]
  | cons step steps ih => exact (and_congr_right fun _ => ih).trans and_assoc.symm

theorem along_of_forall (h : ∀ step ∈ steps, ∀ e, condition e step) : e.Along condition steps :=
  along_iff.mpr fun init step rest heq => h step (by simp [heq]) _

namespace Lasting

variable (h : Lasting P)
include h

theorem holds_fresh (settings : Settings) (supply : TokenSupply) :
    (fresh settings now supply).Holds P where
  state := h.start now
  saved := by simp [fresh, onStore]

theorem holds_after (he : e.Holds P) {op : Operation ε}
    (hp : P (e.state.perform e.settings now (e.actionOf now op))) : (e.after now op).Holds P := by
  by_cases hr : ∃ settings, op = .reload settings
  · obtain ⟨settings, rfl⟩ := hr
    refine ⟨?_, he.saved⟩
    cases hs : e.store.saved with
    | none => simpa [after, reload, onStore, hs] using h.start now
    | some s => simpa [after, reload, onStore, hs] using he.saved s hs
  · have hmoved := moved_after e now op fun settings heq => hr ⟨settings, heq⟩
    refine ⟨hmoved.state ▸ hp, fun s hs => ?_⟩
    rcases hmoved.saved with hsaved | hsaved
    · exact he.saved s (saved_storeFor e op ▸ hsaved ▸ hs)
    · rw [hsaved] at hs
      cases hs
      exact h.stored hp

/-- A property that each step keeps under a condition holds along runs in which all steps meet the
condition. -/
theorem holds_along (hstep : ∀ (e : Engine) (step : Instant × Operation ε), condition e step →
      e.Holds P → P (e.state.perform e.settings step.1 (e.actionOf step.1 step.2)))
    (hsteps : e.Along condition steps) (he : e.Holds P) : (e.run steps).Holds P := by
  induction steps generalizing e with
  | nil => exact he
  | cons step rest ih =>
      exact ih hsteps.2 (h.holds_after step.1 he (hstep e step hsteps.1 he))

/-- If a lasting property implies another one, which a step breaks exactly in a certain case, then that
one holds at all times of a run exactly if the case never comes. -/
theorem forall_prefix_iff {Q : State → Prop} {good : Instant × Operation ε → Prop}
    {bad : Engine → Instant × Operation ε → Prop} (hQ : ∀ s, P s → Q s)
    (hkeep : ∀ (e : Engine) (step : Instant × Operation ε), good step → ¬bad e step → e.Holds P →
      P (e.state.perform e.settings step.1 (e.actionOf step.1 step.2)))
    (hbreak : ∀ (e : Engine) (step : Instant × Operation ε), bad e step → e.Holds P →
      ¬Q (e.state.perform e.settings step.1 (e.actionOf step.1 step.2)))
    (hsteps : ∀ step ∈ steps, good step) (he : e.Holds P) :
    (∀ init, init <+: steps → Q (e.run init).state) ↔
      e.Along (fun e step => ¬bad e step) steps := by
  induction steps generalizing e with
  | nil => exact iff_of_true (fun init hinit => List.prefix_nil.mp hinit ▸ hQ e.state he.state) trivial
  | cons step rest ih =>
      obtain ⟨hstep, hrest⟩ := List.forall_mem_cons.mp hsteps
      have hnext : ¬bad e step → (e.after step.1 step.2).Holds P := fun hnot =>
        h.holds_after step.1 he (hkeep e step hstep hnot he)
      constructor
      · intro hall
        have hnot : ¬bad e step := by
          intro hbad
          have hbroken := hbreak e step hbad he
          by_cases hr : ∃ settings, step.2 = .reload settings
          · obtain ⟨settings, hop⟩ := hr
            rw [hop] at hbroken
            exact hbroken (hQ e.state he.state)
          · rw [← (moved_after e step.1 step.2 fun settings hop => hr ⟨settings, hop⟩).state] at hbroken
            exact hbroken (hall [step] ⟨rest, rfl⟩)
        exact ⟨hnot, (ih hrest (hnext hnot)).mp fun init hinit =>
          hall (step :: init) (List.cons_prefix_cons.mpr ⟨rfl, hinit⟩)⟩
      · rintro ⟨hnot, halong⟩ init hinit
        rcases List.prefix_cons_iff.mp hinit with rfl | ⟨tail, rfl, htail⟩
        · exact hQ e.state he.state
        · exact (ih hrest (hnext hnot)).mpr halong tail htail

end Lasting

end Along

/-- A property that allowed actions keep, and that survives in stores. -/
structure Invariant (P : State → Prop) (allowed : Action ε → Prop) : Prop extends Lasting P where
  perform : ∀ s settings now action, allowed action → P s → P (s.perform settings now action)

namespace Invariant

/-- A property that each step keeps holds along runs. -/
theorem holds_run (h : Invariant P allowed) {e : Engine} {steps : List (Instant × Operation ε)}
    (hsteps : ∀ step ∈ steps, step.2.Within allowed) (he : e.Holds P) : (e.run steps).Holds P := by
  have halong : e.Along (fun _ step => step.2.Within allowed) steps :=
    along_of_forall fun step hstep _ => hsteps step hstep
  refine h.holds_along (fun e step hop he => ?_) halong he
  exact h.perform e.state e.settings step.1 _ (hop e step.1) he.state

theorem of_run (h : Invariant P allowed) (settings : Settings) (supply : TokenSupply)
    {steps : List (Instant × Operation ε)} (hsteps : ∀ step ∈ steps, step.2.Within allowed) :
    P ((fresh settings now supply).run steps).state :=
  (h.holds_run hsteps (h.holds_fresh now settings supply)).state

/-- A property that every step keeps holds along all runs. -/
theorem of_any_run (h : Invariant (ε := ε) P fun _ => True) (settings : Settings)
    (supply : TokenSupply) (steps : List (Instant × Operation ε)) :
    P ((fresh settings now supply).run steps).state :=
  h.of_run now settings supply fun _ _ _ _ => trivial

end Invariant

end Engine

end Parametric
