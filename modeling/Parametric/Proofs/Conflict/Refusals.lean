import Mathlib
import Parametric.Element.Local
import Parametric.Proofs.Conflict.Renamed
import Parametric.Proofs.Conflict.Survey

/-!
# Calls that elements refuse

While a conflict is handled, every element is asked to list its parameters, and then perhaps to update one of them.
Every call that fails becomes an error. A conflict between tokens is resolved only if no call failed; a spelling counts
as renamed whatever the elements answer.
-/

namespace Parametric

/-! ## Calls -/

/-- What is asked of every element for the sake of a conflict. -/
inductive Request where
  /-- The first parameter of a name should have a token. -/
  | standardize (name : String) (token : Identity)
  /-- The first parameter of a spelling should have another name. -/
  | rename (r : Registry) (old new : String)

namespace Request

def concerns : Request → CarriedParameter → Bool
  | .standardize name token, p => p.key == keyOf name && p.identity != some token
  | .rename _ old _, p => p.name == old

/-- The update that an element with given parameters is asked for. -/
def update? (now : Instant) (supply : TokenSupply) (parameters : List CarriedParameter) :
    Request → Option (String × Definition)
  | .standardize name token =>
    match parameters.find? (·.key == keyOf name) with
    | some p => if p.identity = some token then none else some (p.name, p.toDefinition now token p.name)
    | none => none
  | .rename r old new =>
    (parameters.find? (·.name == old)).map fun p => (old, p.toDefinition now (p.tokenFor r supply new).1 new)

/-- The first parameter of the name has the token, and so no other one is looked at. -/
def spares (parameters : List CarriedParameter) : Request → Bool
  | .standardize name token => (parameters.find? (·.key == keyOf name)).any (·.identity == some token)
  | .rename _ _ _ => false

variable {parameters : List CarriedParameter} {request : Request}

theorem update?_of_spares (now : Instant) (supply : TokenSupply) (h : request.spares parameters = true) :
    request.update? now supply parameters = none := by
  cases request with
  | standardize name token =>
      simp only [update?]
      cases hp : parameters.find? (·.key == keyOf name) with
      | none => rfl
      | some p =>
          have htoken : p.identity = some token := by simpa [spares, hp] using h
          exact if_pos htoken
  | rename r old new => exact absurd h Bool.false_ne_true

/-- An element that carries a copy that is not as it should be is asked to update it, unless it is spared. -/
theorem isSome_update? (now : Instant) (supply : TokenSupply) (hspares : request.spares parameters = false)
    {p : CarriedParameter} (hp : p ∈ parameters) (hconcerns : request.concerns p = true) :
    (request.update? now supply parameters).isSome = true := by
  cases request with
  | standardize name token =>
      rw [concerns, Bool.and_eq_true_iff] at hconcerns
      obtain ⟨hkey, -⟩ := hconcerns
      have hfound : (parameters.find? (·.key == keyOf name)).isSome = true := by
        rw [List.find?_isSome]
        exact ⟨p, hp, hkey⟩
      obtain ⟨first, hfirst⟩ := Option.isSome_iff_exists.mp hfound
      have htoken : first.identity ≠ some token := by simpa [spares, hfirst] using hspares
      simp only [update?, hfirst, if_neg htoken, Option.isSome_some]
  | rename r old new =>
      rw [concerns] at hconcerns
      rw [update?, Option.isSome_map, List.find?_isSome]
      exact ⟨p, hp, hconcerns⟩

end Request

inductive ElementCall (ε : Type) where
  | list (element : ε)
  | update (element : ε) (name : String) (d : Definition)

section Elements

variable {ε : Type} [ElementAccess ε] {now : Instant} {policy : ResolutionPolicy}

def ElementCall.problem? : ElementCall ε → Option String
  | .list element =>
    match ElementAccess.list element with
    | .ok _ => none
    | .error message => some message
  | .update element name d => (ElementAccess.update element name d).problem

/-- An element of which something is asked. -/
structure Visit (ε : Type) where
  request : Request
  supply : TokenSupply
  touched : Touched ε

namespace Visit

def handled (now : Instant) (v : Visit ε) : Handled ε :=
  match v.request with
  | .standardize name token => v.touched.standardize now name token v.supply
  | .rename r old new => v.touched.rename now r old new v.supply

/-- The parameters of the element, as far as it lists them. -/
def listed (v : Visit ε) : List CarriedParameter :=
  match ElementAccess.list v.touched.element with
  | .ok parameters => parameters
  | .error _ => []

def calls (now : Instant) (v : Visit ε) : List (ElementCall ε) :=
  .list v.touched.element ::
    match ElementAccess.list v.touched.element with
    | .ok parameters =>
      ((v.request.update? now v.supply parameters).map fun u => .update v.touched.element u.1 u.2).toList
    | .error _ => []

def Refuses (now : Instant) (v : Visit ε) : Prop := ∃ call ∈ v.calls now, call.problem?.isSome = true

/-- The element lists a copy that is not as it should be. -/
def Carries (v : Visit ε) : Prop := ∃ p ∈ v.listed, v.request.concerns p = true

/-- The element lists a copy that is not as it should be behind one that is. -/
def Hides (v : Visit ε) : Prop := v.Carries ∧ v.request.spares v.listed = true

instance (v : Visit ε) : Decidable (v.Refuses now) := inferInstanceAs (Decidable (∃ call ∈ _, _))

instance (v : Visit ε) : Decidable v.Carries := inferInstanceAs (Decidable (∃ p ∈ _, _))

instance (v : Visit ε) : Decidable v.Hides := inferInstanceAs (Decidable (_ ∧ _))

variable {v : Visit ε} {parameters : List CarriedParameter} {message : String}

theorem handled_of_error (h : ElementAccess.list v.touched.element = .error message) :
    v.handled now = .unchanged v.touched v.supply [refusal v.touched.element message] := by
  simp only [handled, Touched.standardize, Touched.rename, h]
  cases v.request <;> rfl

theorem handled_of_none (h : ElementAccess.list v.touched.element = .ok parameters)
    (hnone : v.request.update? now v.supply parameters = none) :
    v.handled now = .unchanged v.touched v.supply := by
  simp only [handled]
  cases hrequest : v.request with
  | standardize name token =>
      simp only [hrequest, Request.update?] at hnone
      simp only [Touched.standardize, h]
      cases hp : parameters.find? (·.key == keyOf name) with
      | none => rfl
      | some p =>
          simp only [hp, ite_eq_left_iff, reduceCtorEq, imp_false, not_not] at hnone
          exact if_pos hnone
  | rename r old new =>
      rw [hrequest, Request.update?, Option.map_eq_none_iff] at hnone
      simp only [Touched.rename, h, hnone]

theorem handled_of_some (h : ElementAccess.list v.touched.element = .ok parameters) {name : String} {d : Definition}
    (hsome : v.request.update? now v.supply parameters = some (name, d)) :
    ∃ supply, v.handled now = v.touched.update supply name d := by
  simp only [handled]
  cases hrequest : v.request with
  | standardize old token =>
      simp only [hrequest, Request.update?] at hsome
      simp only [Touched.standardize, h]
      cases hp : parameters.find? (·.key == keyOf old) with
      | none => simp only [hp, reduceCtorEq] at hsome
      | some p =>
          simp only [hp, Option.ite_none_left_eq_some, Option.some.injEq, Prod.mk.injEq] at hsome
          obtain ⟨htoken, rfl, rfl⟩ := hsome
          exact ⟨v.supply, if_neg htoken⟩
  | rename r old new =>
      rw [hrequest, Request.update?, Option.map_eq_some_iff] at hsome
      obtain ⟨p, hp, heq⟩ := hsome
      obtain ⟨rfl, rfl⟩ := Prod.mk.inj heq
      simp only [Touched.rename, h, hp]
      exact ⟨_, rfl⟩

theorem errors_handled (now : Instant) (v : Visit ε) :
    (v.handled now).errors = ((v.calls now).filterMap ElementCall.problem?).map (refusal v.touched.element) := by
  cases hlist : ElementAccess.list v.touched.element with
  | error message =>
      have hlisted : (ElementCall.list v.touched.element).problem? = some message := by
        simp only [ElementCall.problem?, hlist]
      rw [handled_of_error hlist]
      simp only [calls, hlist, List.filterMap_cons_some hlisted]
      rfl
  | ok parameters =>
      have hlisted : (ElementCall.list v.touched.element).problem? = none := by
        simp only [ElementCall.problem?, hlist]
      simp only [calls, hlist, List.filterMap_cons_none hlisted]
      cases hupdate : v.request.update? now v.supply parameters with
      | none =>
          rw [handled_of_none hlist hupdate]
          rfl
      | some u =>
          obtain ⟨supply, hhandled⟩ := handled_of_some hlist hupdate
          rw [hhandled]
          cases hproblem : (ElementAccess.update v.touched.element u.1 u.2).problem <;>
            simp [Touched.update, ElementCall.problem?, hproblem, Handled.unchanged]

theorem errors_handled_eq_nil_iff : (v.handled now).errors = [] ↔ ¬v.Refuses now := by
  rw [errors_handled, List.map_eq_nil_iff, List.filterMap_eq_nil_iff]
  simp only [Refuses, not_exists, not_and, Option.not_isSome_iff_eq_none]

theorem updated_handled_iff (h : ¬v.Refuses now) :
    (v.handled now).updated = true ↔ (v.request.update? now v.supply v.listed).isSome = true := by
  have hcalls : ∀ call ∈ v.calls now, call.problem? = none := by
    simpa only [Refuses, not_exists, not_and, Option.not_isSome_iff_eq_none] using h
  simp only [calls] at hcalls
  cases hlist : ElementAccess.list v.touched.element with
  | error message =>
      have hlisted := hcalls _ List.mem_cons_self
      simp only [ElementCall.problem?, hlist, reduceCtorEq] at hlisted
  | ok parameters =>
      simp only [listed, hlist] at hcalls ⊢
      cases hupdate : v.request.update? now v.supply parameters with
      | none =>
          rw [handled_of_none hlist hupdate]
          simp [Handled.unchanged]
      | some u =>
          have hproblem : (ElementAccess.update v.touched.element u.1 u.2).problem = none := by
            refine hcalls (.update v.touched.element u.1 u.2) (List.mem_cons_of_mem _ ?_)
            rw [hupdate]
            exact List.mem_singleton_self _
          obtain ⟨supply, hhandled⟩ := handled_of_some hlist hupdate
          rw [hhandled]
          simp [Touched.update, hproblem]

/-- An element that refuses nothing is updated if it lists a copy that is not as it should be, unless such copies hide
behind one that is. -/
theorem updated_handled_iff_of_carries (h : ¬v.Refuses now) (hcarries : v.Carries) :
    (v.handled now).updated = true ↔ ¬v.Hides := by
  rw [updated_handled_iff h, Hides, and_iff_right hcarries, Bool.not_eq_true]
  obtain ⟨p, hp, hconcerns⟩ := hcarries
  constructor
  · intro hsome
    by_contra hspares
    rw [Request.update?_of_spares now v.supply (by simpa using hspares)] at hsome
    cases hsome
  · exact fun hspares => Request.isSome_update? now v.supply hspares hp hconcerns

end Visit

/-- The elements of which something is asked, one after the other. -/
def Request.visits (now : Instant) (request : Request) : TokenSupply → List (Touched ε) → List (Visit ε)
  | _, [] => []
  | supply, t :: rest =>
    let v : Visit ε := ⟨request, supply, t⟩
    v :: request.visits now (v.handled now).supply rest

theorem errors_handleAll {handle : TokenSupply → Touched ε → Handled ε} {request : Request}
    (h : ∀ supply t, handle supply t = Visit.handled now ⟨request, supply, t⟩) (supply : TokenSupply)
    (elements : List (Touched ε)) : (handleAll handle supply elements).errors =
      (request.visits now supply elements).flatMap fun v => (v.handled now).errors := by
  let step (all : HandledAll ε) (t : Touched ε) : HandledAll ε :=
    { elements := all.elements ++ [(handle all.supply t).touched]
      supply := (handle all.supply t).supply
      updated := all.updated ++
        if (handle all.supply t).updated then [ElementAccess.id t.element] else []
      errors := all.errors ++ (handle all.supply t).errors }
  have hfold (all : HandledAll ε) : (elements.foldl step all).errors =
      all.errors ++ (request.visits now all.supply elements).flatMap fun v => (v.handled now).errors := by
    induction elements generalizing all with
    | nil => exact (List.append_nil _).symm
    | cons t rest ih =>
        rw [List.foldl_cons, ih, Request.visits, List.flatMap_cons, ← List.append_assoc, ← h]
  exact hfold { supply := supply }

/-! ## Turns -/

def Resolution.settled (r : Resolution) : List Conflict := r.resolved.map (·.conflict)

/-- A conflict, and what is at hand when its turn comes. -/
structure Turn (ε : Type) where
  conflict : Conflict
  before : Resolving ε

namespace Turn

def after (now : Instant) (policy : ResolutionPolicy) (t : Turn ε) : Resolving ε :=
  t.before.handle now policy t.conflict

/-- What is asked of elements, if anything is. -/
def request? (policy : ResolutionPolicy) (t : Turn ε) : Option Request :=
  if policy = .manualOnly then none
  else
    match t.conflict.kind with
    | .identity =>
      (Resolving.standardIdentity? t.before.state policy t.conflict).map (.standardize t.conflict.parameter)
    | .naming =>
      (t.before.state.newName? t.conflict).map
        (.rename (t.before.state.afterConflict t.conflict).registry t.conflict.parameter)
    | .valueKind | .grouping | .formula => none

def visits (now : Instant) (policy : ResolutionPolicy) (t : Turn ε) : List (Visit ε) :=
  match t.request? policy with
  | some request => request.visits now t.before.supply t.before.elements
  | none => []

def errors (now : Instant) (policy : ResolutionPolicy) (t : Turn ε) : List Issue :=
  (t.visits now policy).flatMap fun v => (v.handled now).errors

def Fails (now : Instant) (policy : ResolutionPolicy) (t : Turn ε) : Prop :=
  ∃ v ∈ t.visits now policy, v.Refuses now

instance (t : Turn ε) : Decidable (t.Fails now policy) := inferInstanceAs (Decidable (∃ v ∈ _, _))

/-- The conflict is resolved: something is asked of elements, and no call fails if it is about tokens. -/
def Resolves (now : Instant) (policy : ResolutionPolicy) (t : Turn ε) : Prop :=
  (t.request? policy).isSome = true ∧ (t.conflict.kind = .identity → ¬t.Fails now policy)

instance (t : Turn ε) : Decidable (t.Resolves now policy) := inferInstanceAs (Decidable (_ ∧ _))

/-- The conflict is added to those that were resolved or to those that were not, and its errors are added. -/
structure Concludes (now : Instant) (policy : ResolutionPolicy) (t : Turn ε) : Prop where
  settled : (t.after now policy).result.settled =
    t.before.result.settled ++ if t.Resolves now policy then [t.conflict] else []
  manual : (t.after now policy).result.manual =
    t.before.result.manual ++ if t.Resolves now policy then [] else [t.conflict]
  errors : (t.after now policy).result.errors = t.before.result.errors ++ t.errors now policy

/-- A result is right about a conflict: if it was resolved then no call failed and every element that listed a copy
that was not as it should be was updated, and if a call failed then it was left. -/
structure IsTold (now : Instant) (policy : ResolutionPolicy) (result : Resolution) (t : Turn ε) : Prop where
  resolved : t.conflict ∈ result.settled →
    ¬t.Fails now policy ∧ ∀ v ∈ t.visits now policy, v.Carries → (v.handled now).updated = true
  failed : t.Fails now policy → t.conflict ∈ result.manual

variable {t : Turn ε} {request : Request}

theorem isSome_request?_of_mem_visits {v : Visit ε} (h : v ∈ t.visits now policy) :
    (t.request? policy).isSome = true := by
  cases hrequest : t.request? policy with
  | none =>
      simp only [visits, hrequest] at h
      cases h
  | some request => rfl

theorem isSome_request?_of_fails (h : t.Fails now policy) : (t.request? policy).isSome = true := by
  obtain ⟨v, hv, -⟩ := h
  exact isSome_request?_of_mem_visits hv

omit [ElementAccess ε] in
theorem kind_of_isSome_request? (h : (t.request? policy).isSome = true) :
    t.conflict.kind = .identity ∨ t.conflict.kind = .naming := by
  simp only [request?] at h
  split at h
  · cases h
  · split at h
    · exact .inl ‹_›
    · exact .inr ‹_›
    · cases h
    · cases h
    · cases h

theorem errors_eq_nil_iff : t.errors now policy = [] ↔ ¬t.Fails now policy := by
  rw [errors, List.flatMap_eq_nil_iff, Fails]
  simp only [Visit.errors_handled_eq_nil_iff, not_exists, not_and]

theorem errors_of_eq_none (h : t.request? policy = none) : t.errors now policy = [] := by
  simp only [errors, visits, h, List.flatMap_nil]

theorem errors_of_eq_some (h : t.request? policy = some request) {handle : TokenSupply → Touched ε → Handled ε}
    (hhandle : ∀ supply element, handle supply element = Visit.handled now ⟨request, supply, element⟩) :
    (handleAll handle t.before.supply t.before.elements).errors = t.errors now policy := by
  rw [errors_handleAll hhandle, errors, visits, h]

theorem not_resolves_of_eq_none (h : t.request? policy = none) : ¬t.Resolves now policy := by
  rw [Resolves, h]
  exact fun hresolves => Bool.false_ne_true hresolves.1

theorem Concludes.of_settle (hresolves : t.Resolves now policy) {r : Resolving ε} {all : HandledAll ε}
    {action : Remedy} (hafter : t.after now policy = (r.withElements all).settle t.conflict action)
    (hresult : r.result = t.before.result) (herrors : all.errors = t.errors now policy) : t.Concludes now policy := by
  refine ⟨?_, ?_, ?_⟩
  · rw [hafter, if_pos hresolves, ← hresult]
    exact List.map_append
  · rw [hafter, if_pos hresolves, List.append_nil, ← hresult]
    rfl
  · rw [hafter, ← herrors, ← hresult]
    rfl

theorem Concludes.of_leave (hresolves : ¬t.Resolves now policy) {r : Resolving ε}
    (hafter : t.after now policy = r.leave t.conflict) (hsettled : r.result.settled = t.before.result.settled)
    (hmanual : r.result.manual = t.before.result.manual)
    (herrors : r.result.errors = t.before.result.errors ++ t.errors now policy) : t.Concludes now policy := by
  refine ⟨?_, ?_, ?_⟩
  · rw [hafter, if_neg hresolves, List.append_nil, ← hsettled]
    rfl
  · rw [hafter, if_neg hresolves, ← hmanual]
    rfl
  · rw [hafter, ← herrors]
    rfl

theorem Concludes.of_eq_none (h : t.request? policy = none) {warnings : List Issue}
    (hafter : t.after now policy =
      { t.before with result := { t.before.result with warnings := warnings } }.leave t.conflict) :
    t.Concludes now policy :=
  .of_leave (not_resolves_of_eq_none h) hafter rfl rfl (by rw [errors_of_eq_none h, List.append_nil])

theorem concludes_standardize (hpolicy : policy ≠ .manualOnly) (hkind : t.conflict.kind = .identity) :
    t.Concludes now policy := by
  have hafter : t.after now policy = t.before.standardize now policy t.conflict := by
    simp only [after, Resolving.handle, hkind]
  cases htoken : Resolving.standardIdentity? t.before.state policy t.conflict with
  | none =>
      have hnone : t.request? policy = none := by simp only [request?, if_neg hpolicy, hkind, htoken, Option.map_none]
      have hleft : t.after now policy = t.before.leave t.conflict := by
        simp only [hafter, Resolving.standardize, htoken]
      exact .of_eq_none hnone hleft
  | some token =>
      have hsome : t.request? policy = some (.standardize t.conflict.parameter token) := by
        simp only [request?, if_neg hpolicy, hkind, htoken, Option.map_some]
      let all := handleAll (Touched.standardize now t.conflict.parameter token) t.before.supply t.before.elements
      have herrors : all.errors = t.errors now policy := errors_of_eq_some hsome fun _ _ => rfl
      have hempty : all.errors.isEmpty = true ↔ t.Resolves now policy := by
        rw [List.isEmpty_iff, herrors, errors_eq_nil_iff, Resolves, hsome, Option.isSome_some, and_iff_right rfl,
          imp_iff_right hkind]
      simp only [Resolving.standardize, htoken] at hafter
      by_cases hresolves : t.Resolves now policy
      · exact .of_settle hresolves (hafter.trans (if_pos (hempty.mpr hresolves))) rfl herrors
      · refine .of_leave hresolves (hafter.trans (if_neg (mt hempty.mp hresolves))) rfl rfl ?_
        rw [← herrors]
        rfl

/-- A conflict about a spelling is resolved unless the registry refuses the better name, whatever elements answer. -/
theorem concludes_rename (hpolicy : policy ≠ .manualOnly) (hkind : t.conflict.kind = .naming) :
    t.Concludes now policy := by
  have hafter : t.after now policy = t.before.rename now t.conflict := by
    simp only [after, Resolving.handle, hkind]
  rcases Resolving.rename_cases now t.before hkind with ⟨hnone, warnings, hleft⟩ |
    ⟨new, inRegistry, changes, hsome, hrenamed⟩
  · have hrequest : t.request? policy = none := by
      simp only [request?, if_neg hpolicy, hkind, hnone, Option.map_none]
    exact .of_eq_none hrequest (hafter.trans hleft)
  · have hrequest : t.request? policy =
        some (.rename (t.before.state.afterConflict t.conflict).registry t.conflict.parameter new) := by
      simp only [request?, if_neg hpolicy, hkind, hsome, Option.map_some]
    have hresolves : t.Resolves now policy :=
      ⟨hrequest ▸ rfl, fun hidentity => absurd (hkind.symm.trans hidentity) (by decide)⟩
    exact .of_settle hresolves (hafter.trans hrenamed) rfl (errors_of_eq_some hrequest fun _ _ => rfl)

/-- Every turn concludes. -/
theorem concludes (hpolicy : policy ≠ .manualOnly) (t : Turn ε) : t.Concludes now policy := by
  cases hkind : t.conflict.kind with
  | identity => exact concludes_standardize hpolicy hkind
  | naming => exact concludes_rename hpolicy hkind
  | valueKind | grouping | formula =>
      have hnone : t.request? policy = none := by simp only [request?, hkind, ite_self]
      have hleft : t.after now policy = t.before.leave t.conflict := by simp only [after, Resolving.handle, hkind]
      exact .of_eq_none hnone hleft

/-- A result that lists what turns resolve is right about a conflict exactly if no call fails for a spelling, and no
copies hide for a token. -/
theorem isTold_iff {result : Resolution} (hsettled : t.conflict ∈ result.settled ↔ t.Resolves now policy)
    (hmanual : t.conflict ∈ result.manual ↔ ¬t.Resolves now policy) : t.IsTold now policy result ↔
      (t.conflict.kind = .naming → ¬t.Fails now policy) ∧
        (¬t.Fails now policy → ∀ v ∈ t.visits now policy, ¬v.Hides) := by
  have hrefuses (hfails : ¬t.Fails now policy) {v : Visit ε} (hv : v ∈ t.visits now policy) : ¬v.Refuses now :=
    fun hrefuses => hfails ⟨v, hv, hrefuses⟩
  constructor
  · rintro ⟨hresolved, hfailed⟩
    refine ⟨fun hnaming hfails => ?_, fun hfails v hv hhides => ?_⟩
    · have hresolves : t.Resolves now policy :=
        ⟨isSome_request?_of_fails hfails, fun hidentity => absurd (hnaming.symm.trans hidentity) (by decide)⟩
      exact hmanual.mp (hfailed hfails) hresolves
    · have hresolves : t.Resolves now policy := ⟨isSome_request?_of_mem_visits hv, fun _ => hfails⟩
      have hupdated := (hresolved (hsettled.mpr hresolves)).2 v hv hhides.1
      exact (Visit.updated_handled_iff_of_carries (hrefuses hfails hv) hhides.1).mp hupdated hhides
  · rintro ⟨hnaming, hhides⟩
    have hfails (hresolves : t.Resolves now policy) : ¬t.Fails now policy := by
      rcases kind_of_isSome_request? hresolves.1 with hidentity | hspelling
      · exact hresolves.2 hidentity
      · exact hnaming hspelling
    refine ⟨fun hmem => ?_, fun hfail => hmanual.mpr fun hresolves => hfails hresolves hfail⟩
    have hnot := hfails (hsettled.mp hmem)
    exact ⟨hnot, fun v hv hcarries =>
      (Visit.updated_handled_iff_of_carries (hrefuses hnot hv) hcarries).mpr (hhides hnot v hv)⟩

end Turn

/-! ## Runs -/

namespace Resolving

def turns (now : Instant) (policy : ResolutionPolicy) : Resolving ε → List Conflict → List (Turn ε)
  | _, [] => []
  | r, c :: rest => ⟨c, r⟩ :: turns now policy (r.handle now policy c) rest

theorem map_conflict_turns (r : Resolving ε) (conflicts : List Conflict) :
    (r.turns now policy conflicts).map (·.conflict) = conflicts := by
  induction conflicts generalizing r with
  | nil => rfl
  | cons c rest ih => rw [turns, List.map_cons, ih]

/-- What every turn adds to a list is in the list after a run, in the order of the turns. -/
theorem foldl_handle {α : Type} {f : Resolving ε → List α} {g : Turn ε → List α}
    (h : ∀ t : Turn ε, f (t.after now policy) = f t.before ++ g t) (r : Resolving ε) (conflicts : List Conflict) :
    f (conflicts.foldl (handle now policy) r) = f r ++ (r.turns now policy conflicts).flatMap g := by
  induction conflicts generalizing r with
  | nil => exact (List.append_nil _).symm
  | cons c rest ih =>
      have hturn : f (r.handle now policy c) = f r ++ g ⟨c, r⟩ := h ⟨c, r⟩
      rw [List.foldl_cons, ih, hturn, turns, List.flatMap_cons, List.append_assoc]

theorem settled_foldl (hpolicy : policy ≠ .manualOnly) (r : Resolving ε) (conflicts : List Conflict) :
    (conflicts.foldl (handle now policy) r).result.settled = r.result.settled ++
      (r.turns now policy conflicts).flatMap fun t => if t.Resolves now policy then [t.conflict] else [] :=
  foldl_handle (f := (·.result.settled)) (fun t => (t.concludes hpolicy).settled) r conflicts

theorem manual_foldl (hpolicy : policy ≠ .manualOnly) (r : Resolving ε) (conflicts : List Conflict) :
    (conflicts.foldl (handle now policy) r).result.manual = r.result.manual ++
      (r.turns now policy conflicts).flatMap fun t => if t.Resolves now policy then [] else [t.conflict] :=
  foldl_handle (f := (·.result.manual)) (fun t => (t.concludes hpolicy).manual) r conflicts

theorem errors_foldl (hpolicy : policy ≠ .manualOnly) (r : Resolving ε) (conflicts : List Conflict) :
    (conflicts.foldl (handle now policy) r).result.errors =
      r.result.errors ++ (r.turns now policy conflicts).flatMap (·.errors now policy) :=
  foldl_handle (f := (·.result.errors)) (fun t => (t.concludes hpolicy).errors) r conflicts

end Resolving

namespace Engine

def resolving (e : Engine) (elements : List ε) : Resolving ε :=
  { state := e.state, supply := e.supply, elements := elements.map fun element => { element := element } }

def turns (e : Engine) (now : Instant) (survey : ConflictSurvey) (policy : ResolutionPolicy) (elements : List ε) :
    List (Turn ε) :=
  (e.resolving elements).turns now policy survey.conflicts

variable {e : Engine} {survey : ConflictSurvey} {elements : List ε} {t : Turn ε}

theorem result_settle (e : Engine) (now : Instant) (survey : ConflictSurvey) (elements : List ε)
    (hpolicy : policy ≠ .manualOnly) :
    let all := survey.conflicts.foldl (Resolving.handle now policy) (e.resolving elements)
    let result := (e.settle now survey policy elements).1
    result.settled = all.result.settled ∧ result.manual = all.result.manual ∧
      result.errors = all.result.errors ++ (all.elements.map Touched.save).flatMap (·.2) := by
  simp only [settle, State.resolve, if_neg hpolicy]
  split <;> exact ⟨rfl, rfl, rfl⟩

/-- The errors are the calls that failed while conflicts were handled, and after them those that failed when elements
were saved. -/
theorem errors_settle (hpolicy : policy ≠ .manualOnly) : (e.settle now survey policy elements).1.errors =
    (e.turns now survey policy elements).flatMap (·.errors now policy) ++
      ((survey.conflicts.foldl (Resolving.handle now policy) (e.resolving elements)).elements.map
        Touched.save).flatMap (·.2) := by
  obtain ⟨-, -, herrors⟩ := result_settle e now survey elements hpolicy
  rw [herrors, Resolving.errors_foldl hpolicy]
  rfl

/-- If no conflict comes twice, a conflict is resolved exactly if its turn resolves it, and left otherwise. -/
theorem mem_settle_iff (hnodup : survey.conflicts.Nodup) (ht : t ∈ e.turns now survey policy elements) :
    let result := (e.settle now survey policy elements).1
    (t.conflict ∈ result.settled ↔ t.Resolves now policy) ∧ (t.conflict ∈ result.manual ↔ ¬t.Resolves now policy) := by
  intro result
  have hconflicts : (e.turns now survey policy elements).map (·.conflict) = survey.conflicts :=
    Resolving.map_conflict_turns _ _
  by_cases hpolicy : policy = .manualOnly
  · subst hpolicy
    have hnot : ¬t.Resolves now .manualOnly := Turn.not_resolves_of_eq_none (if_pos rfl)
    have hmem : t.conflict ∈ survey.conflicts := hconflicts ▸ List.mem_map_of_mem ht
    exact ⟨iff_of_false List.not_mem_nil hnot, iff_of_true hmem hnot⟩
  · have hsame {t' : Turn ε} (ht' : t' ∈ e.turns now survey policy elements) (heq : t'.conflict = t.conflict) :
        t' = t := List.inj_on_of_nodup_map (hconflicts ▸ hnodup) ht' ht heq
    have hturn {part : Turn ε → List Conflict} (hpart : ∀ t, ∀ c ∈ part t, c = t.conflict) :
        t.conflict ∈ (e.turns now survey policy elements).flatMap part ↔ t.conflict ∈ part t := by
      rw [List.mem_flatMap]
      constructor
      · rintro ⟨t', ht', hmem⟩
        obtain rfl := hsame ht' (hpart t' _ hmem).symm
        exact hmem
      · exact fun hmem => ⟨t, ht, hmem⟩
    have hsettled : result.settled = (e.turns now survey policy elements).flatMap fun t =>
        if t.Resolves now policy then [t.conflict] else [] :=
      (result_settle e now survey elements hpolicy).1.trans (Resolving.settled_foldl hpolicy _ _)
    have hmanual : result.manual = (e.turns now survey policy elements).flatMap fun t =>
        if t.Resolves now policy then [] else [t.conflict] :=
      (result_settle e now survey elements hpolicy).2.1.trans (Resolving.manual_foldl hpolicy _ _)
    rw [hsettled, hmanual, hturn fun t c hc => by split at hc <;> simp_all,
      hturn fun t c hc => by split at hc <;> simp_all]
    by_cases hresolves : t.Resolves now policy <;> simp [hresolves]

/-- After the conflicts that were detected at any moment of a run are resolved in any state, the result is right about
a conflict exactly if no call failed for a spelling that was renamed, and, unless a call failed, no element listed a
copy with another token behind one that has the token. -/
theorem isTold_settle_iff (settings : Settings) (start : Instant) (supply : TokenSupply)
    (earlier : List (Instant × Operation ε)) (captures : List Capture) (e : Engine) (now : Instant)
    (policy : ResolutionPolicy) (elements : List ε) :
    let survey := ((fresh settings start supply).run earlier).survey captures
    let result := (e.settle now survey policy elements).1
    ∀ t ∈ e.turns now survey policy elements, t.IsTold now policy result ↔
      (t.conflict.kind = .naming → ¬t.Fails now policy) ∧
        (¬t.Fails now policy → ∀ v ∈ t.visits now policy, ¬v.Hides) := by
  intro survey result t ht
  have hkeyed := (keyed_invariant.of_any_run start settings supply earlier).registry
  have hnodup : survey.conflicts.Nodup := ConflictSurvey.nodup_detect hkeyed
  obtain ⟨hsettled, hmanual⟩ := mem_settle_iff hnodup ht
  exact Turn.isTold_iff hsettled hmanual

end Engine

end Elements

namespace Engine

/-- Two doors carry different tokens of a width, and the second one refuses to be updated. -/
def widthDoors : List LocalElement :=
  let width (n : Nat) : CarriedParameter :=
    { name := "Width", kind := .length, identity := (TokenSupply.ofSeed 0).token n }
  [{ id := "door-1", category := "Doors", parameters := [width 0] },
   { id := "door-2", category := "Doors", parameters := [width 1], refusals := { update := true } }]

/-- The conflict about their tokens is left, as the result says. -/
theorem isTold_settle_widthDoors :
    let e := fresh {} ⟨0, 0⟩ (.ofSeed 7)
    let survey := e.survey (widthDoors.map LocalElement.capture)
    let result := (e.settle ⟨1, 0⟩ survey .mostFrequent widthDoors).1
    survey.conflicts.map (·.kind) = [.identity] ∧ result.manual = survey.conflicts ∧
      (∃ t ∈ e.turns ⟨1, 0⟩ survey .mostFrequent widthDoors, t.Fails ⟨1, 0⟩ .mostFrequent) ∧
      ∀ t ∈ e.turns ⟨1, 0⟩ survey .mostFrequent widthDoors, t.IsTold ⟨1, 0⟩ .mostFrequent result := by
  intro e survey result
  refine ⟨by decide +kernel, by decide +kernel, by decide +kernel, fun t ht => ?_⟩
  have hturns : ∀ t ∈ e.turns ⟨1, 0⟩ survey .mostFrequent widthDoors,
      (t.conflict.kind = .naming → ¬t.Fails ⟨1, 0⟩ .mostFrequent) ∧
        (¬t.Fails ⟨1, 0⟩ .mostFrequent → ∀ v ∈ t.visits ⟨1, 0⟩ .mostFrequent, ¬v.Hides) := by
    decide +kernel
  exact (isTold_settle_iff {} ⟨0, 0⟩ (.ofSeed 7) [] (widthDoors.map LocalElement.capture) e ⟨1, 0⟩ .mostFrequent
    widthDoors t ht).mpr (hturns t ht)

/-- A door refuses to rename its parameter. The conflict about the spelling is resolved all the same. -/
theorem not_isTold_settle_door :
    let e := fresh {} ⟨0, 0⟩ (.ofSeed 0)
    let door : LocalElement := { id := "door-1", category := "Doors", refusals := { update := true }
                                 parameters := [{ name := "door width", kind := .length }] }
    let survey := e.survey [door.capture]
    let result := (e.settle ⟨1, 0⟩ survey .registryAuthoritative [door]).1
    result.errors.map (·.message) = ["cannot update"] ∧ result.settled = survey.conflicts ∧ result.manual = [] ∧
      ∃ t ∈ e.turns ⟨1, 0⟩ survey .registryAuthoritative [door], t.Fails ⟨1, 0⟩ .registryAuthoritative ∧
        ¬t.IsTold ⟨1, 0⟩ .registryAuthoritative result := by
  intro e door survey result
  have hmanual : result.manual = [] := by decide +kernel
  have hfails : ∃ t ∈ e.turns ⟨1, 0⟩ survey .registryAuthoritative [door], t.Fails ⟨1, 0⟩ .registryAuthoritative := by
    decide +kernel
  obtain ⟨t, ht, hfails⟩ := hfails
  refine ⟨by decide +kernel, by decide +kernel, hmanual, t, ht, hfails, fun htold => ?_⟩
  exact List.not_mem_nil (hmanual ▸ htold.failed hfails)

end Engine

end Parametric
