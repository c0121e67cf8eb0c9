import Mathlib
import Parametric.Element.Local
import Parametric.Proofs.Conflict.Kept

/-!
# Parameters that conflicts rename

A conflict about a spelling renames the parameter of that spelling on every element, in place of the first parameter
of its key. As long as the keys of an element differ, these are the same parameter, so the element follows the
renamings of spellings. Nothing asks whether another parameter of the element has the new name.
-/

namespace Parametric

/-! ## Parameters of one element -/

namespace CarriedParameter

def bare (p : CarriedParameter) : CarriedParameter := { p with identity := none }

def named (p : CarriedParameter) (name : String) : CarriedParameter := { p with name := name }

@[simp] theorem name_bare (p : CarriedParameter) : p.bare.name = p.name := rfl

@[simp] theorem key_bare (p : CarriedParameter) : p.bare.key = p.key := rfl

@[simp] theorem name_named (p : CarriedParameter) (name : String) : (p.named name).name = name := rfl

@[simp] theorem key_named (p : CarriedParameter) (name : String) : (p.named name).key = keyOf name := rfl

@[simp] theorem named_name (p : CarriedParameter) : p.named p.name = p := rfl

@[simp] theorem named_named (p : CarriedParameter) (name other : String) : (p.named name).named other = p.named other :=
  rfl

@[simp] theorem bare_ofDefinition (p : CarriedParameter) (now : Instant) (token : Identity) (name : String) :
    (ofDefinition (p.toDefinition now token name)).bare = p.bare.named name := rfl

end CarriedParameter

namespace LocalElement

theorem map_bare_replaceFirst (key : String) (new : CarriedParameter) (parameters : List CarriedParameter) :
    (replaceFirst key new parameters).map CarriedParameter.bare =
      replaceFirst key new.bare (parameters.map CarriedParameter.bare) := by
  induction parameters with
  | nil => rfl
  | cons p rest ih =>
      by_cases hkey : (p.key == key) = true
      · simp only [replaceFirst, List.map_cons, CarriedParameter.key_bare, hkey, ↓reduceIte]
      · simp only [replaceFirst, List.map_cons, CarriedParameter.key_bare, hkey, Bool.false_eq_true, ↓reduceIte, ih]

theorem replaceFirst_find? {key : String} {p : CarriedParameter} {parameters : List CarriedParameter}
    (h : parameters.find? (·.key == key) = some p) : replaceFirst key p parameters = parameters := by
  induction parameters with
  | nil => rfl
  | cons q rest ih =>
      cases hkey : q.key == key with
      | true =>
          simp only [List.find?_cons, hkey, Option.some.injEq] at h
          rw [replaceFirst, if_pos hkey, h]
      | false =>
          simp only [List.find?_cons, hkey] at h
          rw [replaceFirst, if_neg (by simp [hkey]), ih h]

theorem replaceFirst_eq_map {p new : CarriedParameter} {parameters : List CarriedParameter}
    (h : (parameters.map (·.key)).Nodup) (hp : p ∈ parameters) :
    replaceFirst p.key new parameters = parameters.map fun q => if q.name = p.name then new else q := by
  induction parameters with
  | nil => exact absurd hp List.not_mem_nil
  | cons q rest ih =>
      obtain ⟨hq, hrest⟩ := List.nodup_cons.mp h
      rcases List.mem_cons.mp hp with rfl | hp
      · have hothers : rest.map (fun q => if q.name = p.name then new else q) = rest.map fun q => q :=
          List.map_congr_left fun q hmem => if_neg fun hname =>
            hq (List.mem_map.mpr ⟨q, hmem, congrArg keyOf hname⟩)
        rw [replaceFirst, if_pos (beq_self_eq_true _), List.map_cons, if_pos rfl, hothers, List.map_id']
      · have hkey : q.key ≠ p.key := fun heq => hq (List.mem_map.mpr ⟨p, hp, heq.symm⟩)
        have hname : q.name ≠ p.name := fun heq => hkey (congrArg keyOf heq)
        rw [replaceFirst, if_neg (by simpa using hkey), List.map_cons, if_neg hname, ih hrest hp]

/-- Parameters with the first one of a spelling under another name, put in place of the first one of its key. -/
def respellFirst (old new : String) (parameters : List CarriedParameter) : List CarriedParameter :=
  match parameters.find? (·.name == old) with
  | some p => replaceFirst (keyOf old) (p.named new) parameters
  | none => parameters

theorem respellFirst_eq_map {old new : String} {parameters : List CarriedParameter}
    (h : (parameters.map (·.key)).Nodup) : respellFirst old new parameters =
      parameters.map fun p => p.named (if p.name = old then new else p.name) := by
  rw [respellFirst]
  cases hp : parameters.find? (·.name == old) with
  | none =>
      have hnone : ∀ q ∈ parameters, q.name ≠ old := by simpa using hp
      refine (List.map_id' _).symm.trans (List.map_congr_left fun q hq => ?_)
      rw [if_neg (hnone q hq), CarriedParameter.named_name]
  | some p =>
      have hfound := List.find?_some hp
      have hmem := List.mem_of_find?_eq_some hp
      obtain rfl : p.name = old := beq_iff_eq.mp hfound
      refine (replaceFirst_eq_map h hmem).trans (List.map_congr_left fun q hq => ?_)
      by_cases hsame : q.name = p.name
      · obtain rfl := List.inj_on_of_nodup_map h hq hmem (congrArg keyOf hsame)
        rw [if_pos rfl, if_pos rfl]
      · rw [if_neg hsame, if_neg hsame, CarriedParameter.named_name]

end LocalElement

/-! ## Spellings -/

namespace State

variable {s : State} {c : Conflict}

/-- The name that a conflict gives to a spelling, unless the registry refuses it. -/
def newName? (s : State) (c : Conflict) : Option String :=
  match c.kind, c.betterName with
  | .naming, some new =>
    if (s.registry.spelling? c.parameter).any (· != new) then
      match s.rename c.parameter new with
      | .ok _ => some new
      | .error _ => none
    else some new
  | _, _ => none

def respell (s : State) (c : Conflict) (name : String) : String :=
  if name = c.parameter then (s.newName? c).getD name else name

/-- What conflicts make of a spelling one after the other. -/
def spelledAfter (s : State) : List Conflict → String → String
  | [], name => name
  | c :: rest, name => (s.afterConflict c).spelledAfter rest (s.respell c name)

theorem spelledAfter_concat (conflicts : List Conflict) (name : String) : s.spelledAfter (conflicts ++ [c]) name =
    (conflicts.foldl afterConflict s).respell c (s.spelledAfter conflicts name) := by
  induction conflicts generalizing s name with
  | nil => rfl
  | cons first rest ih => exact ih _

/-- What a conflict makes of the parameters of an element. -/
def respellOn (s : State) (c : Conflict) (parameters : List CarriedParameter) : List CarriedParameter :=
  match s.newName? c with
  | some new => LocalElement.respellFirst c.parameter new parameters
  | none => parameters

/-- What conflicts make of the parameters of an element one after the other. -/
def respelledOn (s : State) : List Conflict → List CarriedParameter → List CarriedParameter
  | [], parameters => parameters
  | c :: rest, parameters => (s.afterConflict c).respelledOn rest (s.respellOn c parameters)

theorem respelledOn_concat (conflicts : List Conflict) (parameters : List CarriedParameter) :
    s.respelledOn (conflicts ++ [c]) parameters =
      (conflicts.foldl afterConflict s).respellOn c (s.respelledOn conflicts parameters) := by
  induction conflicts generalizing s parameters with
  | nil => rfl
  | cons first rest ih => exact ih _

theorem respellOn_eq_map {parameters : List CarriedParameter} (h : (parameters.map (·.key)).Nodup) :
    s.respellOn c parameters = parameters.map fun p => p.named (s.respell c p.name) := by
  simp only [respellOn, respell]
  cases s.newName? c with
  | none => simp
  | some new => exact LocalElement.respellFirst_eq_map h

/-- Parameters follow their spellings up to the first moment at which two of them share a key. -/
theorem respelledOn_eq_map {conflicts : List Conflict} {parameters : List CarriedParameter}
    (h : ∀ init, init <+: conflicts → ((s.respelledOn init parameters).map (·.key)).Nodup ∨
      (parameters.map fun p => keyOf (s.spelledAfter init p.name)).Nodup) :
    ∀ init, init <+: conflicts →
      s.respelledOn init parameters = parameters.map fun p => p.named (s.spelledAfter init p.name) := by
  intro init
  induction init using List.reverseRecOn with
  | nil => exact fun _ => (List.map_id _).symm
  | append_singleton init c ih =>
      intro hinit
      have hbefore : init <+: conflicts := (List.prefix_append init [c]).trans hinit
      have hspelled := ih hbefore
      have hnodup : ((s.respelledOn init parameters).map (·.key)).Nodup := by
        rcases h init hbefore with hnodup | hnodup
        · exact hnodup
        · rw [hspelled, List.map_map]
          exact hnodup
      rw [respelledOn_concat, respellOn_eq_map hnodup, hspelled, List.map_map]
      refine List.map_congr_left fun p _ => ?_
      rw [Function.comp_apply, CarriedParameter.named_named, CarriedParameter.name_named, spelledAfter_concat]

end State

/-! ## Handling of conflicts -/

namespace LocalElement

/-- An element lists its parameters and lets them be updated. -/
def IsOpen (e : LocalElement) : Prop := e.refusals.list = false ∧ e.refusals.update = false

instance (e : LocalElement) : Decidable e.IsOpen := inferInstanceAs (Decidable (_ ∧ _))

/-- The parameters of an element are changed, apart from tokens, as far as it lets them be changed. -/
structure Follows (f : List CarriedParameter → List CarriedParameter) (before after : LocalElement) : Prop where
  refusals : after.refusals = before.refusals
  parameters : after.parameters.map CarriedParameter.bare =
    if before.IsOpen then f (before.parameters.map CarriedParameter.bare)
    else before.parameters.map CarriedParameter.bare

variable {f g : List CarriedParameter → List CarriedParameter}

theorem Follows.of_eq {before after : LocalElement} (hrefusals : after.refusals = before.refusals)
    (hparameters : after.parameters = before.parameters) : Follows (fun l => l) before after :=
  ⟨hrefusals, by rw [hparameters, ite_self]⟩

theorem Follows.trans {before between after : LocalElement} (h : Follows f before between)
    (h' : Follows g between after) : Follows (fun l => g (f l)) before after := by
  refine ⟨h'.refusals.trans h.refusals, ?_⟩
  have hsame : between.IsOpen ↔ before.IsOpen := by rw [IsOpen, h.refusals, IsOpen]
  rw [h'.parameters, h.parameters]
  by_cases hopen : before.IsOpen
  · rw [if_pos (hsame.mpr hopen), if_pos hopen, if_pos hopen]
  · rw [if_neg (mt hsame.mp hopen), if_neg hopen, if_neg hopen]

theorem Follows.of_not_isOpen {e : LocalElement} (h : ¬e.IsOpen) : Follows f e e := ⟨rfl, (if_neg h).symm⟩

theorem follows_update {t : Touched LocalElement} {p : CarriedParameter} {d : Definition} {supply : TokenSupply}
    (hp : p ∈ t.element.parameters) (hlist : t.element.refusals.list = false)
    (hf : replaceFirst p.key (CarriedParameter.ofDefinition d).bare (t.element.parameters.map CarriedParameter.bare) =
      f (t.element.parameters.map CarriedParameter.bare)) :
    Follows f t.element (t.update supply p.name d).touched.element := by
  have hhas : t.element.has p.name = true := List.any_eq_true.mpr ⟨p, hp, beq_self_eq_true _⟩
  cases hupdate : t.element.refusals.update with
  | true =>
      have hsame : (t.update supply p.name d).touched.element = t.element := by
        simp only [Touched.update, ElementAccess.update, LocalElement.update, hupdate, ↓reduceIte]
        rfl
      rw [hsame]
      exact .of_not_isOpen fun hopen => Bool.noConfusion (hupdate.symm.trans hopen.2)
  | false =>
      have hnew : (t.update supply p.name d).touched.element =
          { t.element with parameters := replaceFirst p.key (.ofDefinition d) t.element.parameters } := by
        simp only [Touched.update, ElementAccess.update, LocalElement.update, hupdate, hhas, Bool.false_eq_true,
          ↓reduceIte]
        rfl
      rw [hnew]
      refine ⟨rfl, ?_⟩
      rw [if_pos ⟨hlist, hupdate⟩, map_bare_replaceFirst, hf]

theorem follows_standardize (now : Instant) (name : String) (token : Identity) (supply : TokenSupply)
    (t : Touched LocalElement) :
    Follows (fun l => l) t.element (t.standardize now name token supply).touched.element := by
  simp only [Touched.standardize, ElementAccess.list]
  cases hlist : t.element.refusals.list with
  | true => exact .of_eq rfl rfl
  | false =>
      simp only [Bool.false_eq_true, ↓reduceIte]
      cases hp : t.element.parameters.find? (·.key == keyOf name) with
      | none => exact .of_eq rfl rfl
      | some p =>
          simp only
          split
          · exact .of_eq rfl rfl
          · refine follows_update (List.mem_of_find?_eq_some hp) hlist (replaceFirst_find? ?_)
            have hfound := List.find?_some hp
            have hkey : p.key = keyOf name := beq_iff_eq.mp hfound
            rw [hkey, List.find?_map]
            exact congrArg (Option.map CarriedParameter.bare) hp

theorem follows_respellFirst (now : Instant) (r : Registry) (old new : String) (supply : TokenSupply)
    (t : Touched LocalElement) :
    Follows (respellFirst old new) t.element (t.rename now r old new supply).touched.element := by
  have hbare : (t.element.parameters.map CarriedParameter.bare).find? (·.name == old) =
      (t.element.parameters.find? (·.name == old)).map CarriedParameter.bare := List.find?_map
  simp only [Touched.rename, ElementAccess.list]
  cases hlist : t.element.refusals.list with
  | true => exact .of_not_isOpen fun hopen => Bool.noConfusion (hlist.symm.trans hopen.1)
  | false =>
      simp only [Bool.false_eq_true, ↓reduceIte]
      cases hp : t.element.parameters.find? (·.name == old) with
      | none =>
          refine ⟨rfl, ?_⟩
          rw [respellFirst, hbare, hp, Option.map_none, ite_self]
          rfl
      | some p =>
          have hfound := List.find?_some hp
          obtain rfl : p.name = old := beq_iff_eq.mp hfound
          refine follows_update (List.mem_of_find?_eq_some hp) hlist ?_
          rw [respellFirst, hbare, hp, Option.map_some]
          rfl

end LocalElement

/-! ## Runs -/

theorem forall₂_handleAll {ε : Type} [ElementAccess ε] {R : Touched ε → Touched ε → Prop}
    {handle : TokenSupply → Touched ε → Handled ε} (h : ∀ supply t, R t (handle supply t).touched)
    (supply : TokenSupply) (elements : List (Touched ε)) :
    List.Forall₂ R elements (handleAll handle supply elements).elements := by
  induction elements using List.reverseRecOn with
  | nil => exact .nil
  | append_singleton init t ih =>
      rw [handleAll, List.foldl_concat]
      exact List.rel_append ih (.cons (h _ t) .nil)

theorem forall₂_trans {α : Type} {P Q R : α → α → Prop} (h : ∀ a b c, P a b → Q b c → R a c) {l m n : List α}
    (hlm : List.Forall₂ P l m) (hmn : List.Forall₂ Q m n) : List.Forall₂ R l n := by
  induction hlm generalizing n with
  | nil =>
      cases hmn
      exact .nil
  | cons hab _ ih =>
      cases hmn with
      | cons hbc hrest => exact .cons (h _ _ _ hab hbc) (ih hrest)

/-- A conflict about a spelling is left, or copies are renamed after the registry. -/
theorem Resolving.rename_cases {ε : Type} [ElementAccess ε] (now : Instant) (r : Resolving ε) {c : Conflict}
    (hkind : c.kind = .naming) :
    (r.state.newName? c = none ∧
      ∃ warnings, r.rename now c = { r with result := { r.result with warnings := warnings } }.leave c) ∨
    ∃ new inRegistry changes, r.state.newName? c = some new ∧ r.rename now c =
      { r with state := r.state.afterConflict c, changes := changes }.renameCopies now c c.parameter new inRegistry := by
  simp only [State.newName?, State.afterConflict, rename, hkind]
  cases hnew : c.betterName with
  | none => exact .inl ⟨rfl, r.result.warnings, rfl⟩
  | some new =>
      by_cases hown : (r.state.registry.spelling? c.parameter).any (· != new) = true
      · simp only [hown, ↓reduceIte]
        cases hok : r.state.rename c.parameter new with
        | error e => exact .inl ⟨rfl, _, rfl⟩
        | ok renamed => exact .inr ⟨new, true, _, rfl, rfl⟩
      · simp only [hown, Bool.false_eq_true, ↓reduceIte]
        exact .inr ⟨new, false, r.changes, rfl, rfl⟩

namespace State

open LocalElement

theorem respellOn_of_eq_none {s : State} {c : Conflict} (h : s.newName? c = none) : s.respellOn c = fun l => l := by
  funext parameters
  rw [respellOn, h]

theorem respellOn_of_eq_some {s : State} {c : Conflict} {new : String} (h : s.newName? c = some new) :
    s.respellOn c = respellFirst c.parameter new := by
  funext parameters
  rw [respellOn, h]

theorem forall₂_leave (r : Resolving LocalElement) :
    List.Forall₂ (fun t t' => Follows (fun l => l) t.element t'.element) r.elements r.elements :=
  List.forall₂_same.mpr fun _ _ => .of_eq rfl rfl

theorem forall₂_standardize (now : Instant) (policy : ResolutionPolicy) (r : Resolving LocalElement) (c : Conflict) :
    List.Forall₂ (fun t t' => Follows (fun l => l) t.element t'.element) r.elements
      (r.standardize now policy c).elements := by
  simp only [Resolving.standardize]
  split
  · exact forall₂_leave r
  · rename_i token _
    have hall : List.Forall₂ (fun t t' => Follows (fun l => l) t.element t'.element) r.elements
        (handleAll (Touched.standardize now c.parameter token) r.supply r.elements).elements :=
      forall₂_handleAll (follows_standardize now c.parameter token) _ _
    split
    · exact hall
    · exact hall

theorem forall₂_renamed (now : Instant) (r : Resolving LocalElement) {c : Conflict} (hkind : c.kind = .naming) :
    List.Forall₂ (fun t t' => Follows (r.state.respellOn c) t.element t'.element) r.elements
      (r.rename now c).elements := by
  rcases Resolving.rename_cases now r hkind with ⟨hnone, warnings, hleft⟩ | ⟨new, _, _, hsome, hrenamed⟩
  · rw [respellOn_of_eq_none hnone, hleft]
    exact forall₂_leave r
  · rw [respellOn_of_eq_some hsome, hrenamed]
    exact forall₂_handleAll (follows_respellFirst now _ c.parameter new) _ _

theorem forall₂_handle (now : Instant) (policy : ResolutionPolicy) (r : Resolving LocalElement) (c : Conflict) :
    List.Forall₂ (fun t t' => Follows (r.state.respellOn c) t.element t'.element) r.elements
      (r.handle now policy c).elements := by
  simp only [Resolving.handle]
  cases hkind : c.kind with
  | identity =>
      have hnone : r.state.newName? c = none := by simp only [newName?, hkind]
      rw [respellOn_of_eq_none hnone]
      exact forall₂_standardize now policy r c
  | naming => exact forall₂_renamed now r hkind
  | valueKind | grouping | formula =>
      have hnone : r.state.newName? c = none := by simp only [newName?, hkind]
      rw [respellOn_of_eq_none hnone]
      exact forall₂_leave r

theorem forall₂_foldl_handle (now : Instant) (policy : ResolutionPolicy) (conflicts : List Conflict)
    (r : Resolving LocalElement) :
    List.Forall₂ (fun t t' => Follows (r.state.respelledOn conflicts) t.element t'.element) r.elements
      (conflicts.foldl (Resolving.handle now policy) r).elements := by
  induction conflicts generalizing r with
  | nil => exact List.forall₂_same.mpr fun t _ => .of_eq rfl rfl
  | cons c rest ih =>
      have hrest := ih (r.handle now policy c)
      rw [state_handle] at hrest
      exact forall₂_trans (fun _ _ _ => Follows.trans) (forall₂_handle now policy r c) hrest

/-- All elements follow what the conflicts of a survey make of their parameters. -/
theorem forall₂_resolve (s : State) (settings : Settings) (now : Instant) (supply : TokenSupply)
    (survey : ConflictSurvey) {policy : ResolutionPolicy} (hpolicy : policy ≠ .manualOnly)
    (elements : List LocalElement) : List.Forall₂ (Follows (s.respelledOn survey.conflicts)) elements
      (s.resolve settings now supply survey policy elements).elements := by
  have hsave : ∀ t : Touched LocalElement, (Touched.save t).1.refusals = t.element.refusals ∧
      (Touched.save t).1.parameters = t.element.parameters := by
    intro t
    simp only [Touched.save, ElementAccess.save, LocalElement.save]
    split
    · split <;> exact ⟨rfl, rfl⟩
    · exact ⟨rfl, rfl⟩
  have hrun := forall₂_foldl_handle now policy survey.conflicts
    { state := s, supply := supply, elements := elements.map fun e => { element := e } }
  simp only [resolve, if_neg hpolicy, Resolving.finish, List.map_map]
  rw [List.forall₂_map_right_iff]
  rw [List.forall₂_map_left_iff] at hrun
  refine hrun.imp fun e t hfollows => ⟨(hsave t).1.trans hfollows.refusals, ?_⟩
  rw [Function.comp_apply, (hsave t).2, hfollows.parameters]

end State

/-! ## What is left of the parameters -/

/-- Parameters of different keys, one for each earlier parameter: under its name or the better one, of its kind and in
its group. -/
structure Intact (c : Convention) (before after : List CarriedParameter) : Prop where
  distinct : (after.map (·.key)).Nodup
  kept : List.Forall₂ (fun p q => (q.name = p.name ∨ c.betterName? p.name = some q.name) ∧ q.kind = p.kind ∧
    q.group = p.group) before after

variable {c : Convention} {before after : List CarriedParameter}

theorem intact_map_bare : Intact c before (after.map CarriedParameter.bare) ↔ Intact c before after := by
  have hkeys : (after.map CarriedParameter.bare).map (·.key) = after.map (·.key) := List.map_map
  constructor
  · rintro ⟨hdistinct, hkept⟩
    exact ⟨hkeys ▸ hdistinct, List.forall₂_map_right_iff.mp hkept⟩
  · rintro ⟨hdistinct, hkept⟩
    exact ⟨hkeys.symm ▸ hdistinct, List.forall₂_map_right_iff.mpr hkept⟩

/-- Parameters under other names are intact if the names are better ones whose keys differ. -/
theorem intact_map_named {spelled : String → String} :
    Intact c before ((before.map CarriedParameter.bare).map fun p => p.named (spelled p.name)) ↔
      (before.map fun p => keyOf (spelled p.name)).Nodup ∧
        ∀ p ∈ before, spelled p.name = p.name ∨ c.betterName? p.name = some (spelled p.name) := by
  rw [List.map_map]
  have hkeys : (before.map ((fun p => p.named (spelled p.name)) ∘ CarriedParameter.bare)).map (·.key) =
      before.map fun p => keyOf (spelled p.name) := List.map_map
  constructor
  · rintro ⟨hdistinct, hkept⟩
    rw [List.forall₂_map_right_iff, List.forall₂_same] at hkept
    exact ⟨hkeys ▸ hdistinct, fun p hp => (hkept p hp).1⟩
  · rintro ⟨hdistinct, hnames⟩
    refine ⟨hkeys.symm ▸ hdistinct, ?_⟩
    rw [List.forall₂_map_right_iff, List.forall₂_same]
    exact fun p hp => ⟨hnames p hp, rfl, rfl⟩

theorem intact_self (h : (before.map (·.key)).Nodup) : Intact c before before :=
  ⟨h, List.forall₂_same.mpr fun _ _ => ⟨.inl rfl, rfl, rfl⟩⟩

theorem forall₂_iff_forall {α β : Type} {R Q : α → β → Prop} {P : α → Prop} {l : List α} {m : List β}
    (h : List.Forall₂ R l m) (hiff : ∀ a b, R a b → (Q a b ↔ P a)) : List.Forall₂ Q l m ↔ ∀ a ∈ l, P a := by
  induction h with
  | nil => simp
  | cons hab _ ih => rw [List.forall₂_cons, List.forall_mem_cons, hiff _ _ hab, ih]

/-- The parameters of an element are intact at every moment exactly if their spellings are. -/
theorem State.intact_respelledOn_iff {s : State} {conflicts : List Conflict} :
    (∀ init, init <+: conflicts → Intact c before (s.respelledOn init (before.map CarriedParameter.bare))) ↔
      ∀ init, init <+: conflicts → (before.map fun p => keyOf (s.spelledAfter init p.name)).Nodup ∧
        ∀ p ∈ before, s.spelledAfter init p.name = p.name ∨
          c.betterName? p.name = some (s.spelledAfter init p.name) := by
  have hkeys (init : List Conflict) : ((before.map CarriedParameter.bare).map fun p =>
      keyOf (s.spelledAfter init p.name)) = before.map fun p => keyOf (s.spelledAfter init p.name) := List.map_map
  constructor
  · intro h init hinit
    have heq := State.respelledOn_eq_map (fun init hinit => .inl (h init hinit).distinct) init hinit
    exact intact_map_named.mp (heq ▸ h init hinit)
  · intro h init hinit
    rw [State.respelledOn_eq_map (fun init hinit => .inr (hkeys init ▸ (h init hinit).1)) init hinit]
    exact intact_map_named.mpr (h init hinit)

namespace Engine

theorem elements_settle {ε : Type} [ElementAccess ε] (e : Engine) (now : Instant) (survey : ConflictSurvey)
    (policy : ResolutionPolicy) (elements : List ε) : (e.settle now survey policy elements).2.1 =
      (e.state.resolve e.settings now e.supply survey policy elements).elements := by
  simp only [settle]
  split <;> rfl

/-- While conflicts are resolved, the parameters of all elements are intact at every moment exactly if nothing may be
renamed, or on no element that lets its parameters be renamed two of them get names of one key, or one gets two names
one after the other. -/
theorem intact_settle_iff (e : Engine) (now : Instant) (policy : ResolutionPolicy) (elements : List LocalElement)
    (hdistinct : ∀ element ∈ elements, (element.parameters.map (·.key)).Nodup) :
    let survey := e.survey (elements.map LocalElement.capture)
    let settled (part : List Conflict) := (e.settle now { survey with conflicts := part } policy elements).2.1
    (∀ init, init <+: survey.conflicts → List.Forall₂ (fun element element' =>
        Intact e.settings.naming element.parameters element'.parameters) elements (settled init)) ↔
      policy = .manualOnly ∨ ∀ element ∈ elements, element.IsOpen → ∀ init, init <+: survey.conflicts →
        (element.parameters.map fun p => keyOf (e.state.spelledAfter init p.name)).Nodup ∧
          ∀ p ∈ element.parameters, e.state.spelledAfter init p.name = p.name ∨
            e.settings.naming.betterName? p.name = some (e.state.spelledAfter init p.name) := by
  intro survey settled
  have hsettled (init : List Conflict) : settled init = (e.state.resolve e.settings now e.supply
      { survey with conflicts := init } policy elements).elements := elements_settle _ _ _ _ _
  by_cases hpolicy : policy = .manualOnly
  · refine iff_of_true (fun init _ => ?_) (.inl hpolicy)
    rw [hsettled, State.resolve, if_pos hpolicy]
    exact List.forall₂_same.mpr fun element hmem => intact_self (hdistinct element hmem)
  · have hintact (init : List Conflict) : List.Forall₂ (fun element element' =>
        Intact e.settings.naming element.parameters element'.parameters) elements (settled init) ↔
          ∀ element ∈ elements, Intact e.settings.naming element.parameters (if element.IsOpen then
            e.state.respelledOn init (element.parameters.map CarriedParameter.bare)
            else element.parameters.map CarriedParameter.bare) := by
      rw [hsettled]
      refine forall₂_iff_forall (State.forall₂_resolve _ _ _ _ { survey with conflicts := init } hpolicy _) ?_
      intro element element' hfollows
      rw [← intact_map_bare, hfollows.parameters]
    simp only [hintact, or_iff_right hpolicy]
    constructor
    · intro h element hmem hopen
      refine State.intact_respelledOn_iff.mp fun init hinit => ?_
      have hnow := h init hinit element hmem
      rwa [if_pos hopen] at hnow
    · intro h init hinit element hmem
      by_cases hopen : element.IsOpen
      · rw [if_pos hopen]
        exact State.intact_respelledOn_iff.mpr (h element hmem hopen) init hinit
      · rw [if_neg hopen]
        exact intact_map_bare.mpr (intact_self (hdistinct element hmem))

/-- Both parameters of a door get better names of different keys. -/
theorem intact_settle_door :
    let e := fresh {} ⟨0, 0⟩ (.ofSeed 0)
    let door : LocalElement := { id := "door-1", category := "Doors", parameters :=
      [{ name := "door width", kind := .length }, { name := "mark", kind := .text }] }
    let survey := e.survey [door.capture]
    let settled (part : List Conflict) :=
      (e.settle ⟨1, 0⟩ { survey with conflicts := part } .registryAuthoritative [door]).2.1
    survey.conflicts.map (·.betterName) = [some "Door_Width", some "Mark"] ∧
      ∀ init, init <+: survey.conflicts → List.Forall₂ (fun element element' =>
        Intact e.settings.naming element.parameters element'.parameters) [door] (settled init) := by
  intro e door survey settled
  refine ⟨by decide +kernel, (intact_settle_iff e ⟨1, 0⟩ .registryAuthoritative [door] (by decide +kernel)).mpr
    (.inr fun element hmem _ init hinit => ?_)⟩
  obtain rfl := List.mem_singleton.mp hmem
  have hall : ∀ init ∈ survey.conflicts.inits,
      (door.parameters.map fun p => keyOf (e.state.spelledAfter init p.name)).Nodup ∧
        ∀ p ∈ door.parameters, e.state.spelledAfter init p.name = p.name ∨
          e.settings.naming.betterName? p.name = some (e.state.spelledAfter init p.name) := by
    decide +kernel
  exact hall init ((List.mem_inits _ _).mpr hinit)

/-- Both parameters of a door get the same better name. The second one is found by its spelling and put in place of the
first one, which now has its key, and the first one is lost. -/
theorem not_intact_settle_door :
    let e := fresh {} ⟨0, 0⟩ (.ofSeed 0)
    let door : LocalElement := { id := "door-1", category := "Doors", parameters :=
      [{ name := "door width", kind := .length }, { name := "door_width", kind := .text }] }
    let settled := (e.settle ⟨1, 0⟩ (e.survey [door.capture]) .registryAuthoritative [door]).2.1
    (door.parameters.map (·.key)).Nodup ∧
      settled.map (·.parameters.map fun p => (p.name, p.kind)) =
        [[("Door_Width", .text), ("door_width", .text)]] ∧
      ¬List.Forall₂ (fun element element' =>
        Intact e.settings.naming element.parameters element'.parameters) [door] settled := by
  intro e door settled
  have hsettled : settled.map (·.parameters.map fun p => (p.name, p.kind)) =
      [[("Door_Width", .text), ("door_width", .text)]] := by decide +kernel
  refine ⟨by decide +kernel, hsettled, fun hintact => ?_⟩
  obtain ⟨element, others, ⟨hdistinct, -⟩, -, hone⟩ := List.forall₂_cons_left_iff.mp hintact
  rw [hone, List.map_cons, List.cons_eq_cons] at hsettled
  have hkeys : element.parameters.map (·.key) = ["door_width", "door_width"] := by
    have hnames := congrArg (List.map fun entry : String × ValueKind => keyOf entry.1) hsettled.1
    rw [List.map_map] at hnames
    exact hnames.trans (by decide +kernel)
  rw [hkeys] at hdistinct
  exact absurd hdistinct (by decide)

end Engine

end Parametric
