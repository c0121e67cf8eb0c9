import Mathlib
import Parametric.Element.Local
import Parametric.Proofs.Conflict.Detection
import Parametric.Proofs.Sorting
import Parametric.Proofs.State.Shown

/-!
# Definitions that keep their names

A conflict renames at most the definition of the name that it is about. Conflicts come in the order of keys, so what
becomes of a definition is decided when the turn of its own name comes: it depends on the spellings that elements
carry, not on its own spelling.
-/

namespace Parametric

/-! ## Handling of conflicts -/

namespace State

variable {s : State} {d : Definition} {c : Conflict}

def afterConflict (s : State) (c : Conflict) : State :=
  match c.kind, c.betterName with
  | .naming, some new =>
    if (s.registry.spelling? c.parameter).any (· != new) then
      match s.rename c.parameter new with
      | .ok renamed => renamed.state
      | .error _ => s
    else s
  | _, _ => s

section Elements

variable {ε : Type} [ElementAccess ε] {now : Instant}

theorem state_handle (policy : ResolutionPolicy) (r : Resolving ε) (c : Conflict) :
    (r.handle now policy c).state = r.state.afterConflict c := by
  simp only [Resolving.handle, afterConflict]
  cases c.kind with
  | identity =>
      simp only [Resolving.standardize]
      split
      · rfl
      · split <;> rfl
  | naming =>
      simp only [Resolving.rename]
      cases c.betterName with
      | none => rfl
      | some new =>
          simp only
          split
          · cases r.state.rename c.parameter new <;> rfl
          · rfl
  | valueKind | grouping | formula => rfl

theorem state_foldl_handle (policy : ResolutionPolicy) (conflicts : List Conflict) (r : Resolving ε) :
    (conflicts.foldl (Resolving.handle now policy) r).state = conflicts.foldl afterConflict r.state := by
  induction conflicts generalizing r with
  | nil => rfl
  | cons c rest ih => rw [List.foldl_cons, List.foldl_cons, ih, state_handle]

theorem registry_resolve (settings : Settings) (supply : TokenSupply) (survey : ConflictSurvey)
    (policy : ResolutionPolicy) (elements : List ε) :
    (s.resolve settings now supply survey policy elements).state.registry =
      if policy = .manualOnly then s.registry else (survey.conflicts.foldl afterConflict s).registry := by
  have hfinish (r : Resolving ε) : (r.finish settings now).state.registry = r.state.registry := rfl
  simp only [resolve]
  split
  · rfl
  · rw [hfinish, state_foldl_handle]

end Elements

/-! ## Single conflicts -/

/-- A definition is registered in a state that is in order, and formulas reference it or not. -/
structure Stands (s : State) (d : Definition) (unused : Prop) : Prop where
  keyed : s.registry.Keyed
  coherent : s.graph.Coherent
  registered : s.registry.get? d.name = some d
  users : s.graph.users d.name = [] ↔ unused

/-- A definition can take another name: it is not referenced, and the name is free or has its own key. -/
def CanTake (s : State) (d : Definition) (new : String) : Prop :=
  new ≠ d.name ∧ s.graph.users d.name = [] ∧ (keyOf new = d.key ∨ s.registry.contains new = false)

instance (s : State) (d : Definition) (new : String) : Decidable (s.CanTake d new) :=
  inferInstanceAs (Decidable (_ ∧ _))

def Diverts (s : State) (d : Definition) (c : Conflict) : Prop :=
  c.kind = .naming ∧ ∃ new, c.betterName = some new ∧ s.CanTake d new

variable {unused : Prop}

theorem Stands.rename (h : s.Stands d unused) {old new : String} {renamed : Renamed}
    (hok : s.rename old new = .ok renamed) (hold : keyOf old ≠ d.key) : renamed.state.Stands d unused := by
  obtain ⟨d', hd', hfree, -, rfl⟩ := rename_eq_ok hok
  have hother : keyOf d.name ≠ keyOf d'.name := by
    rw [show keyOf d'.name = keyOf old from h.keyed.key_eq hd']
    exact Ne.symm hold
  have hnew : keyOf d.name ≠ keyOf new := by
    intro heq
    rcases hfree with hsame | hnone
    · exact hold (hsame.trans heq.symm)
    · have hnone := SortedMap.contains_eq_false_iff.mp hnone
      rw [← heq] at hnone
      exact absurd (hnone.symm.trans h.registered) (by simp)
  refine ⟨keyed_moveDefinition h.keyed d' new, h.coherent.rename, ?_, ?_⟩
  · rw [get?_moveDefinition, if_neg hnew, if_neg hother, h.registered]
  · exact (Graph.users_rename_eq_nil_iff h.coherent hother hnew).trans h.users

/-- A conflict about another name leaves a definition where it is. -/
theorem Stands.afterConflict (h : s.Stands d unused) (hother : keyOf c.parameter ≠ d.key) :
    (s.afterConflict c).Stands d unused := by
  simp only [State.afterConflict]
  split
  · split
    · split
      · rename_i hok
        exact h.rename hok hother
      · exact h
    · exact h
  · exact h

theorem Stands.foldl_afterConflict (h : s.Stands d unused) {conflicts : List Conflict}
    (hothers : ∀ c ∈ conflicts, keyOf c.parameter ≠ d.key) :
    (conflicts.foldl State.afterConflict s).Stands d unused := by
  induction conflicts generalizing s with
  | nil => exact h
  | cons c rest ih =>
      obtain ⟨hother, hothers⟩ := List.forall_mem_cons.mp hothers
      exact ih (h.afterConflict hother) hothers

theorem Stands.afterConflict_eq (h : s.Stands d unused) (hkey : keyOf c.parameter = d.key) (hnaming : c.kind = .naming)
    {new : String} (hnew : c.betterName = some new) :
    s.afterConflict c = if s.CanTake d new then s.moveDefinition d new else s := by
  have hget : s.registry.get? c.parameter = some d := (Registry.get?_congr hkey).trans h.registered
  have hspelling : (s.registry.spelling? c.parameter).any (· != new) = true ↔ new ≠ d.name := by
    rw [Registry.spelling?, hget, Option.map_some, Option.any_some, bne_iff_ne, ne_comm]
  have hfree : ¬(d.key ≠ keyOf new ∧ s.registry.contains new = true) ↔
      (keyOf new = d.key ∨ s.registry.contains new = false) := by
    rw [not_and_or, not_not, Bool.not_eq_true, eq_comm]
  simp only [State.afterConflict, hnaming, hnew, hspelling, State.rename, hget, hkey]
  by_cases hname : new = d.name
  · rw [if_neg (not_not.mpr hname), if_neg fun hmoves : s.CanTake d new => hmoves.1 hname]
  · by_cases htaken : d.key ≠ keyOf new ∧ s.registry.contains new = true
    · rw [if_pos hname, if_pos htaken, if_neg fun hmoves : s.CanTake d new => hfree.mpr hmoves.2.2 htaken]
    · by_cases husers : s.graph.users d.name = []
      · have hmoves : s.CanTake d new := ⟨hname, husers, hfree.mp htaken⟩
        rw [if_pos hname, if_neg htaken, if_neg (not_not.mpr husers), if_pos hmoves]
      · rw [if_pos hname, if_neg htaken, if_pos husers, if_neg fun hmoves : s.CanTake d new => husers hmoves.2.1]

/-- A conflict about the name of a definition changes nothing, or it gives the definition another name. -/
theorem Stands.afterConflict_of_not_diverts (h : s.Stands d unused) (hkey : keyOf c.parameter = d.key)
    (hdiverts : ¬s.Diverts d c) : s.afterConflict c = s := by
  by_cases hnaming : c.kind = .naming
  · cases hnew : c.betterName with
    | none => simp only [State.afterConflict, hnaming, hnew]
    | some new =>
        rw [h.afterConflict_eq hkey hnaming hnew]
        exact if_neg fun hmoves => hdiverts ⟨hnaming, new, hnew, hmoves⟩
  · simp only [State.afterConflict]
    split
    · exact absurd ‹_› hnaming
    · rfl

theorem Stands.get?_afterConflict_ne (h : s.Stands d unused) (hkey : keyOf c.parameter = d.key)
    (hdiverts : s.Diverts d c) : (s.afterConflict c).registry.get? d.name ≠ some d := by
  obtain ⟨hnaming, new, hnew, hmoves⟩ := hdiverts
  rw [h.afterConflict_eq hkey hnaming hnew, if_pos hmoves, get?_moveDefinition, if_pos rfl]
  split
  · exact fun hsame => hmoves.1 (congrArg Definition.name (Option.some.inj hsame))
  · simp

/-! ## Conflicts one after the other -/

/-- A definition is registered as it is until all conflicts are handled. -/
def KeptThrough (s : State) (d : Definition) (conflicts : List Conflict) : Prop :=
  ∀ init, init <+: conflicts → (init.foldl afterConflict s).registry.get? d.name = some d

theorem keptThrough_cons {rest : List Conflict} : s.KeptThrough d (c :: rest) ↔
    s.registry.get? d.name = some d ∧ (s.afterConflict c).KeptThrough d rest := by
  constructor
  · exact fun h => ⟨h [] (List.nil_prefix), fun init hinit => h (c :: init) (List.cons_prefix_cons.mpr ⟨rfl, hinit⟩)⟩
  · rintro ⟨hstart, hrest⟩ init hinit
    rcases List.prefix_cons_iff.mp hinit with rfl | ⟨tail, rfl, htail⟩
    · exact hstart
    · exact hrest tail htail

theorem Stands.keptThrough (h : s.Stands d unused) {conflicts : List Conflict}
    (hothers : ∀ c ∈ conflicts, keyOf c.parameter ≠ d.key) : s.KeptThrough d conflicts :=
  fun _ hinit => (h.foldl_afterConflict fun c hc => hothers c (hinit.subset hc)).registered

theorem Stands.keptThrough_append_iff (h : s.Stands d unused) {others rest : List Conflict}
    (hothers : ∀ c ∈ others, keyOf c.parameter ≠ d.key) :
    s.KeptThrough d (others ++ rest) ↔ (others.foldl State.afterConflict s).KeptThrough d rest := by
  induction others generalizing s with
  | nil => rfl
  | cons c others ih =>
      obtain ⟨hother, hothers⟩ := List.forall_mem_cons.mp hothers
      rw [List.cons_append, keptThrough_cons, ih (h.afterConflict hother) hothers, and_iff_right h.registered]
      rfl

/-- Conflicts about the name of a definition keep it exactly if none of them gives it another one. -/
theorem Stands.keptThrough_own_iff (h : s.Stands d unused) {own rest : List Conflict}
    (hown : ∀ c ∈ own, keyOf c.parameter = d.key) (hrest : ∀ c ∈ rest, keyOf c.parameter ≠ d.key) :
    s.KeptThrough d (own ++ rest) ↔ ∀ c ∈ own, ¬s.Diverts d c := by
  induction own with
  | nil => exact iff_of_true (h.keptThrough hrest) (by simp)
  | cons c own ih =>
      obtain ⟨hkey, hown⟩ := List.forall_mem_cons.mp hown
      rw [List.cons_append, keptThrough_cons, and_iff_right h.registered, List.forall_mem_cons]
      by_cases hdiverts : s.Diverts d c
      · refine iff_of_false (fun hkept => ?_) fun hnone => hnone.1 hdiverts
        exact h.get?_afterConflict_ne hkey hdiverts (hkept [] List.nil_prefix)
      · rw [h.afterConflict_of_not_diverts hkey hdiverts, ih hown, and_iff_right hdiverts]

/-- In the order of keys, a definition is kept exactly if no conflict about its name gives it another one when its
turn comes. -/
theorem Stands.keptThrough_iff (h : s.Stands d unused) {conflicts : List Conflict}
    (hsorted : conflicts.Pairwise fun a b => keyOf a.parameter ≤ keyOf b.parameter) :
    s.KeptThrough d conflicts ↔ ∀ c ∈ conflicts, keyOf c.parameter = d.key →
      ¬((conflicts.filter (keyOf ·.parameter < d.key)).foldl State.afterConflict s).Diverts d c := by
  let before := conflicts.filter (keyOf ·.parameter < d.key)
  let others := conflicts.filter fun c => !decide (keyOf c.parameter < d.key)
  let own := others.filter (keyOf ·.parameter == d.key)
  let after := others.filter fun c => !(keyOf c.parameter == d.key)
  have hbefore : ∀ c ∈ before, keyOf c.parameter ≠ d.key := fun c hc =>
    ne_of_lt (of_decide_eq_true (List.mem_filter.mp hc).2)
  have hsplit : conflicts = before ++ (own ++ after) := by
    have hfirst : conflicts = before ++ others := by
      refine (filter_append_filter_eq_iff.mpr (hsorted.imp fun {a b} hle hlt => ?_)).symm
      exact decide_eq_true (lt_of_le_of_lt hle (of_decide_eq_true hlt))
    have hsecond : others = own ++ after := by
      refine (filter_append_filter_eq_iff.mpr ((hsorted.filter _).imp_of_mem fun {a b} ha _ hle hb => ?_)).symm
      have hge : ¬keyOf a.parameter < d.key := by simpa using (List.mem_filter.mp ha).2
      exact beq_iff_eq.mpr (le_antisymm (hle.trans_eq (beq_iff_eq.mp hb)) (not_lt.mp hge))
    rw [← hsecond, ← hfirst]
  have hmem : ∀ c, c ∈ own ↔ c ∈ conflicts ∧ keyOf c.parameter = d.key := by
    intro c
    simp only [own, others, List.mem_filter, beq_iff_eq, Bool.not_eq_true', decide_eq_false_iff_not]
    exact ⟨fun hc => ⟨hc.1.1, hc.2⟩, fun hc => ⟨⟨hc.1, hc.2 ▸ lt_irrefl _⟩, hc.2⟩⟩
  have hown : ∀ c ∈ own, keyOf c.parameter = d.key := fun c hc => ((hmem c).mp hc).2
  have hafter : ∀ c ∈ after, keyOf c.parameter ≠ d.key := fun c hc => by
    simpa using (List.mem_filter.mp hc).2
  have hkept : s.KeptThrough d conflicts ↔ ∀ c ∈ own, ¬(before.foldl State.afterConflict s).Diverts d c := by
    rw [hsplit, h.keptThrough_append_iff hbefore, (h.foldl_afterConflict hbefore).keptThrough_own_iff hown hafter]
  simp only [hkept, hmem, and_imp]
  rfl

end State

/-! ## Runs -/

namespace Engine

variable {ε : Type} [ElementAccess ε]

theorem registry_settle (e : Engine) (now : Instant) (survey : ConflictSurvey) (policy : ResolutionPolicy)
    (elements : List ε) : (e.settle now survey policy elements).2.2.state.registry =
      if policy = .manualOnly then e.state.registry
      else (survey.conflicts.foldl State.afterConflict e.state).registry := by
  rw [(moved_settle e now survey policy elements).state, State.registry_resolve]

/-- While conflicts are resolved, a definition stays as it is exactly if nothing may be renamed, or formulas
reference it, or every better name of a spelling that elements carry is its own name or taken by another
definition when its turn comes. -/
theorem kept_settle_iff (settings : Settings) (start : Instant) (supply : TokenSupply)
    (steps : List (Instant × Operation ε)) (now : Instant) (captures : List Capture) (policy : ResolutionPolicy)
    (elements : List ε) (d : Definition)
    (hd : ((fresh settings start supply).run steps).state.registry.get? d.name = some d) :
    let e := (fresh settings start supply).run steps
    let conflicts := (e.survey captures).conflicts
    let settled (part : List Conflict) :=
      (e.settle now { e.survey captures with conflicts := part } policy elements).2.2.state
    let turn := settled (conflicts.filter (keyOf ·.parameter < d.key))
    (∀ init, init <+: conflicts → (settled init).registry.get? d.name = some d) ↔
      policy = .manualOnly ∨ e.state.graph.users d.name ≠ [] ∨
        ∀ capture ∈ captures, ∀ p ∈ capture.parameters, p.key = d.key →
          ∀ new ∈ e.settings.naming.betterName? p.name,
            new = d.name ∨ keyOf new ≠ d.key ∧ turn.registry.contains new = true := by
  intro e conflicts settled turn
  by_cases hpolicy : policy = .manualOnly
  · refine iff_of_true (fun init _ => ?_) (.inl hpolicy)
    simp only [settled, registry_settle, if_pos hpolicy]
    exact hd
  · have hstands : e.state.Stands d (e.state.graph.users d.name = []) :=
      ⟨(keyed_invariant.of_any_run start settings supply steps).registry,
        coherent_invariant.of_any_run start settings supply steps, hd, Iff.rfl⟩
    have hkept : (∀ init, init <+: conflicts → (settled init).registry.get? d.name = some d) ↔
        e.state.KeptThrough d conflicts := by
      simp only [settled, registry_settle, if_neg hpolicy]
      rfl
    have hturn : turn.registry =
        ((conflicts.filter (keyOf ·.parameter < d.key)).foldl State.afterConflict e.state).registry := by
      simp only [turn, settled, registry_settle, if_neg hpolicy]
    have hbefore : ∀ c ∈ conflicts.filter (keyOf ·.parameter < d.key), keyOf c.parameter ≠ d.key := fun c hc =>
      ne_of_lt (of_decide_eq_true (List.mem_filter.mp hc).2)
    have husers := (hstands.foldl_afterConflict hbefore).users
    rw [hkept, hstands.keptThrough_iff (show conflicts.Pairwise _ from ConflictSurvey.pairwise_detect hstands.keyed),
      or_iff_right hpolicy]
    constructor
    · -- a free better name of an unused definition would be taken at its turn
      intro hnone
      refine or_iff_not_imp_left.mpr fun hunused capture hcapture p hp hkey new hnew => ?_
      obtain ⟨c, hc, hnaming, hparameter, hbetter⟩ := ConflictSurvey.exists_mem_detect_iff.mpr
        ⟨⟨capture, hcapture, p, hp, rfl⟩, hnew⟩
      by_contra hfree
      rw [not_or, not_and_or, not_not, Bool.not_eq_true, hturn] at hfree
      exact hnone c hc (hparameter ▸ hkey) ⟨hnaming, new, hbetter, hfree.1, husers.mpr (not_not.mp hunused), hfree.2⟩
    · rintro hall c hc hkey ⟨hnaming, new, hbetter, hne, hunused, hfree⟩
      obtain ⟨⟨capture, hcapture, p, hp, hname⟩, hnew⟩ := ConflictSurvey.exists_mem_detect_iff.mp
        ⟨c, hc, hnaming, rfl, hbetter⟩
      have hpkey : p.key = d.key := (congrArg keyOf hname).trans hkey
      rcases hall with hused | hall
      · exact hused (husers.mp hunused)
      · rcases hall capture hcapture p hp hpkey new (hname ▸ hnew) with hsame | ⟨hother, htaken⟩
        · exact hne hsame
        · rw [hturn] at htaken
          rcases hfree with hsame | hnone
          · exact hother hsame
          · exact absurd (htaken.symm.trans hnone) Bool.noConfusion

/-- A run that registers two names whose words are split differently. -/
def splitRun : List (Instant × Operation LocalElement) :=
  [(⟨0, 0⟩, .create
    { entries := [{ name := "width", kind := "length" }, { name := "wi dth", kind := "length" }] } false)]

/-- The better names of the spellings are registered, so the definition stays. -/
theorem kept_settle_splitRun :
    let e := (fresh {} ⟨0, 0⟩ (.ofSeed 0)).run splitRun
    let captures : List Capture := [⟨"door-1", "Doors", [{ name := "width", kind := .length }]⟩,
      ⟨"door-2", "Doors", [{ name := "wiDth", kind := .length }]⟩]
    let conflicts := (e.survey captures).conflicts
    let settled (part : List Conflict) := (e.settle ⟨1, 0⟩ { e.survey captures with conflicts := part } .mostFrequent
      ([] : List LocalElement)).2.2.state
    conflicts.map (·.betterName) = [some "Width", some "Wi_Dth"] ∧
      ∀ init, init <+: conflicts → (settled init).registry.spelling? "Width" = some "Width" := by
  intro e captures conflicts settled
  let width : Definition :=
    { identity := (TokenSupply.ofSeed 0).token 0, name := "Width", kind := .length, group := "General"
      createdAt := ⟨0, 0⟩ }
  have hkept := (kept_settle_iff {} ⟨0, 0⟩ (.ofSeed 0) splitRun ⟨1, 0⟩ captures .mostFrequent [] width
    (by decide +kernel)).mpr (.inr (.inr (by decide +kernel)))
  exact ⟨by decide +kernel, fun init hinit => congrArg (Option.map Definition.name) (hkept init hinit)⟩

def widthRun : List (Instant × Operation LocalElement) :=
  [(⟨0, 0⟩, .create { entries := [{ name := "width", kind := "length" }] } false)]

/-- A definition whose name follows the convention is renamed after a spelling that an element carries. -/
theorem not_kept_widthRun :
    let e := (fresh {} ⟨0, 0⟩ (.ofSeed 0)).run widthRun
    let door : LocalElement :=
      { id := "door-1", category := "Doors", parameters := [{ name := "wiDth", kind := .length }] }
    let settled := (e.settle ⟨1, 0⟩ (e.survey [door.capture]) .registryAuthoritative [door]).2.2.state
    e.state.registry.names = ["Width"] ∧ (e.settings.naming.validate "Width").isClean = true ∧
      settled.registry.names = ["Wi_Dth"] ∧ settled.registry.contains "Width" = false := by
  decide +kernel

end Engine

end Parametric
