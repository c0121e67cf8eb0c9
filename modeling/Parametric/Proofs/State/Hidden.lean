import Parametric.Proofs.State.Shown

/-!
# Hidden formulas

A formula can be compiled before its result is registered. The definition that comes to stand under
the name later, in a batch or by a renaming, does not show it unless it brings a formula along.
-/

namespace Parametric

namespace State

/-- Every formula of the table whose result is registered is shown by the definition. -/
def ShowsFormulas (s : State) : Prop :=
  ∀ f ∈ s.formulas.values, ∀ d ∈ s.registry.get? f.result, d.formula = some f.expression

/-- Some definition shows no formula although the table has one. -/
def Hides (s : State) : Prop := ∃ name, (s.showing name).Hidden

/-- A name that had a formula but no definition has got a definition that shows no formula. -/
def Covers (s s' : State) : Prop :=
  ∃ d ∈ s'.registry.definitions, d.formula = none ∧ s.registry.get? d.name = none ∧
    s.formulas.contains d.key = true

instance (s : State) : Decidable s.ShowsFormulas :=
  inferInstanceAs (Decidable (∀ f ∈ s.formulas.values, ∀ d ∈ s.registry.get? f.result, _))

instance (s s' : State) : Decidable (s.Covers s') :=
  inferInstanceAs (Decidable (∃ d ∈ s'.registry.definitions, _))

variable {s s' : State} {settings : Settings} {now : Instant}

theorem hidden_iff {name : String} : (s.showing name).Hidden ↔
    (∃ d, s.registry.get? name = some d ∧ d.formula = none) ∧
      s.formulas.contains (keyOf name) = true := by
  rw [Showing.Hidden, showing, Showing.of, Option.map_eq_some_iff, SortedMap.contains_iff]
  refine and_congr_right fun _ => ?_
  rw [Ne, Option.map_eq_none_iff, ← Ne, Option.ne_none_iff_exists']
  rfl

theorem showsFormulas_iff (h : s.Backed) : s.ShowsFormulas ↔ ¬s.Hides := by
  constructor
  · rintro hshows ⟨name, hhidden⟩
    obtain ⟨⟨d, hd, hnone⟩, hcontains⟩ := hidden_iff.mp hhidden
    obtain ⟨f, hf⟩ := SortedMap.contains_iff.mp hcontains
    have hresult : s.registry.get? f.result = some d := by
      rw [Registry.get?_congr (h.tabled.formulas hf), hd]
    have htext := hshows f (SortedMap.mem_values_iff.mpr ⟨_, hf⟩) d hresult
    exact absurd (hnone.symm.trans htext) (by simp)
  · intro hhides f hf d hd
    obtain ⟨key, hget⟩ := SortedMap.mem_values_iff.mp hf
    have hformula : s.formulas.formula? f.result = some f := by
      rw [Formulas.formula?, h.tabled.formulas hget, hget]
    cases hshown : d.formula with
    | none =>
        exact absurd ⟨f.result, hidden_iff.mpr
          ⟨⟨d, hd, hshown⟩, SortedMap.contains_iff.mpr ⟨f, hformula⟩⟩⟩ hhides
    | some text =>
        have hget : s.registry.get? f.result = some d := hd
        have htext := h.live f.result text (by simp [showing, Showing.of, hget, hshown])
        rw [← htext, showing, Showing.of, hformula]
        rfl

theorem not_covers_self (hk : s.registry.Keyed) : ¬s.Covers s := by
  rintro ⟨d, hd, -, hnone, -⟩
  exact absurd (hnone.symm.trans ((Registry.mem_definitions_iff hk).mp hd)) (by simp)

theorem covers_of_bare {name : String} (hk : s'.registry.Keyed)
    (hbare : Showing.Bare (s.showing name) (s'.showing name)) (hhidden : (s'.showing name).Hidden) :
    s.Covers s' := by
  obtain ⟨⟨d, hd, hnone⟩, -⟩ := hidden_iff.mp hhidden
  have hkey : keyOf d.name = keyOf name := hk.key_eq hd
  refine ⟨d, (Registry.mem_definitions_iff hk).mpr ((Registry.get?_congr hkey).trans hd), hnone, ?_, ?_⟩
  · rw [Registry.get?_congr hkey]
    exact Option.map_eq_none_iff.mp hbare.1
  · have htext : (s.showing name).text ≠ none := by
      have hafter := hhidden.2
      rwa [hbare.2] at hafter
    obtain ⟨_, htext⟩ := Option.ne_none_iff_exists'.mp htext
    obtain ⟨f, hf, -⟩ := Option.map_eq_some_iff.mp htext
    rw [Definition.key, hkey]
    exact SortedMap.contains_iff.mpr ⟨f, hf⟩

theorem hides_of_covers_of_contains (hk : s'.registry.Keyed) (h : s.Covers s')
    (hcontains : ∀ d, s'.registry.get? d.name = some d → s.registry.get? d.name = none →
      s.formulas.contains d.key = true → s'.formulas.contains d.key = true) : s'.Hides := by
  obtain ⟨d, hd, hshown, hnone, hformula⟩ := h
  have hget := (Registry.mem_definitions_iff hk).mp hd
  exact ⟨d.name, hidden_iff.mpr ⟨⟨d, hget, hshown⟩, hcontains d hget hnone hformula⟩⟩

/-! ## Batches -/

theorem hides_create_of_covers {supply : TokenSupply} {batch : Batch} {cancelled : Bool}
    (hk : (s.create settings now supply batch cancelled).2.1.registry.Keyed)
    (h : s.Covers (s.create settings now supply batch cancelled).2.1) :
    (s.create settings now supply batch cancelled).2.1.Hides := by
  refine hides_of_covers_of_contains hk h fun d _ _ hcontains => ?_
  rcases s.create_cases settings now batch supply cancelled with hs | ⟨entries, -, hcommitted⟩
  · rwa [hs]
  · rw [hcommitted.formulas]
    exact Formulas.contains_putAll hcontains

/-! ## Renamings -/

/-- What is hidden stays hidden, and what is not is hidden only where a formula is covered. -/
theorem hides_rename_iff {old new : String} {renamed : Renamed} (h : s.Backed)
    (hok : s.rename old new = .ok renamed) :
    renamed.state.Hides ↔ s.Hides ∨ s.Covers renamed.state := by
  have hkeyed := (h.rename hok).keyed.registry
  constructor
  · rintro ⟨name, hhidden⟩
    rcases follows_rename h.keyed h.live hok name with hfollows | hbare
    · exact .inl (hfollows.exists_hidden hhidden)
    · exact .inr (covers_of_bare hkeyed hbare hhidden)
  · obtain ⟨d, hget, hfree, -, rfl⟩ := rename_eq_ok hok
    have hkey : keyOf d.name = keyOf old := h.keyed.registry.key_eq hget
    have hd : s.registry.get? d.name = some d := (Registry.get?_congr hkey).trans hget
    rintro (⟨name, hhidden⟩ | hcovers)
    · obtain ⟨⟨d', hd', hshown⟩, hcontains⟩ := hidden_iff.mp hhidden
      by_cases hname : keyOf name = keyOf d.name
      · refine ⟨new, ?_⟩
        obtain ⟨f, hf⟩ := SortedMap.contains_iff.mp (hname ▸ hcontains)
        rw [showing_moveDefinition_self hd hf rfl, showing, ← Showing.of_key hname]
        exact hhidden
      · have hnew : keyOf name ≠ keyOf new := by
          intro heq
          rcases hfree with hsame | hnone
          · exact hname (heq.trans (hsame.symm.trans hkey.symm))
          · have hnone := SortedMap.contains_eq_false_iff.mp hnone
            rw [← heq] at hnone
            exact absurd (hnone.symm.trans hd') (by simp)
        refine ⟨name, ?_⟩
        rw [showing_moveDefinition_of_ne hnew hname]
        exact hhidden
    · refine hides_of_covers_of_contains hkeyed hcovers fun d' hd' hnone hcontains => ?_
      have hnew : d'.key = keyOf new := by
        by_contra hne
        rw [Definition.key] at hne
        rw [get?_moveDefinition, if_neg hne, hnone, ite_self] at hd'
        cases hd'
      refine Formulas.contains_moveResult.mpr ?_
      split
      · exact .inl hnew
      · exact hcontains

section Elements

variable {ε : Type} [ElementAccess ε]

def resolving (s : State) (supply : TokenSupply) (elements : List ε) : Resolving ε :=
  { state := s, supply := supply, elements := elements.map fun e => { element := e } }

/-- The handling of some conflict covers a formula. -/
def ConflictsCover (now : Instant) (policy : ResolutionPolicy) (r : Resolving ε) :
    List Conflict → Prop
  | [] => False
  | c :: rest =>
    r.state.Covers (r.handle now policy c).state ∨
      ConflictsCover now policy (r.handle now policy c) rest

theorem Backed.handle {r : Resolving ε} (h : r.state.Backed) (policy : ResolutionPolicy)
    (c : Conflict) : (r.handle now policy c).state.Backed := by
  rcases handle_cases policy r c with ⟨hs, -⟩ | ⟨old, new, renamed, -, hok, hs, -⟩
  · rwa [hs]
  · rw [hs]
    exact h.rename hok

theorem hides_handle_iff {r : Resolving ε} (h : r.state.Backed) (policy : ResolutionPolicy)
    (c : Conflict) : (r.handle now policy c).state.Hides ↔
      r.state.Hides ∨ r.state.Covers (r.handle now policy c).state := by
  rcases handle_cases policy r c with ⟨hs, -⟩ | ⟨old, new, renamed, -, hok, hs, -⟩
  · rw [hs, or_iff_left (not_covers_self h.keyed.registry)]
  · rw [hs]
    exact hides_rename_iff h hok

theorem hides_handleConflicts_iff {r : Resolving ε} (h : r.state.Backed) (policy : ResolutionPolicy)
    (conflicts : List Conflict) :
    (conflicts.foldl (Resolving.handle now policy) r).state.Hides ↔
      r.state.Hides ∨ ConflictsCover now policy r conflicts := by
  induction conflicts generalizing r with
  | nil => exact (or_iff_left id).symm
  | cons c rest ih =>
      rw [List.foldl_cons, ih (h.handle policy c), hides_handle_iff h, or_assoc, ConflictsCover]

/-- Conflicts that are resolved leave a formula hidden that was so before or that one of them
covers. -/
theorem hides_resolve_iff (h : s.Backed) (supply : TokenSupply) (survey : ConflictSurvey)
    (policy : ResolutionPolicy) (elements : List ε) :
    (s.resolve settings now supply survey policy elements).state.Hides ↔
      s.Hides ∨ policy ≠ .manualOnly ∧
        ConflictsCover now policy (s.resolving supply elements) survey.conflicts := by
  by_cases hpolicy : policy = .manualOnly
  · simp [resolve, hpolicy]
  · have hstate : (s.resolve settings now supply survey policy elements).state.Hides ↔
        (survey.conflicts.foldl (Resolving.handle now policy)
          (s.resolving supply elements)).state.Hides := by
      rw [resolve, if_neg hpolicy]
      rfl
    rw [hstate, hides_handleConflicts_iff (r := s.resolving supply elements) h, and_iff_right hpolicy]
    rfl

end Elements

end State

/-! ## All operations -/

section Actions

variable {ε : Type} [ElementAccess ε] {s : State} {settings : Settings} {now : Instant}

/-- An action covers a formula: a batch that registers its result, or a renaming that takes a
definition to it. -/
def Action.Covers (s : State) (settings : Settings) (now : Instant) : Action ε → Prop
  | .create supply batch cancelled =>
    s.Covers (s.create settings now supply batch cancelled).2.1
  | .resolve supply survey policy elements =>
    policy ≠ .manualOnly ∧
      State.ConflictsCover now policy (s.resolving supply elements) survey.conflicts
  | _ => False

theorem State.hides_of_covers (h : s.Backed) {action : Action ε}
    (hcovers : action.Covers s settings now) : (s.perform settings now action).Hides := by
  cases action with
  | create supply batch cancelled =>
      exact hides_create_of_covers
        (h.keyed.perform (Action.create (ε := ε) supply batch cancelled)).registry hcovers
  | resolve supply survey policy elements =>
      exact (hides_resolve_iff h supply survey policy elements).mpr (.inr hcovers)
  | _ => exact hcovers.elim

/-- Nothing gets hidden, in the state or in snapshots, unless an action covers a formula. -/
theorem State.Shows.of_not_covers (h : s.Shows (¬·.Hidden)) (hb : s.Backed) {action : Action ε}
    (hcovers : ¬action.Covers s settings now) :
    (s.perform settings now action).Shows (¬·.Hidden) := by
  by_cases hallowed : action.KeepsNames
  · refine h.perform hb.keyed hb.tabled ?_ action hallowed ?_
    · intro before x hfollows hnone hhidden
      obtain ⟨other, hother⟩ := hfollows.exists_hidden hhidden
      exact hnone other hother
    · rintro supply batch cancelled rfl name hbare hhidden
      have hkeyed : (s.create settings now supply batch cancelled).2.1.registry.Keyed :=
        (hb.keyed.perform (Action.create (ε := ε) supply batch cancelled)).registry
      exact hcovers (covers_of_bare hkeyed hbare hhidden)
  · cases action with
    | resolve supply survey policy elements =>
        refine Throughout.perform h fun _ name hhidden => ?_
        rcases (hides_resolve_iff hb supply survey policy elements).mp ⟨name, hhidden⟩ with
          ⟨other, hother⟩ | hcover
        · exact h.live other hother
        · exact hcovers hcover
    | _ => exact absurd trivial hallowed

end Actions

/-! ## Runs -/

variable {ε : Type} [ElementAccess ε]

theorem nothingHidden_lasting :
    Engine.Lasting fun s => s.Backed ∧ s.Shows (¬·.Hidden) :=
  backed_lasting.and (State.Throughout.lasting fun _ h => h.2 rfl)

namespace Engine

/-- In a run, every formula of a registered result is shown at all times exactly if nothing that is
done covers a formula. -/
theorem showsFormulas_run_iff (settings : Settings) (start : Instant) (supply : TokenSupply)
    (steps : List (Instant × Operation ε)) :
    (∀ init, init <+: steps → ((fresh settings start supply).run init).state.ShowsFormulas) ↔
      (fresh settings start supply).Along (fun e step =>
        ¬(e.actionOf step.1 step.2).Covers e.state e.settings step.1) steps := by
  refine nothingHidden_lasting.forall_prefix_iff (fun s hs => ?_)
    (fun e step _ hcovers he => ⟨he.state.1.perform _, he.state.2.of_not_covers he.state.1 hcovers⟩)
    (fun e step hcovers he hshows => ?_) (fun _ _ => trivial)
    (nothingHidden_lasting.holds_fresh start settings supply)
  · refine (State.showsFormulas_iff hs.1).mpr ?_
    rintro ⟨name, hhidden⟩
    exact hs.2.live name hhidden
  · exact (State.showsFormulas_iff (he.state.1.perform _)).mp hshows
      (State.hides_of_covers he.state.1 hcovers)

/-- A run in which a formula is compiled, removed and brought back by a rollback after its result was
registered. -/
def earlyRun : List (Instant × Operation LocalElement) :=
  [(⟨0, 0⟩, .create { entries := [{ name := "z", kind := "real" }] } false),
    (⟨1, 0⟩, .compile {} "z" "2"), (⟨2, 0⟩, .addSnapshot none), (⟨3, 0⟩, .dropFormula "z"),
    (⟨4, 0⟩, .rollback ⟨1⟩)]

theorem showsFormulas_earlyRun :
    ∀ init, init <+: earlyRun →
      ((fresh {} ⟨0, 0⟩ (.ofSeed 0)).run init).state.ShowsFormulas := by
  refine (showsFormulas_run_iff {} ⟨0, 0⟩ (.ofSeed 0) earlyRun).mpr ⟨?_, id, id, id, id, trivial⟩
  have hcovers : ¬(State.start ⟨0, 0⟩).Covers ((State.start ⟨0, 0⟩).create {} ⟨0, 0⟩ (.ofSeed 0)
    { entries := [{ name := "z", kind := "real" }] } false).2.1 := by decide +kernel
  exact hcovers

/-- A run that registers a name after a formula of the name was compiled. -/
def lateRun : List (Instant × Operation LocalElement) :=
  [(⟨0, 0⟩, .compile {} "z" "2"),
    (⟨1, 0⟩, .create { entries := [{ name := "z", kind := "real" }] } false)]

/-- The definition shows no formula although the table has one. -/
theorem not_showsFormulas_lateRun :
    let s := ((fresh {} ⟨0, 0⟩ (.ofSeed 0)).run lateRun).state
    (s.registry.get? "z").map (·.formula) = some none ∧
      (s.formulas.formula? "z").map (·.expression) = some "2" ∧ ¬s.ShowsFormulas := by
  decide +kernel

end Engine

end Parametric
