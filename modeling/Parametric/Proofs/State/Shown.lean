import Parametric.Element.Local
import Parametric.Proofs.State.Mirror

/-!
# Shown formulas

The text of a formula stands in the table and in the definition of its result. What a definition
shows is always in the table. The converse fails where a name gets a definition after its formula.
-/

namespace Parametric

/-- What is known of the formula of a name: what its definition shows, if it is registered, and the
text in the table. -/
structure Showing where
  shown : Option (Option String)
  text : Option String

namespace Showing

/-- What a registry and a formula table say about the formula of a name. -/
def of (r : Registry) (t : Formulas) (name : String) : Showing :=
  ⟨(r.get? name).map (·.formula), (t.formula? name).map (·.expression)⟩

/-- What the definition shows is the text in the table. -/
def Backed (x : Showing) : Prop := ∀ text, x.shown = some (some text) → x.text = some text

def Hidden (x : Showing) : Prop := x.shown = some none ∧ x.text ≠ none

/-- What is known of a name is what was known of some name before, or there is nothing to hide. -/
def Follows (before : String → Showing) (x : Showing) : Prop :=
  (∃ other, x = before other) ∨ x.shown = none ∨ x.shown = some x.text

/-- A definition that shows no formula has come to stand under a name. -/
def Bare (before x : Showing) : Prop := before.shown = none ∧ x = ⟨some none, before.text⟩

variable {before : String → Showing} {x : Showing} {name : String}

theorem Follows.backed (h : Follows before x) (hb : ∀ name, (before name).Backed) : x.Backed := by
  rcases h with ⟨other, rfl⟩ | hnone | hsame
  · exact hb other
  · intro text ht
    simp [hnone] at ht
  · intro text ht
    exact Option.some.inj (hsame.symm.trans ht)

theorem Follows.exists_hidden (h : Follows before x) (hx : x.Hidden) :
    ∃ other, (before other).Hidden := by
  rcases h with ⟨other, rfl⟩ | hnone | hsame
  · exact ⟨other, hx⟩
  · exact absurd (hnone.symm.trans hx.1) (by simp)
  · exact absurd (Option.some.inj (hsame.symm.trans hx.1)) hx.2

theorem Bare.backed {y : Showing} (h : Bare y x) : x.Backed := by
  intro text ht
  simp [h.2] at ht

theorem of_congr {r r' : Registry} {t t' : Formulas} (hr : r'.get? name = r.get? name)
    (ht : t'.formula? name = t.formula? name) : of r' t' name = of r t name := by
  rw [of, hr, ht, of]

theorem of_key {r : Registry} {t : Formulas} {other : String} (h : keyOf other = keyOf name) :
    of r t other = of r t name := by
  rw [of, of, Registry.get?_congr h, Formulas.formula?, h, Formulas.formula?]

end Showing

/-! ## Steps -/

namespace State

def showing (s : State) (name : String) : Showing := .of s.registry s.formulas name

variable {s s' : State} {settings : Settings} {now : Instant}

/-! ### Batches -/

/-- A staged entry leaves a definition that shows the formula of the entry, or else what was shown
before. -/
theorem formula_of_writes {e : CheckedEntry} {outcome : StagedAs} {previous current : Option Definition}
    (h : outcome.Writes settings now e previous current) :
    current.map (·.formula) = some (e.formulaText? settings <|> previous.bind (·.formula)) := by
  cases h with
  | created token => simp [CheckedEntry.definition]
  | updated d hd => rfl
  | skipped d hd =>
      have hsame := congrArg Definition.formula (Definition.agreesWith_iff.mp hd)
      exact congrArg some hsame.symm

/-- What the table says about the name of a staged entry is the formula of the entry, if it has one. -/
theorem formula?_of_staged {staging : Staging} {entries : List CheckedEntry} {e : StagedEntry}
    {name : String} (hcommitted : s.Committed settings now staging s')
    (h : staging.Tracks settings now s.registry entries) (he : e ∈ staging.staged)
    (hkey : keyOf e.entry.name = keyOf name) :
    s'.formulas.formula? name =
      (Committing.storedFormula? settings now e.entry <|> s.formulas.formula? name) := by
  have hother : ∀ f ∈ staging.storedFormulas settings now, keyOf f.result = keyOf name →
      Committing.storedFormula? settings now e.entry = some f := by
    intro f hf hk
    obtain ⟨e', he', hstored⟩ := List.mem_filterMap.mp hf
    rw [Committing.result_of_storedFormula? hstored] at hk
    rwa [List.inj_on_of_nodup_map h.keys_nodup he' he (hk.trans hkey.symm)] at hstored
  rw [hcommitted.formulas]
  cases hf : Committing.storedFormula? settings now e.entry with
  | none =>
      refine Formulas.get?_putAll_of_ne fun f hm hk => ?_
      rw [hother f hm hk] at hf
      cases hf
  | some f =>
      have hresult : keyOf f.result = keyOf name := by
        rw [Committing.result_of_storedFormula? hf, hkey]
      exact Formulas.get?_putAll_of_mem (List.mem_filterMap.mpr ⟨e, he, hf⟩) hresult
        fun f' hm hk => Option.some.inj ((hother f' hm hk).symm.trans hf)

/-- What a batch does to a name keeps it backed, or gives it a definition that shows no formula. -/
theorem follows_committed {staging : Staging} {entries : List CheckedEntry}
    (hcommitted : s.Committed settings now staging s')
    (h : staging.Tracks settings now s.registry entries) (name : String) :
    Showing.Follows s.showing (s'.showing name) ∨
      Showing.Bare (s.showing name) (s'.showing name) := by
  by_cases hany : ∃ e ∈ staging.staged, keyOf e.entry.name = keyOf name
  · obtain ⟨e, he, hkey⟩ := hany
    have hshown := formula_of_writes (h.written e he)
    rw [Registry.get?_congr hkey, Registry.get?_congr hkey, ← hcommitted.registry] at hshown
    have htext := formula?_of_staged hcommitted h he hkey
    have hafter : s'.showing name = ⟨_, _⟩ := congrArg₂ Showing.mk hshown (congrArg _ htext)
    rw [hafter]
    cases hf : e.entry.formula with
    | some f => exact .inl (.inr (.inr (by
        simp [CheckedEntry.formulaText?, Committing.storedFormula?, hf])))
    | none =>
        cases hd : s.registry.get? name with
        | none => exact .inr ⟨by simp [showing, Showing.of, hd], by
            simp [CheckedEntry.formulaText?, Committing.storedFormula?, hf, showing, Showing.of]⟩
        | some d => exact .inl (.inl ⟨name, by
            simp [CheckedEntry.formulaText?, Committing.storedFormula?, hf, showing, Showing.of, hd]⟩)
  · have hnone : ∀ e ∈ staging.staged, keyOf e.entry.name ≠ keyOf name := fun e he hkey =>
      hany ⟨e, he, hkey⟩
    refine .inl (.inl ⟨name, Showing.of_congr ?_ ?_⟩)
    · rw [hcommitted.registry, h.untouched name hnone]
    · rw [hcommitted.formulas]
      refine Formulas.get?_putAll_of_ne fun f hf => ?_
      obtain ⟨e, he, hstored⟩ := List.mem_filterMap.mp hf
      rw [Committing.result_of_storedFormula? hstored]
      exact hnone e he

/-! ### Compilations, removals and deletions -/

theorem formula_countUses (names : List String) (name : String) :
    ((s.countUses names).registry.get? name).map (·.formula) =
      (s.registry.get? name).map (·.formula) := by
  have hshape := congrArg (Option.map Definition.formula) (shape_countUses (s := s) names name)
  rw [Option.map_map, Option.map_map] at hshape
  exact hshape

theorem formula_setFormulaText (result text name : String) :
    ((s.setFormulaText result text).1.registry.get? name).map (·.formula) =
      if keyOf name = keyOf result then (s.registry.get? result).map fun _ => some text
      else (s.registry.get? name).map (·.formula) := by
  simp only [setFormulaText]
  split
  · rename_i hnone
    split
    · rename_i hk
      rw [Registry.get?_congr hk, hnone]
      rfl
    · rfl
  · rename_i d hd
    split
    · rename_i hsame
      split
      · rename_i hk
        rw [Registry.get?_congr hk, hd, Option.map_some, Option.map_some, hsame]
      · rfl
    · rw [Registry.get?_modify]
      split
      · rw [hd]
        rfl
      · rfl

theorem formula_commitPlan (p : PlannedFormula) (name : String) :
    ((s.commitPlan settings now p).registry.get? name).map (·.formula) =
      if keyOf name = keyOf p.result then (s.registry.get? p.result).map fun _ => some p.target
      else (s.registry.get? name).map (·.formula) := by
  simp only [commitPlan, record]
  rw [formula_countUses, formula_setFormulaText]
  rfl

theorem follows_commitPlan (p : PlannedFormula) (name : String) :
    Showing.Follows s.showing ((s.commitPlan settings now p).showing name) := by
  rw [showing, Showing.of, formula_commitPlan, formulas_commitPlan, Formulas.formula?,
    SortedMap.get?_insert]
  split
  · cases s.registry.get? p.result with
    | none => exact .inr (.inl rfl)
    | some d => exact .inr (.inr rfl)
  · exact .inl ⟨name, rfl⟩

theorem follows_dropFormula {dropped : String} (ht : s.Tabled)
    (h : s.dropFormula settings now dropped = some s') (name : String) :
    Showing.Follows s.showing (s'.showing name) := by
  obtain ⟨f, hf, rfl⟩ := dropFormula_eq_some h
  rw [showing, Showing.of, Registry.get?_modify, Formulas.formula?, SortedMap.get?_erase,
    ht.formulas hf]
  split
  · cases s.registry.get? f.result with
    | none => exact .inr (.inl rfl)
    | some d => exact .inr (.inr rfl)
  · exact .inl ⟨name, rfl⟩

theorem follows_dropDefinition (d : Definition) (name : String) :
    Showing.Follows s.showing ((s.dropDefinition d).showing name) := by
  by_cases hk : keyOf name = keyOf d.name
  · refine .inr (.inl ?_)
    rw [showing, Showing.of, registry_dropDefinition, Registry.get?_remove, if_pos hk]
    rfl
  · refine .inl ⟨name, Showing.of_congr ?_ ?_⟩
    · rw [registry_dropDefinition, Registry.get?_remove, if_neg hk]
    · simp only [dropDefinition]
      split
      · exact (SortedMap.get?_erase ..).trans (if_neg hk)
      · rfl

/-! ### Renamings -/

theorem get?_moveDefinition (d : Definition) (new name : String) :
    (s.moveDefinition d new).registry.get? name =
      if keyOf name = keyOf new then some { d with name := new }
      else if keyOf name = keyOf d.name then none else s.registry.get? name := by
  rw [moveDefinition, Registry.get?_put, Registry.get?_remove]
  rfl

theorem showing_moveDefinition_self {d : Definition} {f : StoredFormula} {new name : String}
    (hd : s.registry.get? d.name = some d) (hf : s.formulas.formula? d.name = some f)
    (hname : keyOf name = keyOf new) : (s.moveDefinition d new).showing name = s.showing d.name := by
  have htext : (s.moveDefinition d new).formulas.formula? name = some { f with result := new } :=
    (Formulas.get?_moveResult hf).trans (if_pos hname)
  rw [showing, showing, Showing.of, Showing.of, get?_moveDefinition, if_pos hname, htext, hd, hf]
  rfl

theorem showing_moveDefinition_of_ne {d : Definition} {new name : String}
    (hnew : keyOf name ≠ keyOf new) (hold : keyOf name ≠ keyOf d.name) :
    (s.moveDefinition d new).showing name = s.showing name := by
  refine Showing.of_congr ?_ ?_
  · rw [get?_moveDefinition, if_neg hnew, if_neg hold]
  · cases hf : s.formulas.formula? d.name with
    | none => exact congrArg (·.formula? name) (Formulas.moveResult_of_none hf)
    | some f => exact (Formulas.get?_moveResult hf).trans ((if_neg hnew).trans (if_neg hold))

/-- A renaming takes what is known of a name to another one, or gives a definition without a formula
a name that has none. -/
theorem follows_rename {old new : String} {renamed : Renamed} (hk : s.Keyed)
    (hb : ∀ name, (s.showing name).Backed) (hok : s.rename old new = .ok renamed) (name : String) :
    Showing.Follows s.showing (renamed.state.showing name) ∨
      Showing.Bare (s.showing name) (renamed.state.showing name) := by
  obtain ⟨d, hget, hfree, -, rfl⟩ := rename_eq_ok hok
  have hkey : keyOf d.name = keyOf old := hk.registry.key_eq hget
  have hd : s.registry.get? d.name = some d := (Registry.get?_congr hkey).trans hget
  by_cases hnew : keyOf name = keyOf new
  · cases hf : s.formulas.formula? d.name with
    | some f => exact .inl (.inl ⟨d.name, showing_moveDefinition_self hd hf hnew⟩)
    | none =>
        have hshown : d.formula = none := by
          cases hshown : d.formula with
          | none => rfl
          | some text =>
              have htext := hb d.name text (by simp [showing, Showing.of, hd, hshown])
              simp [showing, Showing.of, hf] at htext
        have hafter : (s.moveDefinition d new).showing name = ⟨some none, (s.showing name).text⟩ := by
          rw [showing, Showing.of, get?_moveDefinition, if_pos hnew, Option.map_some, hshown,
            moveDefinition, Formulas.moveResult_of_none hf]
          rfl
        rcases hfree with hsame | hnone
        · refine .inl (.inl ⟨d.name, ?_⟩)
          have hkeys : keyOf name = keyOf d.name := by rw [hnew, hkey, hsame]
          rw [hafter, showing, showing, Showing.of_key hkeys, Showing.of, hd, Option.map_some, hshown]
        · have hname : s.registry.get? name = none := by
            rw [Registry.get?_congr hnew]
            exact SortedMap.contains_eq_false_iff.mp hnone
          exact .inr ⟨by rw [showing, Showing.of, hname]; rfl, hafter⟩
  · by_cases hold : keyOf name = keyOf d.name
    · refine .inl (.inr (.inl ?_))
      rw [showing, Showing.of, get?_moveDefinition, if_neg hnew, if_pos hold]
      rfl
    · exact .inl (.inl ⟨name, showing_moveDefinition_of_ne hnew hold⟩)

/-! ## All operations -/

/-- A property of what is known of all names, in the state and in all snapshots. -/
def Shows (P : Showing → Prop) (s : State) : Prop :=
  s.Throughout fun r t => ∀ name, P (.of r t name)

/-- A property that is passed on with what is known survives all operations that keep names, if it
survives where a batch registers a name without a formula. -/
theorem Shows.perform {ε : Type} [ElementAccess ε] {P : Showing → Prop} (h : s.Shows P) (hk : s.Keyed)
    (ht : s.Tabled)
    (hP : ∀ {before x}, Showing.Follows before x → (∀ name, P (before name)) → P x)
    (action : Action ε) (hallowed : action.KeepsNames)
    (hbare : ∀ supply batch cancelled, action = .create supply batch cancelled → ∀ name,
      Showing.Bare (s.showing name) ((s.perform settings now action).showing name) →
        P ((s.perform settings now action).showing name)) :
    (s.perform settings now action).Shows P := by
  have hlive : ∀ name, P (s.showing name) := h.live
  refine Throughout.perform h fun hkeeps name => ?_
  change P ((s.perform settings now action).showing name)
  have hstep := s.becomes_perform settings now action
  generalize s.perform settings now action = s' at hstep hbare ⊢
  cases hstep with
  | same => exact hlive name
  | created _ hcommitted =>
      rcases follows_committed hcommitted
        (Staging.tracks_ofEntries settings now hk.registry _ _) name with hfollows | hnew
      · exact hP hfollows hlive
      · exact hbare _ _ _ rfl name hnew
  | @compiled _ _ _ checked _ => exact hP (follows_commitPlan checked.plan name) hlive
  | dropped hdrop => exact hP (follows_dropFormula ht hdrop name) hlive
  | @deleted _ _ d _ _ => exact hP (follows_dropDefinition d name) hlive
  | resolved _ => exact hallowed.elim
  | captured | rolledBack _ => exact hkeeps.elim
  | @used names =>
      have hsame : (s.countUses names).showing name = s.showing name := by
        rw [showing, Showing.of, formula_countUses]
        rfl
      exact hsame ▸ hlive name

/-- What definitions show is in the formula table, and all names stand under their keys. -/
structure Backed (s : State) : Prop where
  keyed : s.Keyed
  tabled : s.Tabled
  shows : s.Shows Showing.Backed

namespace Backed

theorem live (h : s.Backed) (name : String) : (s.showing name).Backed := h.shows.live name

theorem rename {old new : String} {renamed : Renamed} (h : s.Backed)
    (hok : s.rename old new = .ok renamed) : renamed.state.Backed := by
  have hshows : ∀ name, (renamed.state.showing name).Backed := by
    intro name
    rcases follows_rename h.keyed h.live hok name with hfollows | hbare
    · exact hfollows.backed h.live
    · exact hbare.backed
  obtain ⟨d, -, -, -, rfl⟩ := rename_eq_ok hok
  exact ⟨⟨keyed_moveDefinition h.keyed.registry d _, h.keyed.snapshots⟩,
    ⟨h.tabled.formulas.moveResult d.name _, h.tabled.snapshots⟩, h.shows.of_snapshots hshows rfl⟩

theorem renames (h : s.Backed) {conflicts : List Conflict} {changes : List Change}
    (hrenames : s.Renames conflicts s' changes) : s'.Backed := by
  induction hrenames with
  | refl => exact h
  | rename _ _ _ hok ih => exact ih.rename hok

variable {ε : Type} [ElementAccess ε]

/-- Every operation keeps what definitions show in the formula table. -/
theorem perform (h : s.Backed) (action : Action ε) : (s.perform settings now action).Backed := by
  refine ⟨h.keyed.perform action, h.tabled.perform action, ?_⟩
  by_cases hallowed : action.KeepsNames
  · exact h.shows.perform h.keyed h.tabled Showing.Follows.backed action hallowed
      fun _ _ _ _ _ hbare => hbare.backed
  · refine Throughout.perform h.shows fun _ => ?_
    have hstep := s.becomes_perform settings now action
    generalize s.perform settings now action = s' at hstep ⊢
    cases hstep with
    | same => exact h.shows.live
    | resolved hrenames => exact (h.renames hrenames).shows.live
    | _ => exact absurd trivial hallowed

end Backed

theorem backed_iff : s.Backed ↔ s.Keyed ∧ s.Tabled ∧ s.Shows Showing.Backed :=
  ⟨fun h => ⟨h.keyed, h.tabled, h.shows⟩, fun ⟨hk, ht, h⟩ => ⟨hk, ht, h⟩⟩

end State

/-! ## Runs -/

variable {ε : Type} [ElementAccess ε]

theorem backed_lasting : Engine.Lasting State.Backed := by
  refine (keyed_lasting.and (tabled_lasting.and ?_)).congr fun _ => State.backed_iff
  refine State.Throughout.lasting fun name text h => ?_
  simp [Showing.of, Registry.get?] at h

theorem backed_invariant : Engine.Invariant (ε := ε) State.Backed fun _ => True where
  toLasting := backed_lasting
  perform := fun _ _ _ action _ h => h.perform action

namespace Engine

/-- Whatever an engine was asked for: the formula that a definition shows is in the table, under the
key of the definition and with a result of that key. -/
theorem shown_run (settings : Settings) (start : Instant) (supply : TokenSupply)
    (steps : List (Instant × Operation ε)) :
    let s := ((fresh settings start supply).run steps).state
    ∀ d ∈ s.registry.definitions, ∀ text, d.formula = some text →
      ∃ f, s.formulas.get? d.key = some f ∧ f.expression = text ∧ keyOf f.result = d.key := by
  intro s d hd text hshown
  have hbacked : s.Backed := backed_invariant.of_any_run start settings supply steps
  have hget := (Registry.mem_definitions_iff hbacked.keyed.registry).mp hd
  have htext := hbacked.live d.name text (by simp [State.showing, Showing.of, hget, hshown])
  obtain ⟨f, hf, hexpression⟩ := Option.map_eq_some_iff.mp htext
  exact ⟨f, hf, hexpression, hbacked.tabled.formulas hf⟩

/-- A run in which a definition loses its formula and gets it back from a snapshot. -/
def restoredRun : List (Instant × Operation LocalElement) :=
  [(⟨0, 0⟩, .create { entries := [{ name := "x", kind := "real" },
      { name := "area", kind := "real", formula := some "x * x" }] } false),
    (⟨1, 0⟩, .addSnapshot none), (⟨2, 0⟩, .dropFormula "area"), (⟨3, 0⟩, .rollback ⟨1⟩)]

theorem shown_restoredRun :
    let s := ((fresh {} ⟨0, 0⟩ (.ofSeed 0)).run restoredRun).state
    ∃ d ∈ s.registry.definitions, d.formula = some "X * X" ∧
      ∃ f, s.formulas.get? d.key = some f ∧ f.expression = "X * X" ∧ keyOf f.result = d.key := by
  intro s
  obtain ⟨d, hd, hshown⟩ : ∃ d ∈ s.registry.definitions, d.formula = some "X * X" := by
    decide +kernel
  exact ⟨d, hd, hshown, shown_run {} ⟨0, 0⟩ (.ofSeed 0) restoredRun d hd "X * X" hshown⟩

end Engine

end Parametric
