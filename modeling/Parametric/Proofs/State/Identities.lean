import Parametric.Proofs.Conflict.Detection
import Parametric.Proofs.Name.Convention
import Parametric.Proofs.State.Labels

/-!
# Names and tokens

Registered names are normalized, and no two definitions have the same token.
-/

namespace Parametric

variable {c : Convention}

/-! ## Registries -/

namespace Registry

/-- Definitions stand under the keys of their names, which are normal, and have tokens of their own. -/
structure Sound (c : Convention) (r : Registry) : Prop where
  keyed : r.Keyed
  normal : ∀ ⦃name d⦄, r.get? name = some d → c.IsNormal d.name
  distinct : ∀ ⦃a b da db⦄, r.get? a = some da → r.get? b = some db → da.identity = db.identity →
    keyOf a = keyOf b

theorem Sound.empty : Sound c {} where
  keyed := .empty
  normal := AllNames.empty
  distinct := Distinct.empty

end Registry

/-! ## Batches -/

namespace State

variable {s : State} {settings : Settings} {now : Instant}

theorem proposal_of_new (hk : s.registry.Keyed) {proposals : List Proposal} {entries : List CheckedEntry}
    (h : s.checkEntries settings proposals = .ok entries) {e : CheckedEntry} (he : e ∈ entries)
    (hnone : s.registry.get? e.name = none) :
    ∃ p ∈ proposals, e.name = settings.naming.normalize p.name ∧ p.nameErrors settings = [] := by
  obtain ⟨hissues, -, rfl⟩ := checkEntries_eq_ok h
  obtain ⟨p, hp, hentry⟩ := List.mem_filterMap.mp he
  have hname := (checked?_eq_some hentry).1
  rw [entryName, Registry.spelling?] at hname
  cases hget : s.registry.get? (settings.naming.normalize p.name) with
  | some d =>
      rw [hget, Option.map_some, Option.getD_some] at hname
      rw [hname, Registry.get?_congr (hk.key_eq hget), hget] at hnone
      cases hnone
  | none =>
      rw [hget, Option.map_none, Option.getD_none] at hname
      have herrors := entryErrors_eq_nil hissues p hp
      simp only [entryErrors, List.append_eq_nil_iff] at herrors
      exact ⟨p, hp, hname, herrors.1.1.1⟩

theorem normal_of_checkEntries (hc : settings.naming.Separates) (hk : s.registry.Keyed)
    {proposals : List Proposal} {entries : List CheckedEntry}
    (h : s.checkEntries settings proposals = .ok entries) {e : CheckedEntry} (he : e ∈ entries)
    (hnone : s.registry.get? e.name = none) : settings.naming.IsNormal e.name := by
  obtain ⟨p, -, hname, herrors⟩ := proposal_of_new hk h he hnone
  rw [hname]
  refine Convention.isNormal_normalize hc fun hempty => ?_
  simp only [Proposal.nameErrors, List.append_eq_nil_iff] at herrors
  obtain ⟨hnames, -⟩ := herrors
  rw [if_pos hempty] at hnames
  split at hnames <;> cases hnames

end State

/-! ## Better names -/

namespace Conflict

variable {conflict : Conflict}

theorem normal_naming? (hc : c.Separates) {spelling : Variant String}
    (h : naming? c spelling = some conflict) {new : String} (hnew : conflict.betterName = some new) :
    c.IsNormal new := by
  simp only [naming?] at h
  split at h
  · cases h
  · cases h
    simp only [Option.ite_none_right_eq_some, Bool.and_eq_true, bne_iff_ne, Option.some.injEq] at hnew
    obtain ⟨⟨hnonempty, -⟩, rfl⟩ := hnew
    exact Convention.isNormal_normalize hc hnonempty

theorem normal_betterName (hc : c.Separates) {captures : List Capture} {r : Registry}
    (h : conflict ∈ (ConflictSurvey.detect captures r c).conflicts) {new : String}
    (hnew : conflict.betterName = some new) : c.IsNormal new := by
  obtain ⟨occurrences, -, hmem⟩ := List.mem_flatMap.mp h
  cases occurrences with
  | nil => cases hmem
  | cons first rest =>
      rcases List.mem_append.mp hmem with hother | hnaming
      · obtain ⟨_, hconcerns⟩ := exists_concerns hother
        rw [hconcerns.betterName_eq] at hnew
        cases hnew
      · obtain ⟨spelling, -, hspelling⟩ := List.mem_filterMap.mp hnaming
        exact normal_naming? hc hspelling hnew

end Conflict

/-! ## All operations -/

section Actions

variable {ε : Type}

/-- Whether an operation keeps to a naming convention: the conflicts that it resolves were detected
under it, and no engine with another one is started. -/
def Operation.KeepsTo (c : Convention) : Operation ε → Prop
  | .settle survey _ _ => ∃ captures r, survey = .detect captures r c
  | .reload settings => settings.naming = c
  | _ => True

theorem Operation.KeepsTo.proposes [ElementAccess ε] {op : Operation ε} (h : op.KeepsTo c)
    (hc : c.Separates) (e : Engine) (now : Instant) : (e.actionOf now op).Proposes c.IsNormal := by
  by_cases hrename : op.MayRename
  · cases op with
    | settle survey policy elements =>
        obtain ⟨captures, r, rfl⟩ := h
        rintro new ⟨conflict, hconflict, hnew⟩
        exact conflict.normal_betterName hc hconflict hnew
    | _ => exact hrename.elim
  · have hkeeps := Operation.within_keepsNames hrename e now
    cases haction : e.actionOf now op with
    | resolve supply survey policy elements =>
        rw [haction] at hkeeps
        exact hkeeps.elim
    | _ => trivial

end Actions

namespace State

variable {s : State} {settings : Settings} {now : Instant}

/-- The registry and the registries of all snapshots are sound. -/
def Sound (c : Convention) (s : State) : Prop := s.Throughout fun r _ => r.Sound c

variable {ε : Type} [ElementAccess ε]

/-- An action whose names are normal keeps all names normal. -/
theorem allNormal_perform (h : s.registry.AllNames settings.naming.IsNormal) (hc : settings.naming.Separates)
    (hk : s.registry.Keyed) {action : Action ε} (hnames : action.Proposes settings.naming.IsNormal)
    (hkeeps : action.KeepsSnapshots) :
    (s.perform settings now action).registry.AllNames settings.naming.IsNormal := by
  cases action with
  | resolve supply survey policy elements =>
      have hstep := s.becomes_perform settings now (.resolve supply survey policy elements)
      generalize s.perform settings now (.resolve supply survey policy elements) = s' at hstep ⊢
      cases hstep with
      | same => exact h
      | resolved hrenames =>
          exact hrenames.keeps (P := (·.registry.AllNames settings.naming.IsNormal)) h
            fun hmem hnew _ hs => hs.move _ (hnames _ ⟨_, hmem, hnew⟩)
  | _ =>
      refine allNames_perform hk h trivial hkeeps fun batch entries hadmits e he hnone _ => ?_
      exact normal_of_checkEntries hc hk hadmits.checked he hnone

/-- An action whose tokens are fresh and whose names are normal keeps the registry sound. -/
theorem Sound.perform (h : s.Sound settings.naming) (hc : settings.naming.Separates) (hk : s.Keyed)
    {action : Action ε} (hfresh : action.DrawsFresh s settings now)
    (hnames : action.Proposes settings.naming.IsNormal) :
    (s.perform settings now action).Sound settings.naming := by
  have hlive : s.registry.Sound settings.naming := h.live
  exact Throughout.perform h fun hkeeps =>
    { keyed := (hk.perform action).registry
      normal := allNormal_perform hlive.normal hc hk.registry hnames hkeeps
      distinct := distinct_perform hk.registry hlive.distinct hfresh hkeeps }

end State

/-! ## Runs -/

theorem sound_lasting (c : Convention) : Engine.Lasting fun s => s.Keyed ∧ s.Sound c :=
  keyed_lasting.and (State.Throughout.lasting .empty)

namespace Engine

variable {ε : Type} [ElementAccess ε]

/-- Under a naming convention whose separator is there and has no letters and digits, as long as all
operations keep to it and all tokens that are drawn for definitions are fresh: every definition stands
under the key of its name, names are not empty and stay as they are when they are normalized, and no
two definitions have the same token. -/
theorem sound_run (settings : Settings) (start : Instant) (supply : TokenSupply)
    (steps : List (Instant × Operation ε)) (hseparates : settings.naming.Separates)
    (hsteps : ∀ step ∈ steps, step.2.KeepsTo settings.naming)
    (hfresh : (fresh settings start supply).Along
      (fun e step => (e.actionOf step.1 step.2).DrawsFresh e.state e.settings step.1) steps) :
    let r := ((fresh settings start supply).run steps).state.registry
    r.Keyed ∧ (∀ d ∈ r.definitions, d.name ≠ "" ∧ settings.naming.normalize d.name = d.name) ∧
      (r.definitions.map (·.identity)).Nodup := by
  intro r
  have halong : (fresh settings start supply).Along (fun e step => e.settings.naming = settings.naming ∧
      step.2.KeepsTo settings.naming ∧
        (e.actionOf step.1 step.2).DrawsFresh e.state e.settings step.1) steps := by
    refine along_iff.mpr fun init step rest heq => ⟨?_, ?_, along_iff.mp hfresh init step rest heq⟩
    · refine setting_run (e := fresh settings start supply) (·.naming) fun step hstep settings' hreload => ?_
      have hkeeps := hsteps step (by simp [heq, hstep])
      rwa [hreload] at hkeeps
    · exact hsteps step (by simp [heq])
  have hsound : r.Sound settings.naming :=
    ((sound_lasting settings.naming).holds_along (fun e step hstep he => by
      obtain ⟨hnaming, hkeeps, hdraws⟩ := hstep
      obtain ⟨hkeyed, hsound⟩ := he.state
      refine ⟨hkeyed.perform _, ?_⟩
      rw [← hnaming] at hseparates hkeeps hsound ⊢
      exact hsound.perform hseparates hkeyed hdraws (hkeeps.proposes hseparates e step.1)) halong
      ((sound_lasting settings.naming).holds_fresh start settings supply)).state.2.live
  refine ⟨hsound.keyed, fun d hd => ?_, Registry.Distinct.identities_nodup hsound.distinct hsound.keyed⟩
  have hnormal := hsound.normal ((Registry.mem_definitions_iff hsound.keyed).mp hd)
  exact ⟨hnormal.nonempty, hnormal.fixed⟩

def doorBatch : Batch where
  entries := [{ name := "door width", kind := "real" },
    { name := "w", kind := "real", identity := some "11111111111141118111111111111111" }]

theorem drawsFresh_doorBatch :
    (Action.create (ε := LocalElement) (.ofSeed 0) doorBatch false).DrawsFresh (State.start ⟨0, 0⟩) {} ⟨0, 0⟩ := by
  intro entries hadmits
  have hdraws : ((State.start ⟨0, 0⟩).checkEntries {} doorBatch.entries).toOption.all (fun entries =>
      Staging.DrawsFresh {} ⟨0, 0⟩ { registry := {}, supply := .ofSeed 0 } entries) = true := by
    decide +kernel
  rw [hadmits.checked] at hdraws
  exact of_decide_eq_true hdraws

/-- A run in which a definition that was renamed gets its old name back, and one that was deleted comes
back with its token. -/
def renamedRun : List (Instant × Operation LocalElement) :=
  [(⟨0, 0⟩, .create doorBatch false), (⟨1, 0⟩, .addSnapshot none),
    (⟨2, 0⟩, .settle (.detect [⟨"door-1", "Doors", [{ name := "DOOR_width", kind := .real }]⟩] {} {})
      .mostFrequent []),
    (⟨3, 0⟩, .delete "w" false), (⟨4, 0⟩, .rollback ⟨1⟩)]

theorem sound_renamedRun :
    Convention.Separates {} ∧ (∀ step ∈ renamedRun, step.2.KeepsTo {}) ∧
      (fresh {} ⟨0, 0⟩ (.ofSeed 0)).Along
        (fun e step => (e.actionOf step.1 step.2).DrawsFresh e.state e.settings step.1) renamedRun ∧
      let r := ((fresh {} ⟨0, 0⟩ (.ofSeed 0)).run renamedRun).state.registry
      r.Keyed ∧ (∀ d ∈ r.definitions, d.name ≠ "" ∧ Convention.normalize {} d.name = d.name) ∧
        (r.definitions.map (·.identity)).Nodup ∧ r.definitions.map (·.name) = ["Door_Width", "W"] := by
  have hseparates : Convention.Separates {} := ⟨by decide, by simp⟩
  have hkeeps : ∀ step ∈ renamedRun, step.2.KeepsTo {} := by
    simp only [renamedRun, List.forall_mem_cons]
    exact ⟨trivial, trivial, ⟨_, _, rfl⟩, trivial, trivial, by simp⟩
  have hfresh : (fresh {} ⟨0, 0⟩ (.ofSeed 0)).Along
      (fun e step => (e.actionOf step.1 step.2).DrawsFresh e.state e.settings step.1) renamedRun := by
    exact ⟨drawsFresh_doorBatch, trivial, trivial, trivial, trivial, trivial⟩
  obtain ⟨hkeyed, hnormal, hnodup⟩ :=
    sound_run {} ⟨0, 0⟩ (.ofSeed 0) renamedRun hseparates hkeeps hfresh
  exact ⟨hseparates, hkeeps, hfresh, hkeyed, hnormal, hnodup, by decide +kernel⟩

end Engine

end Parametric
