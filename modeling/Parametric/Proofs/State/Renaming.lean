import Parametric.Element.Local
import Parametric.Proofs.State.Invariants

/-!
# Renamed definitions

A renaming looks at the registry and at the formulas that reference the definition, but its formula
moves too: to a key under which the table and the graph may know something that is not registered.
-/

namespace Parametric

open Relation

namespace State

variable {s : State} {old new : String}

/-- A renaming has kept all formulas but the one of the renamed definition as they were, and the
graph is that of the table and without cycles. -/
structure RenamedSafely (s s' : State) (old : String) : Prop where
  size : s'.formulas.size = s.formulas.size
  others : ∀ {key f}, key ≠ keyOf old → s.formulas.get? key = some f → s'.formulas.get? key = some f
  mirrors : s'.graph.Mirrors s'.formulas
  acyclic : s'.graph.Acyclic

/-- The formula of a name, if it has one, can get another name: there is no formula of that name,
the edges leave one node, and the formula does not reference the other name, directly or not. -/
def CanMove (s : State) (old new : String) : Prop :=
  ∀ f, s.formulas.formula? old = some f → s.formulas.formula? new = none ∧ s.graph.Gathered old ∧
    ¬TransGen s.graph.References (keyOf old) (keyOf new)

theorem RenamedSafely.congr {s' : State} {name : String} (h : s.RenamedSafely s' old)
    (hkey : keyOf old = keyOf name) : s.RenamedSafely s' name where
  size := h.size
  others := by
    rw [← hkey]
    exact h.others
  mirrors := h.mirrors
  acyclic := h.acyclic

theorem exists_rename_eq_ok (h : (s.rename old new).toOption.isSome = true) :
    ∃ renamed, s.rename old new = .ok renamed := by
  cases hok : s.rename old new with
  | error error => simp [hok, Except.toOption] at h
  | ok renamed => exact ⟨renamed, rfl⟩

theorem formulas_moveDefinition (d : Definition) :
    (s.moveDefinition d new).formulas = s.formulas.moveResult d.name new := rfl

theorem graph_moveDefinition (d : Definition) :
    (s.moveDefinition d new).graph = s.graph.rename d.name new := rfl

section

variable (htable : s.formulas.Keyed) (hc : s.graph.Coherent) (hm : s.graph.Mirrors s.formulas)
  (hac : s.graph.Acyclic)
include htable hc hm

theorem mirrors_moveDefinition (d : Definition) (husers : s.graph.users d.name = [])
    (hcan : keyOf d.name = keyOf new ∨ s.CanMove d.name new) :
    (s.moveDefinition d new).graph.Mirrors (s.moveDefinition d new).formulas := by
  rw [formulas_moveDefinition, graph_moveDefinition]
  cases hid : s.graph.node? d.name with
  | none =>
      have hf : s.formulas.formula? d.name = none := by
        by_contra hsome
        obtain ⟨f, hf⟩ := Option.ne_none_iff_exists'.mp hsome
        obtain ⟨id, hid'⟩ := hm.exists_node htable hc hf
        exact absurd (hid.symm.trans hid') (by simp)
      rw [Formulas.moveResult_of_none hf, Graph.rename_of_none hid]
      exact hm
  | some id =>
      refine hm.rename htable hc hid (Graph.target_ne_of_users hc hid husers)
        (hcan.imp_right fun h f hf => (h f hf).1) (hcan.imp_right fun h => ?_)
      cases hf : s.formulas.formula? d.name with
      | none => exact hm.gathered htable hc hf
      | some f => exact (h f hf).2.1

include hac

/-- A formula that can move closes no cycle. -/
theorem acyclic_moveDefinition (d : Definition) (husers : s.graph.users d.name = [])
    (hcan : keyOf d.name = keyOf new ∨ s.CanMove d.name new) :
    (s.moveDefinition d new).graph.Acyclic := by
  rw [graph_moveDefinition]
  cases hid : s.graph.node? d.name with
  | none =>
      rw [Graph.rename_of_none hid]
      exact hac
  | some id =>
      have hunused := Graph.target_ne_of_users hc hid husers
      by_cases hk : keyOf d.name = keyOf new
      · refine hac.of_links fun {key target position} hlink => ?_
        rcases (Graph.links_rename hc hid hunused (.inl hk)).mp hlink with ⟨rfl, hold⟩ | ⟨-, hlink⟩
        · exact hk ▸ hold
        · exact hlink
      · cases hf : s.formulas.formula? d.name with
        | none =>
            have hgathered := hm.gathered htable hc hf
            refine hac.of_links fun {key target position} hlink => ?_
            rcases (Graph.links_rename hc hid hunused (.inr hgathered)).mp hlink with
              ⟨-, hold⟩ | ⟨-, hlink⟩
            · exact absurd hold (hm.not_links htable hf)
            · exact hlink
        | some f =>
            obtain ⟨hnew, hgathered, hway⟩ := hcan.resolve_left hk f hf
            exact (Graph.acyclic_rename_iff hc hac hid hunused hgathered hk
              fun target ⟨_, hlink⟩ => hm.not_links htable hnew hlink).mpr hway

/-- What can move is moved without harm. -/
theorem renamedSafely_of_canMove (d : Definition) (husers : s.graph.users d.name = [])
    (hcan : keyOf d.name = keyOf new ∨ s.CanMove d.name new) :
    s.RenamedSafely (s.moveDefinition d new) d.name := by
  have hfree : keyOf d.name = keyOf new ∨
      ∀ f, s.formulas.formula? d.name = some f → s.formulas.formula? new = none :=
    hcan.imp_right fun h f hf => (h f hf).1
  constructor
  case size =>
    rw [formulas_moveDefinition]
    cases hf : s.formulas.formula? d.name with
    | none => rw [Formulas.moveResult_of_none hf]
    | some f => exact (Formulas.size_moveResult hf).mpr (hfree.imp_right fun h => h f hf)
  case others => exact fun hk hget => Formulas.get?_moveResult_of_ne hfree hk hget
  case mirrors => exact mirrors_moveDefinition htable hc hm d husers hcan
  case acyclic => exact acyclic_moveDefinition htable hc hm hac d husers hcan

/-- What was moved without harm could move. -/
theorem canMove_of_renamedSafely (d : Definition) (husers : s.graph.users d.name = [])
    (hne : keyOf d.name ≠ keyOf new)
    (hsafe : s.RenamedSafely (s.moveDefinition d new) d.name) : s.CanMove d.name new := by
  intro f hf
  obtain ⟨id, hid⟩ := hm.exists_node htable hc hf
  have hunused := Graph.target_ne_of_users hc hid husers
  have hnew : s.formulas.formula? new = none :=
    ((Formulas.size_moveResult hf).mp hsafe.size).resolve_left hne
  have hgathered : s.graph.Gathered d.name := by
    intro edge hmem hsource
    by_contra hother
    obtain ⟨target, htarget⟩ := hc.target_known edge hmem
    -- An edge of another node stays under the old key, where the table has nothing any more.
    have hstays : (s.graph.rename d.name new).Links (keyOf d.name) target edge.position := by
      refine ⟨edge, by rwa [Graph.edges_rename], ?_, ?_, rfl⟩
      · have hs : edge.source ≠ id := by
          rintro rfl
          exact hother hid
        rw [Graph.keyAt?_rename hc hid, if_neg hs, hsource]
      · rw [Graph.keyAt?_rename hc hid, if_neg (hunused edge hmem), htarget]
    obtain ⟨f', hf', -⟩ := (hsafe.mirrors.links_iff (htable.moveResult d.name new)).mp hstays
    rw [formulas_moveDefinition, Formulas.get?_moveResult hf, if_neg hne, if_pos rfl] at hf'
    cases hf'
  exact ⟨hnew, hgathered, (Graph.acyclic_rename_iff hc hac hid hunused hgathered hne
    fun target ⟨_, hlink⟩ => hm.not_links htable hnew hlink).mp hsafe.acyclic⟩

theorem renamedSafely_iff {renamed : Renamed} (hregistry : s.registry.Keyed)
    (hok : s.rename old new = .ok renamed) :
    s.RenamedSafely renamed.state old ↔ keyOf old = keyOf new ∨ s.CanMove old new := by
  obtain ⟨d, hd, -, husers, rfl⟩ := rename_eq_ok hok
  have hkey : keyOf d.name = keyOf old := hregistry.key_eq hd
  have hsafe : s.RenamedSafely (s.moveDefinition d new) old ↔
      s.RenamedSafely (s.moveDefinition d new) d.name :=
    ⟨fun h => h.congr hkey.symm, fun h => h.congr hkey⟩
  have hcan : s.CanMove old new ↔ s.CanMove d.name new := by
    simp only [CanMove, Graph.Gathered, Formulas.formula?, Graph.node?, hkey]
  rw [hsafe, hcan, ← hkey]
  refine ⟨fun h => or_iff_not_imp_left.mpr fun hne => ?_, fun h => ?_⟩
  · exact canMove_of_renamedSafely htable hc hm hac d husers hne h
  · exact renamedSafely_of_canMove htable hc hm hac d husers h

end

end State

namespace Engine

variable {ε : Type} [ElementAccess ε]

/-- Whatever led to an engine whose graph is that of its formula table and has no cycles: a renaming
that is not refused does no harm exactly if the key stays, or the formula can move. -/
theorem renamedSafely_rename_iff (settings : Settings) (start : Instant) (supply : TokenSupply)
    (steps : List (Instant × Operation ε)) (old new : String) (renamed : Renamed)
    (hm : ((fresh settings start supply).run steps).state.graph.Mirrors
      ((fresh settings start supply).run steps).state.formulas)
    (hac : ((fresh settings start supply).run steps).state.graph.Acyclic)
    (hok : ((fresh settings start supply).run steps).state.rename old new = .ok renamed) :
    let s := ((fresh settings start supply).run steps).state
    s.RenamedSafely renamed.state old ↔ keyOf old = keyOf new ∨ s.CanMove old new :=
  State.renamedSafely_iff (tabled_invariant.of_any_run start settings supply steps).formulas
    (coherent_invariant.of_any_run start settings supply steps) hm hac
    (keyed_invariant.of_any_run start settings supply steps).registry hok

def chainRun : List (Instant × Operation LocalElement) :=
  [(⟨0, 0⟩, .create { entries := [{ name := "a", kind := "real" },
      { name := "b", kind := "real", formula := some "a" }] } false)]

theorem renamedSafely_chainRun :
    let s := ((fresh {} ⟨0, 0⟩ (.ofSeed 0)).run chainRun).state
    ∃ renamed, s.rename "b" "c" = .ok renamed ∧ s.RenamedSafely renamed.state "b" := by
  intro s
  have hgraph : s.graph = ({} : Graph).setReferences "B" ["A"] := by decide +kernel
  have hac : s.graph.Acyclic := by
    rw [hgraph]
    exact Graph.acyclic_setReferences .empty Graph.acyclic_empty (by decide +kernel) fun _ => id
  obtain ⟨renamed, hok⟩ : ∃ renamed, s.rename "b" "c" = .ok renamed :=
    State.exists_rename_eq_ok (by decide +kernel)
  refine ⟨renamed, hok, (renamedSafely_rename_iff {} ⟨0, 0⟩ (.ofSeed 0) chainRun "b" "c" renamed
    ⟨by decide +kernel, by decide +kernel⟩ hac hok).mpr (.inr fun f _ => ⟨by decide +kernel, ?_, ?_⟩)⟩
  · have hedges : ∀ edge ∈ s.graph.edges, s.graph.keyAt? edge.source = some (keyOf "b") →
        s.graph.node? "b" = some edge.source := by decide +kernel
    exact hedges
  · have htargets : ∀ edge ∈ s.graph.edges, s.graph.keyAt? edge.target ≠ some (keyOf "c") := by
      decide +kernel
    intro hway
    obtain ⟨_, -, _, edge, hm, -, htarget, -⟩ := TransGen.tail'_iff.mp hway
    exact htargets edge hm htarget

/-- A run that leaves a formula with an unknown name, and then a formula of that name. -/
def takenRun : List (Instant × Operation LocalElement) :=
  [(⟨0, 0⟩, .create { entries := [
      { name := "a", kind := "real", formula := some "b", allowMissing := true }] } false),
    (⟨1, 0⟩, .compile {} "b" "2")]

/-- A renaming to a name that is not registered can replace the formula of that name and close a
cycle. -/
theorem not_renamedSafely_takenRun :
    let s := ((fresh {} ⟨0, 0⟩ (.ofSeed 0)).run takenRun).state
    s.graph.Mirrors s.formulas ∧ s.graph.Acyclic ∧ ∃ renamed, s.rename "a" "b" = .ok renamed ∧
      renamed.state.formulas.size < s.formulas.size ∧ ¬renamed.state.graph.Acyclic ∧
      ¬s.RenamedSafely renamed.state "a" := by
  intro s
  have hgraph : s.graph = (({} : Graph).setReferences "A" ["b"]).setReferences "b" [] := by
    decide +kernel
  have hac : s.graph.Acyclic := by
    rw [hgraph]
    refine Graph.acyclic_setReferences Graph.WellFormed.empty.setReferences ?_ (by decide +kernel)
      fun _ => id
    exact Graph.acyclic_setReferences .empty Graph.acyclic_empty (by decide +kernel) fun _ => id
  have hmoved : (s.rename "a" "b").toOption.map (fun r => (r.state.formulas.size, r.state.graph)) =
      some (1, s.graph.rename "a" "b") := by decide +kernel
  obtain ⟨renamed, hok⟩ : ∃ renamed, s.rename "a" "b" = .ok renamed :=
    State.exists_rename_eq_ok (by decide +kernel)
  simp only [hok, Except.toOption, Option.map_some, Option.some.injEq, Prod.mk.injEq] at hmoved
  have hsize : renamed.state.formulas.size < s.formulas.size := by
    rw [hmoved.1]
    decide +kernel
  have hcycle : ¬renamed.state.graph.Acyclic := by
    rw [hmoved.2]
    have hloop : (s.graph.rename "a" "b").References "b" "b" :=
      ⟨0, ⟨0, 1, 0⟩, by decide +kernel, by decide +kernel, by decide +kernel, rfl⟩
    exact fun h => h "b" (.single hloop)
  exact ⟨⟨by decide +kernel, by decide +kernel⟩, hac, renamed, hok, hsize, hcycle,
    fun h => hcycle h.acyclic⟩

end Engine

end Parametric
