import Parametric.Proofs.State.Growth
import Parametric.Proofs.State.Mirror

/-!
# Rollbacks

A rollback puts a snapshot in the place of the registry and of the formula table, and takes a snapshot of
what was there before. So it can be undone by another rollback, also if the store refuses to keep it.
-/

namespace Parametric

namespace State

variable {s s' : State} {settings : Settings} {now : Instant} {id : SnapshotNumber} {target : Snapshot}
  {r : Registry} {t : Formulas}

/-! ## Contents -/

/-- A state consists of a registry and a formula table, with a graph that has the results and the references
of the table, each once, and nothing else. -/
structure Carries (s : State) (r : Registry) (t : Formulas) : Prop where
  registry : s.registry = r
  formulas : s.formulas = t
  results : s.graph.results.keys = t.keys
  edges : ∀ key reference position,
    (key, reference, position) ∈ s.graph.triples ↔ t.Links key reference position
  unique : s.graph.triples.Nodup
  complete : s.graph.triples.length = s.graph.edges.length

/-- Two states have the same registry, the same formula table, and graphs with the same results and edges. -/
structure SameContent (s s' : State) : Prop where
  registry : s.registry = s'.registry
  formulas : s.formulas = s'.formulas
  results : s.graph.results.keys = s'.graph.results.keys
  triples : s.graph.triples.Perm s'.graph.triples

theorem Carries.sameContent (h : s.Carries r t) (h' : s'.Carries r t) : s.SameContent s' where
  registry := h.registry.trans h'.registry.symm
  formulas := h.formulas.trans h'.formulas.symm
  results := h.results.trans h'.results.symm
  triples := by
    refine (List.perm_ext_iff_of_nodup h.unique h'.unique).mpr ?_
    rintro ⟨key, reference, position⟩
    exact (h.edges key reference position).trans (h'.edges key reference position).symm

theorem Mirrored.carries (h : s.Mirrored) (hkeyed : s.formulas.Keyed) : s.Carries s.registry s.formulas := by
  have hmirrors := h.represents.mirrors h.simple hkeyed
  obtain ⟨-, hunique, hlinks⟩ := (Graph.mirrors_iff hkeyed).mp hmirrors
  refine ⟨rfl, rfl, ?_, fun key reference position => ?_, hunique, h.represents.length_triples⟩
  · rw [hmirrors.results, Graph.keys_results_graph hkeyed]
  · rw [Graph.mem_triples, hlinks]

/-! ## Rollbacks of states -/

theorem rollback_of_none (hnone : s.history.snapshot? id = none) :
    s.rollback settings now id = (.unknown id s.versionText, s) := by
  simp only [rollback, hnone]

variable (settings now)

/-- A rollback brings back the content of its snapshot. -/
theorem carries_rollback (hfound : s.history.snapshot? id = some target) (hkeyed : target.formulas.Keyed) :
    (s.rollback settings now id).2.Carries target.registry target.formulas := by
  have hregistry : (s.rollback settings now id).2.registry = target.registry := by
    simp only [rollback, hfound, withSnapshot]
  have hformulas : (s.rollback settings now id).2.formulas = target.formulas := by
    simp only [rollback, hfound, withSnapshot]
  have hgraph : (s.rollback settings now id).2.graph = target.formulas.graph := by
    simp only [rollback, hfound, withSnapshot]
  have hcarries := (Mirrored.of_graph (hformulas ▸ hkeyed) (hformulas ▸ hgraph)).carries (hformulas ▸ hkeyed)
  rwa [hregistry, hformulas] at hcarries

theorem safety_rollback (hn : s.history.Numbered) (hfound : s.history.snapshot? id = some target) :
    ∃ safety, (s.rollback settings now id).1.safety = some safety.id ∧
      (s.rollback settings now id).2.history.snapshot? safety.id = some safety ∧
      safety.registry = s.registry ∧ safety.formulas = s.formulas := by
  let safety : Snapshot := ⟨s.history.nextSnapshot, "safety snapshot before rollback to " ++ id.text, now,
    s.history.revision, s.registry, s.formulas, s.registry.checksum⟩
  refine ⟨safety, ?_, ?_, rfl, rfl⟩
  · simp only [rollback, hfound, safety]
  · simp only [rollback, hfound]
    exact hn.snapshot?_addSnapshot

/-- A rollback to that snapshot brings the content before back, whatever the settings and the time are then. -/
theorem sameContent_undo (hn : s.history.Numbered) (hm : s.Mirrored)
    (hkeyed : s.formulas.Keyed) (hfound : s.history.snapshot? id = some target) :
    ∃ safety, (s.rollback settings now id).1.safety = some safety ∧
      ((s.rollback settings now id).2.history.snapshot? safety).isSome = true ∧
      ∀ settings' now', ((s.rollback settings now id).2.rollback settings' now' safety).2.SameContent s := by
  obtain ⟨safety, hid, hback, hregistry, hformulas⟩ := safety_rollback settings now hn hfound
  refine ⟨safety.id, hid, by rw [hback, Option.isSome_some], fun settings' now' => ?_⟩
  have hcarries := carries_rollback settings' now' hback (hformulas ▸ hkeyed)
  rw [hregistry, hformulas] at hcarries
  exact hcarries.sameContent (hm.carries hkeyed)

end State

/-! ## Rollbacks of engines -/

namespace Engine

variable {e : Engine} {id : SnapshotNumber} {target : Snapshot}

theorem rollback_of_none (now : Instant) (hnone : e.state.history.snapshot? id = none) :
    e.rollback now id = (.unknown id e.state.versionText, e) := by
  simp only [rollback, State.rollback_of_none hnone]
  rfl

/-- The result tells whether the store has kept the rollback; the safety snapshot is the same. -/
theorem result_rollback (now : Instant) (hfound : e.state.history.snapshot? id = some target) :
    (e.rollback now id).1.status = (if e.store.fault = none then .rolledBack else .persistenceFailed) ∧
      (e.rollback now id).1.safety = (e.state.rollback e.settings now id).1.safety := by
  simp only [rollback, State.rollback, hfound, save, Store.write]
  cases e.store.fault <;> exact ⟨rfl, rfl⟩

variable {ε : Type} [ElementAccess ε]

/-- Whatever is created, compiled, removed, deleted, put into snapshots, rolled back or synchronized, as long
as no conflicts are resolved: a rollback to a number without a snapshot changes nothing, and any other one
leaves just the content of its snapshot. Whether or not the store keeps either of them, a rollback to the
snapshot that the first one has taken brings back the content before. -/
theorem rollback_run (settings : Settings) (start : Instant) (supply : TokenSupply)
    (steps : List (Instant × Operation ε)) (hsteps : ∀ step ∈ steps, ¬step.2.MayRename)
    (fault fault' : Option String) (now now' : Instant) (id : SnapshotNumber) :
    let e := ((fresh settings start supply).run steps).after now (.breakStore fault : Operation ε)
    let result := (e.rollback now id).1
    let e' := (e.rollback now id).2
    match e.state.history.snapshot? id with
    | none => result.status = .notFound ∧ e' = e
    | some target =>
      result.status = (if fault = none then .rolledBack else .persistenceFailed) ∧
        e'.state.Carries target.registry target.formulas ∧
        ∃ safety, result.safety = some safety ∧
          let back := (e'.after now' (.breakStore fault' : Operation ε)).rollback now' safety
          back.1.status = (if fault' = none then .rolledBack else .persistenceFailed) ∧
            back.2.state.SameContent e.state := by
  intro e result e'
  have hhistory : e.state.history.Consistent := consistent_invariant.of_any_run start settings supply steps
  obtain ⟨htabled, hmirrored⟩ : e.state.Tabled ∧ e.state.Mirrored := mirrored_run settings start supply hsteps
  cases hfound : e.state.history.snapshot? id with
  | none =>
      have hunknown := rollback_of_none now hfound
      exact ⟨congrArg (·.1.status) hunknown, congrArg Prod.snd hunknown⟩
  | some target =>
      obtain ⟨hstatus, hsafety⟩ := result_rollback now hfound
      have hstate : e'.state = (e.state.rollback e.settings now id).2 := (moved_rollback e now id).state
      obtain ⟨safety, hid, hback, hundo⟩ := State.sameContent_undo e.settings now hhistory.numbered hmirrored
        htabled.formulas hfound
      rw [← hstate] at hback hundo
      obtain ⟨saved, hsaved⟩ := Option.isSome_iff_exists.mp hback
      refine ⟨hstatus, ?_, safety, hsafety.trans hid, ?_⟩
      · rw [hstate]
        exact State.carries_rollback _ _ hfound (htabled.snapshots target (History.mem_of_snapshot? hfound))
      · let e'' := e'.after now' (.breakStore fault' : Operation ε)
        refine ⟨(result_rollback (e := e'') now' hsaved).1, ?_⟩
        rw [(moved_rollback e'' now' safety).state]
        exact hundo e''.settings now'

/-- After the run, the store is full; it has space again only when the rollback is undone. -/
theorem rollback_reworkedRun :
    let e := ((fresh {} ⟨0, 0⟩ (.ofSeed 0)).run reworkedRun).after ⟨9, 0⟩
      (.breakStore (some "disk full") : Operation LocalElement)
    let result := (e.rollback ⟨9, 0⟩ ⟨1⟩).1
    let e' := (e.rollback ⟨9, 0⟩ ⟨1⟩).2
    (result.status = .persistenceFailed ∧ result.safety = some ⟨2⟩) ∧
      e.state.formulas.keys = ["cost", "tax"] ∧ e'.state.formulas.keys = ["area", "z"] ∧
      ((e'.after ⟨10, 0⟩ (.breakStore none : Operation LocalElement)).rollback ⟨10, 0⟩ ⟨2⟩).2.state.SameContent
        e.state := by
  intro e result e'
  have hrun := rollback_run {} ⟨0, 0⟩ (.ofSeed 0) reworkedRun keepsNames_reworkedRun (some "disk full") none ⟨9, 0⟩ ⟨10, 0⟩ ⟨1⟩
  have hvalues : (e.state.history.snapshot? ⟨1⟩).isSome = true ∧
      (result.status = .persistenceFailed ∧ result.safety = some ⟨2⟩) ∧
      e.state.formulas.keys = ["cost", "tax"] ∧ e'.state.formulas.keys = ["area", "z"] := by decide +kernel
  obtain ⟨hsome, hresult, hbefore, hafter⟩ := hvalues
  obtain ⟨target, hfound⟩ := Option.isSome_iff_exists.mp hsome
  refine ⟨hresult, hbefore, hafter, ?_⟩
  simp only [e] at hfound
  simp only [hfound] at hrun
  obtain ⟨-, -, safety, hsafety, -, hback⟩ := hrun
  obtain rfl : safety = ⟨2⟩ := Option.some.inj (hsafety.symm.trans hresult.2)
  exact hback

end Engine

end Parametric
