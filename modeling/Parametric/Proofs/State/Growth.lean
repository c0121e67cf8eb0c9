import Parametric.Element.Local
import Parametric.Proofs.History.Growth
import Parametric.Proofs.State.Invariants

/-!
# Histories of states

Whatever is asked of a state, its history only grows, so it is consistent at all times.
-/

namespace Parametric

variable {ε : Type} [ElementAccess ε]

namespace State

variable {s : State} {settings : Settings} {now : Instant}

/-- Every operation leaves the history as it is, or adds records and snapshots to it. -/
theorem leadsTo_perform (action : Action ε) : s.history.LeadsTo (s.perform settings now action).history := by
  have hrefl : s.history.LeadsTo s.history := .refl
  have hstep := s.becomes_perform settings now action
  generalize s.perform settings now action = s' at hstep ⊢
  cases hstep with
  | same | used => exact hrefl
  | created _ hcommitted =>
      obtain ⟨message, hhistory⟩ := hcommitted.history
      rw [hhistory]
      exact hrefl.recordChanges ..
  | compiled _ =>
      rw [history_commitPlan]
      exact hrefl.record ..
  | dropped hdrop =>
      obtain ⟨f, -, rfl⟩ := dropFormula_eq_some hdrop
      exact hrefl.record ..
  | deleted _ _ =>
      simp only
      exact hrefl.recordChanges ..
  | resolved hrenames =>
      rw [hrenames.keeps (P := (·.history = s.history)) rfl fun _ _ _ h => h]
      exact hrefl.recordChanges ..
  | captured => exact hrefl.addSnapshot ..
  | rolledBack _ => exact (hrefl.addSnapshot ..).record ..

/-- Every snapshot of a consistent history passes its check. -/
theorem verify_eq_ok (h : s.history.Consistent) {snapshot : Snapshot} (hm : snapshot ∈ s.history.snapshots) :
    s.verify snapshot.id = .ok () := by
  have hfound : (s.history.snapshot? snapshot.id).isSome = true :=
    List.find?_isSome.mpr ⟨snapshot, hm, by simp⟩
  obtain ⟨found, hfound⟩ := Option.isSome_iff_exists.mp hfound
  simp only [verify, findSnapshot, hfound]
  exact h.numbered.verified found (History.mem_of_snapshot? hfound)

end State

/-! ## Runs -/

theorem consistent_invariant :
    Engine.Invariant (ε := ε) (fun s => s.history.Consistent) fun _ => True where
  start := fun now => .start now
  stored := id
  perform := fun _ _ _ action _ h => (State.leadsTo_perform action).consistent h

namespace Engine

/-- Whatever an engine was asked for, the versions of its history form a chain, its commits and its events
belong together, and its snapshots are numbered and pass their checks. Whatever it is asked for next,
nothing of its history is lost. -/
theorem history_run (settings : Settings) (start : Instant) (supply : TokenSupply)
    (steps : List (Instant × Operation ε)) :
    let e := (fresh settings start supply).run steps
    let h := e.state.history
    h.Chained ∧ h.Accounted ∧ h.Numbered ∧
      (∀ snapshot ∈ h.snapshots, e.state.verify snapshot.id = .ok ()) ∧
      ∀ (now : Instant) (op : Operation ε), (∀ settings, op ≠ .reload settings) →
        let h' := (e.after now op).state.history
        h.snapshots <+: h'.snapshots ∧ h.events <+: h'.events ∧ h.commits <+: h'.commits := by
  intro e h
  have hconsistent : h.Consistent := consistent_invariant.of_any_run start settings supply steps
  refine ⟨hconsistent.chained, hconsistent.accounted, hconsistent.numbered, fun snapshot hm => ?_, ?_⟩
  · exact State.verify_eq_ok hconsistent hm
  · intro now op hop
    rw [(moved_after e now op hop).state]
    exact (State.leadsTo_perform (e.actionOf now op)).isPrefix

/-- A run in which definitions come and go, a formula is compiled to what it was, and a snapshot is brought
back. -/
def returnedRun : List (Instant × Operation LocalElement) :=
  [(⟨0, 0⟩, .create { entries := [{ name := "x", kind := "real" }, { name := "area", kind := "real" }] } false),
    (⟨1, 0⟩, .addSnapshot none), (⟨2, 0⟩, .compile {} "area" "x * x"), (⟨3, 0⟩, .compile {} "area" "x * x"),
    (⟨4, 0⟩, .delete "area" true), (⟨5, 0⟩, .rollback ⟨1⟩)]

/-- The second compilation changes no definition and has a version of its own. The rollback takes a
snapshot, and the deletion after it keeps everything before. -/
theorem history_returnedRun :
    let e := (fresh {} ⟨0, 0⟩ (.ofSeed 0)).run returnedRun
    let h' := (e.after ⟨6, 0⟩ (.delete "x" true : Operation LocalElement)).state.history
    e.state.history.versionTexts = ["0.0.0", "0.1.0", "0.1.1", "0.1.2", "1.0.0", "2.0.0"] ∧
      h'.snapshots.map (·.id.number) = [1, 2] ∧ h'.commits.length = 6 ∧
      e.state.history.commits <+: h'.commits := by
  intro e h'
  have hrun := history_run {} ⟨0, 0⟩ (.ofSeed 0) returnedRun
  obtain ⟨hversions, hnumbers, hlength⟩ :
      e.state.history.versionTexts = ["0.0.0", "0.1.0", "0.1.1", "0.1.2", "1.0.0", "2.0.0"] ∧
        h'.snapshots.map (·.id.number) = [1, 2] ∧ h'.commits.length = 6 := by decide +kernel
  refine ⟨hversions, hnumbers, hlength, ?_⟩
  exact (hrun.2.2.2.2 ⟨6, 0⟩ (.delete "x" true) fun _ => nofun).2.2

end Engine

end Parametric
