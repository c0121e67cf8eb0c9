import Parametric.Element.Local
import Parametric.Proofs.Conflict.Kept
import Parametric.Proofs.State.Labels

/-!
# Lengths of names

A batch leaves names alone that are too long, and so does all that is turned into batches. Conflicts do not ask: they
give a definition the better name of a spelling that elements carry, which may be longer than the spelling.
-/

namespace Parametric

/-! ## Conflicts -/

namespace State

variable {s : State} {c : Conflict} {new : String} {P : String → Prop}

/-- A conflict gives a definition another name. -/
def Gives (s : State) (c : Conflict) (new : String) : Prop :=
  c.kind = .naming ∧ c.betterName = some new ∧ ∃ d, s.registry.get? c.parameter = some d ∧ s.CanTake d new

/-- The registry has its definitions under their keys and the graph is coherent. -/
structure Ordered (s : State) : Prop where
  keyed : s.registry.Keyed
  coherent : s.graph.Coherent

namespace Ordered

theorem stands (h : s.Ordered) {d : Definition} (hd : s.registry.get? c.parameter = some d) :
    s.Stands d (s.graph.users d.name = []) where
  keyed := h.keyed
  coherent := h.coherent
  registered := (Registry.get?_congr (h.keyed.key_eq hd)).trans hd
  users := Iff.rfl

theorem afterConflict_of_gives (h : s.Ordered) (hgives : s.Gives c new) :
    ∃ d, s.afterConflict c = s.moveDefinition d new := by
  obtain ⟨hnaming, hnew, d, hd, htake⟩ := hgives
  have hkey : keyOf c.parameter = d.key := (h.keyed.key_eq hd).symm
  exact ⟨d, ((h.stands hd).afterConflict_eq hkey hnaming hnew).trans (if_pos htake)⟩

theorem afterConflict_of_not_gives (h : s.Ordered) (hgives : ∀ new, ¬s.Gives c new) : s.afterConflict c = s := by
  cases hd : s.registry.get? c.parameter with
  | none =>
      have hspelling : s.registry.spelling? c.parameter = none := by rw [Registry.spelling?, hd, Option.map_none]
      simp only [afterConflict, hspelling, Option.any_none, Bool.false_eq_true, ↓reduceIte]
      split <;> rfl
  | some d =>
      refine (h.stands hd).afterConflict_of_not_diverts (h.keyed.key_eq hd).symm ?_
      rintro ⟨hnaming, new, hnew, htake⟩
      exact hgives new ⟨hnaming, hnew, d, hd, htake⟩

theorem afterConflict (h : s.Ordered) (c : Conflict) : (s.afterConflict c).Ordered := by
  by_cases hgives : ∃ new, s.Gives c new
  · obtain ⟨new, hgives⟩ := hgives
    obtain ⟨d, hs⟩ := h.afterConflict_of_gives hgives
    rw [hs]
    exact ⟨keyed_moveDefinition h.keyed d new, h.coherent.rename⟩
  · rwa [h.afterConflict_of_not_gives fun new hnew => hgives ⟨new, hnew⟩]

theorem foldl_afterConflict (h : s.Ordered) (conflicts : List Conflict) :
    (conflicts.foldl State.afterConflict s).Ordered := by
  induction conflicts generalizing s with
  | nil => exact h
  | cons c rest ih => exact ih (h.afterConflict c)

theorem of_allNames_afterConflict (h : s.Ordered) (hgives : s.Gives c new)
    (hall : (s.afterConflict c).registry.AllNames P) : P new := by
  obtain ⟨d, hs⟩ := h.afterConflict_of_gives hgives
  rw [hs] at hall
  refine hall (?_ : (s.moveDefinition d new).registry.get? new = some { d with name := new })
  rw [get?_moveDefinition, if_pos rfl]

/-- Names keep a property while conflicts are handled if each conflict gives only names with the property when its
turn comes. -/
theorem allNames_foldl_afterConflict (h : s.Ordered) (hall : s.registry.AllNames P) {conflicts : List Conflict}
    (hgiven : ∀ init c, init ++ [c] <+: conflicts → ∀ new, (init.foldl State.afterConflict s).Gives c new → P new) :
    (conflicts.foldl State.afterConflict s).registry.AllNames P := by
  induction conflicts using List.reverseRecOn with
  | nil => exact hall
  | append_singleton init c ih =>
      have hinit := ih fun part c' hpart => hgiven part c' (hpart.trans (List.prefix_append init [c]))
      have hordered := h.foldl_afterConflict init
      rw [List.foldl_concat]
      by_cases hgives : ∃ new, (init.foldl State.afterConflict s).Gives c new
      · obtain ⟨new, hgives⟩ := hgives
        obtain ⟨d, hs⟩ := hordered.afterConflict_of_gives hgives
        rw [hs]
        exact hinit.move d (hgiven init c (List.prefix_refl _) new hgives)
      · rwa [hordered.afterConflict_of_not_gives fun new hnew => hgives ⟨new, hnew⟩]

end Ordered

end State

/-! ## Operations -/

variable {ε : Type}

/-- An operation that is broken off after a number of conflicts. -/
def Operation.upTo (count : Nat) : Operation ε → Operation ε
  | .settle survey policy elements =>
    .settle { survey with conflicts := survey.conflicts.take count } policy elements
  | op => op

namespace Engine

/-- No name is longer than names may be. -/
def Fits (e : Engine) : Prop :=
  ∀ d ∈ e.state.registry.definitions, d.name.length ≤ e.settings.naming.maxLength

instance (e : Engine) : Decidable e.Fits := inferInstanceAs (Decidable (∀ d ∈ _, _))

/-- An operation resolves a conflict that gives a definition, when its turn comes, a name that is too long. -/
def Outgrows (e : Engine) : Operation ε → Prop
  | .settle survey policy _ => policy ≠ .manualOnly ∧ ∃ init c, init ++ [c] <+: survey.conflicts ∧
    ∃ new, (init.foldl State.afterConflict e.state).Gives c new ∧ e.settings.naming.maxLength < new.length
  | _ => False

variable {e : Engine} {op : Operation ε} {count : Nat}

theorem Outgrows.of_upTo (h : e.Outgrows (op.upTo count)) : e.Outgrows op := by
  cases op with
  | settle survey policy elements =>
      obtain ⟨hpolicy, init, c, hinit, hgiven⟩ := h
      exact ⟨hpolicy, init, c, hinit.trans (List.take_prefix _ _), hgiven⟩
  | _ => exact h

theorem reload_of_upTo {settings : Settings} (h : op.upTo count = .reload settings) : op = .reload settings := by
  cases op with
  | settle survey policy elements => cases h
  | _ => exact h

theorem fits_iff (hk : e.state.registry.Keyed) :
    e.Fits ↔ e.state.registry.AllNames (·.length ≤ e.settings.naming.maxLength) := by
  constructor
  · intro h name d hd
    exact h d (SortedMap.mem_values_iff.mpr ⟨_, hd⟩)
  · intro h d hd
    exact h ((Registry.mem_definitions_iff hk).mp hd)

variable [ElementAccess ε]

/-- Names keep to a limit as long as the operation does not outgrow it. -/
theorem short_perform (now : Instant) (hordered : e.state.Ordered)
    (hshort : e.state.registry.AllNames (·.length ≤ e.settings.naming.maxLength)) (hop : ¬e.Outgrows op)
    (hkeeps : (e.actionOf now op).KeepsSnapshots) :
    (e.state.perform e.settings now (e.actionOf now op)).registry.AllNames
      (·.length ≤ e.settings.naming.maxLength) := by
  by_cases hrename : op.MayRename
  · cases op with
    | settle survey policy elements =>
        simp only [actionOf, State.perform, State.registry_resolve]
        split
        · exact hshort
        · rename_i hpolicy
          refine hordered.allNames_foldl_afterConflict hshort fun init c hinit new hgives => ?_
          by_contra hlong
          exact hop ⟨hpolicy, init, c, hinit, new, hgives, Nat.lt_of_not_le hlong⟩
    | _ => exact hrename.elim
  · exact State.allNames_perform hordered.keyed hshort (Operation.within_keepsNames hrename e now) hkeeps
      fun _ _ _ _ _ _ hlength => hlength

/-- A conflict that gives a definition a name that is too long leaves it registered. -/
theorem not_fits_of_outgrows (now : Instant) (hordered : e.state.Ordered) (hop : e.Outgrows op) :
    ∃ count, ¬(e.after now (op.upTo count)).Fits := by
  cases op with
  | settle survey policy elements =>
      obtain ⟨hpolicy, init, c, hinit, new, hgives, hlong⟩ := hop
      refine ⟨(init ++ [c]).length, fun hfits => Nat.not_le_of_lt hlong ?_⟩
      have hturn := hordered.foldl_afterConflict init
      let part : ConflictSurvey := { survey with conflicts := init ++ [c] }
      have hafter : e.after now ((Operation.settle survey policy elements).upTo (init ++ [c]).length) =
          (e.settle now part policy elements).2.2 := by
        rw [Operation.upTo, ← List.prefix_iff_eq_take.mp hinit, after]
      have hregistry := registry_settle e now part policy elements
      rw [if_neg hpolicy, List.foldl_concat] at hregistry
      rw [hafter, fits_iff (hregistry ▸ (hturn.afterConflict c).keyed), hregistry,
        (moved_settle e now part policy elements).settings] at hfits
      exact hturn.of_allNames_afterConflict hgives hfits
  | _ => exact hop.elim

/-! ## Runs -/

theorem short_lasting (limit : Nat) : Lasting fun s =>
    (s.Keyed ∧ s.graph.Coherent) ∧ s.Throughout fun r _ => r.AllNames (·.length ≤ limit) :=
  (keyed_lasting.and (coherent_invariant (ε := LocalElement)).toLasting).and (State.Throughout.lasting .empty)

/-- No name is longer than names may be as long as no operation outgrows the limit, which stays the same. -/
theorem fits_run (settings : Settings) (start : Instant) (supply : TokenSupply)
    (steps : List (Instant × Operation ε)) (hlimit : ∀ step ∈ steps, ∀ settings', step.2 = .reload settings' →
      settings'.naming.maxLength = settings.naming.maxLength)
    (hsteps : (fresh settings start supply).Along (fun e step => ¬e.Outgrows step.2) steps) :
    ((fresh settings start supply).run steps).Fits := by
  have hmax {init : List (Instant × Operation ε)} (hinit : ∀ step ∈ init, step ∈ steps) :
      ((fresh settings start supply).run init).settings.naming.maxLength = settings.naming.maxLength :=
    setting_run (·.naming.maxLength) fun step hstep => hlimit step (hinit step hstep)
  have halong : (fresh settings start supply).Along (fun e step =>
      e.settings.naming.maxLength = settings.naming.maxLength ∧ ¬e.Outgrows step.2) steps :=
    along_iff.mpr fun init step rest heq =>
      ⟨hmax fun step hstep => by simp [heq, hstep], along_iff.mp hsteps init step rest heq⟩
  have hholds := (short_lasting settings.naming.maxLength).holds_along (fun e step hstep he => by
    obtain ⟨hlimit, hop⟩ := hstep
    obtain ⟨⟨hkeyed, hcoherent⟩, hshort⟩ := he.state
    refine ⟨⟨hkeyed.perform _, State.coherent_perform hcoherent _⟩, hshort.perform fun hkeeps => ?_⟩
    have hlive := hshort.live
    rw [← hlimit] at hlive ⊢
    exact short_perform step.1 ⟨hkeyed.registry, hcoherent⟩ hlive hop hkeeps) halong
    ((short_lasting _).holds_fresh start settings supply)
  obtain ⟨⟨hkeyed, -⟩, hshort⟩ := hholds.state
  rw [fits_iff hkeyed.registry, hmax fun _ hstep => hstep]
  exact hshort.live

/-- As long as the limit stays the same: no name is ever longer than names may be, also not between two conflicts that
are resolved together, exactly if no conflict gives a definition a name that is too long when its turn comes. -/
theorem fits_run_iff (settings : Settings) (start : Instant) (supply : TokenSupply)
    (steps : List (Instant × Operation ε)) (hlimit : ∀ step ∈ steps, ∀ settings', step.2 = .reload settings' →
      settings'.naming.maxLength = settings.naming.maxLength) :
    (fresh settings start supply).Along (fun e step => ∀ count, (e.after step.1 (step.2.upTo count)).Fits) steps ↔
      (fresh settings start supply).Along (fun e step => ¬e.Outgrows step.2) steps := by
  constructor
  · refine fun hfits => along_iff.mpr fun init step rest heq hop => ?_
    have hordered : ((fresh settings start supply).run init).state.Ordered :=
      ⟨(keyed_invariant.of_any_run start settings supply init).registry,
        coherent_invariant.of_any_run start settings supply init⟩
    obtain ⟨count, hnot⟩ := not_fits_of_outgrows step.1 hordered hop
    exact hnot (along_iff.mp hfits init step rest heq count)
  · refine fun hnot => along_iff.mpr fun init step rest heq count => ?_
    -- The operation that is broken off is the last one of a run of its own.
    obtain ⟨hinit, hstep, -⟩ := along_append.mp (heq ▸ hnot)
    have hfits := fits_run settings start supply (init ++ [(step.1, step.2.upTo count)]) ?_
      (along_append.mpr ⟨hinit, fun hop => hstep hop.of_upTo, trivial⟩)
    · rwa [run, List.foldl_concat] at hfits
    · intro other hmem settings' hreload
      rcases List.mem_append.mp hmem with hmem | hmem
      · exact hlimit other (by simp [heq, hmem]) settings' hreload
      · rw [List.mem_singleton.mp hmem] at hreload
        exact hlimit step (by simp [heq]) settings' (reload_of_upTo hreload)

def limitedTo (limit : Nat) : Settings := { naming := { maxLength := limit } }

/-- A run in which a name gets longer and the limit stays the same. -/
def longerRun : List (Instant × Operation LocalElement) :=
  [(⟨0, 0⟩, .create { entries := [{ name := "width", kind := "length" }] } false), (⟨1, 0⟩, .reload (limitedTo 6)),
    (⟨2, 0⟩, .settle (.detect [⟨"door-1", "Doors", [{ name := "wiDth", kind := .length }]⟩] {} {}) .mostFrequent [])]

theorem fits_longerRun :
    (∀ step ∈ longerRun, ∀ settings, step.2 = .reload settings → settings.naming.maxLength = 6) ∧
      ((fresh (limitedTo 6) ⟨0, 0⟩ (.ofSeed 0)).run longerRun).state.registry.names = ["Wi_Dth"] ∧
      (fresh (limitedTo 6) ⟨0, 0⟩ (.ofSeed 0)).Along
        (fun e step => ∀ count, (e.after step.1 (step.2.upTo count)).Fits) longerRun := by
  have hlimit : ∀ step ∈ longerRun, ∀ settings, step.2 = .reload settings → settings.naming.maxLength = 6 := by
    simp only [longerRun, List.forall_mem_cons, reduceCtorEq, Operation.reload.injEq, forall_eq', List.not_mem_nil,
      IsEmpty.forall_iff, implies_true, and_true, true_and]
    rfl
  refine ⟨hlimit, by decide +kernel, (fits_run_iff (limitedTo 6) ⟨0, 0⟩ (.ofSeed 0) longerRun hlimit).mpr ?_⟩
  have hshort : ∀ c ∈ (ConflictSurvey.detect
      [⟨"door-1", "Doors", [{ name := "wiDth", kind := .length }]⟩] {} {}).conflicts,
      ∀ new ∈ c.betterName, new.length ≤ 6 := by
    decide +kernel
  refine ⟨id, id, ?_, trivial⟩
  rintro ⟨-, init, c, hinit, new, ⟨-, hnew, -⟩, hlong⟩
  exact Nat.not_le_of_lt hlong (hshort c (hinit.subset (by simp)) new hnew)

/-- A name of five characters becomes one of six, where five are allowed. -/
theorem not_fits_widthRun :
    let e := (fresh (limitedTo 5) ⟨0, 0⟩ (.ofSeed 0)).run widthRun
    let door : LocalElement :=
      { id := "door-1", category := "Doors", parameters := [{ name := "wiDth", kind := .length }] }
    let settled := (e.settle ⟨1, 0⟩ (e.survey [door.capture]) .registryAuthoritative [door]).2.2
    e.state.registry.names = ["Width"] ∧ e.Fits ∧ settled.state.registry.names = ["Wi_Dth"] ∧
      settled.settings.naming.maxLength = 5 ∧ ¬settled.Fits := by
  decide +kernel

end Engine

end Parametric
