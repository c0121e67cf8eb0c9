import Parametric.Proofs.Creation.Check
import Parametric.Proofs.Formula.Mentions
import Parametric.Proofs.State.Mirror

/-!
# Written formulas

Every formula of the table is the written form of what its source was parsed as, with the references
that this has. What its text is read as has the same references exactly if the names that infinite
literals are read as would have come next anyway.
-/

namespace Parametric

open Formula (Term)

/-- A formula is the text of an expression together with the references of the expression, which is its
source parsed, with names in other letter case, and possibly optimized. -/
structure StoredFormula.WrittenFrom (f : StoredFormula) (e : Term) : Prop where
  source : ∃ parsed, Formula.parse f.source = .ok parsed ∧
    ∃ spelling : String → String, (∀ name, keyOf (spelling name) = keyOf name) ∧
      (e = parsed.mapNames spelling ∨ e = (Formula.optimize (parsed.mapNames spelling)).expr)
  expression : ∃ style, f.expression = e.render style
  references : f.references = e.references

theorem StoredFormula.WrittenFrom.readable {f : StoredFormula} {e : Term} (h : f.WrittenFrom e) :
    e.Readable Formula.FitsTrimmed := by
  obtain ⟨parsed, hparse, spelling, hspelling, he⟩ := h.source
  exact Formula.Expr.readable_respelled_of_parse hparse hspelling he

namespace Formulas

/-- Whether all formulas of the table are written from expressions. -/
def Written (t : Formulas) : Prop := ∀ ⦃key f⦄, t.get? key = some f → ∃ e, f.WrittenFrom e

variable {t : Formulas} {f : StoredFormula} {e : Term} {key : String}

theorem Written.empty : Written ∅ := nofun

theorem Written.insert (h : t.Written) (hf : f.WrittenFrom e) : Written (SortedMap.insert t key f) := by
  intro other g hg
  rw [SortedMap.get?_insert] at hg
  split at hg
  · cases hg
    exact ⟨e, hf⟩
  · exact h hg

theorem Written.erase (h : t.Written) : Written (SortedMap.erase t key) := by
  intro other g hg
  rw [SortedMap.get?_erase] at hg
  split at hg
  · cases hg
  · exact h hg

theorem Written.moveResult (h : t.Written) (old new : String) : (t.moveResult old new).Written := by
  simp only [Formulas.moveResult]
  split
  case h_1 f hf =>
    obtain ⟨e, he⟩ := h hf
    exact h.erase.insert ⟨he.source, he.expression, he.references⟩
  case h_2 => exact h

end Formulas

namespace State

variable {s : State} {settings : Settings} {now : Instant}

/-! ## Spellings -/

theorem keyOf_of_spelling? (hk : s.registry.Keyed) (ht : s.formulas.Keyed) {name spelled : String}
    (h : s.spelling? name = some spelled) : keyOf spelled = keyOf name := by
  simp only [spelling?, Option.orElse_eq_orElse, Option.orElse_eq_or, Option.or_eq_some_iff] at h
  rcases h with hregistered | ⟨-, hresult⟩
  · obtain ⟨d, hd, rfl⟩ := Option.map_eq_some_iff.mp hregistered
    exact hk.key_eq hd
  · obtain ⟨f, hf, rfl⟩ := Option.map_eq_some_iff.mp hresult
    exact ht hf

theorem keyOf_of_resolve? (hk : s.registry.Keyed) (ht : s.formulas.Keyed) {options : CompileOptions}
    {result name spelled : String} (h : s.resolve? options result name = some spelled) :
    keyOf spelled = keyOf name := by
  rw [resolve?] at h
  split at h
  case isTrue hown => exact Option.some.inj h ▸ hown.symm
  case isFalse =>
    rcases Option.or_eq_some_iff.mp (by simpa using h) with hspelled | ⟨-, hextra⟩
    · exact keyOf_of_spelling? hk ht hspelled
    · rw [CompileOptions.extraName?] at hextra
      have hsame := List.find?_some hextra
      exact keyOf_eq_of_sameAscii hsame

theorem keyOf_of_meaningIn? (hk : s.registry.Keyed) (ht : s.formulas.Keyed) {proposals : List Proposal}
    {own name spelled : String} (h : s.meaningIn? (s.batchNames settings proposals) own name = some spelled) :
    keyOf spelled = keyOf name := by
  rw [meaningIn?] at h
  split at h
  case isTrue hown => exact Option.some.inj h ▸ hown.symm
  case isFalse =>
    rcases Option.or_eq_some_iff.mp (by simpa using h) with hspelled | ⟨-, hbatch⟩
    · exact keyOf_of_spelling? hk ht hspelled
    · obtain ⟨p, -, hentry⟩ := List.mem_map.mp (SortedMap.mem_of_get?_ofList hbatch)
      obtain ⟨hkey, rfl⟩ := Prod.mk.inj hentry
      exact hkey

/-! ## Steps -/

theorem written_of_plan (hk : s.registry.Keyed) (ht : s.formulas.Keyed) (now : Instant) {options : CompileOptions}
    {name source : String} {checked : CheckedPlan} (h : s.plan settings options name source = .ok checked) :
    ∃ e, StoredFormula.WrittenFrom
      ⟨checked.plan.result, checked.plan.target, checked.plan.source, checked.plan.references, now⟩ e := by
  obtain ⟨parsed, hparse, -, -, hplan⟩ := plan_eq_ok h
  rw [hplan]
  refine ⟨_, ⟨parsed, hparse, _, fun name => ?_, .inr rfl⟩, ⟨_, rfl⟩, rfl⟩
  exact Formula.Expr.keyOf_apply_ofNames (fun _ _ => keyOf_of_resolve? hk ht) _ name

/-- The formula of an entry that passed the checks is written from what its text was parsed as. -/
theorem written_of_storedFormula? (hk : s.registry.Keyed) (ht : s.formulas.Keyed) {proposals : List Proposal}
    {entries : List CheckedEntry} (h : s.checkEntries settings proposals = .ok entries) {e : CheckedEntry}
    (he : e ∈ entries) {f : StoredFormula} (hf : Committing.storedFormula? settings now e = some f) :
    ∃ e, f.WrittenFrom e := by
  obtain ⟨-, -, rfl⟩ := checkEntries_eq_ok h
  obtain ⟨p, -, hentry⟩ := List.mem_filterMap.mp he
  obtain ⟨expression, hformula, rfl⟩ := Option.map_eq_some_iff.mp hf
  rw [(checked?_eq_some hentry).2, Proposal.formula?] at hformula
  split at hformula
  case h_2 => cases hformula
  case h_1 parsed hparsed =>
    obtain ⟨source, hsource, hparse⟩ := Option.map_eq_some_iff.mp hparsed
    have htext : e.proposal.formula.getD "" = source := by
      rw [proposal_of_checked? hentry, (Option.filter_eq_some_iff.mp hsource).1, Option.getD_some]
    cases hformula
    refine ⟨_, ⟨parsed, htext ▸ hparse, _, fun name => ?_, .inl rfl⟩, ⟨_, rfl⟩, rfl⟩
    exact Formula.Expr.keyOf_apply_ofNames (fun _ _ => keyOf_of_meaningIn? hk ht) _ name

theorem written_committed (hk : s.Keyed) (ht : s.Tabled) (h : s.formulas.Written) {supply : TokenSupply} {batch : Batch}
    {cancelled : Bool} {entries : List CheckedEntry} (hcheck : s.checkEntries settings batch.entries = .ok entries)
    (hcommitted : s.Committed settings now
      (.ofEntries settings now s supply (if cancelled then [] else entries)) s') : s'.formulas.Written := by
  have htracks := Staging.tracks_ofEntries settings now hk.registry supply (if cancelled then [] else entries)
  -- a formula of the table is one of the batch or was there before
  intro key f hget
  rw [hcommitted.formulas] at hget
  rcases Formulas.get?_putAll hget with hnew | hold
  · obtain ⟨e, he, hstored⟩ := List.mem_filterMap.mp hnew
    exact written_of_storedFormula? hk.registry ht.formulas hcheck (htracks.entry_mem he) hstored
  · exact h hold

theorem written_perform {ε : Type} [ElementAccess ε] (hk : s.Keyed) (ht : s.Tabled)
    (h : s.Throughout fun _ t => t.Written) (action : Action ε) :
    (s.perform settings now action).Throughout fun _ t => t.Written := by
  refine h.perform fun hkeeps => ?_
  replace h := h.live
  have hstep := s.becomes_perform settings now action
  generalize s.perform settings now action = s' at hstep ⊢
  cases hstep with
  | same | used => exact h
  | created hcheck hcommitted => exact written_committed hk ht h hcheck hcommitted
  | compiled hplan =>
      obtain ⟨e, he⟩ := written_of_plan hk.registry ht.formulas now hplan
      rw [formulas_commitPlan]
      exact h.insert he
  | dropped hdrop =>
      obtain ⟨f, -, rfl⟩ := dropFormula_eq_some hdrop
      exact h.erase
  | deleted _ _ =>
      simp only [dropDefinition]
      split
      · exact h.erase
      · exact h
  | resolved hrenames => exact hrenames.keeps (P := (·.formulas.Written)) h fun _ _ _ h => h.moveResult _ _
  | captured | rolledBack _ => exact hkeeps.elim

end State

/-! ## Runs -/

theorem written_invariant {ε : Type} [ElementAccess ε] : Engine.Invariant (ε := ε)
    (fun s => s.Keyed ∧ (s.Tabled ∧ s.Mirrored) ∧ s.Throughout fun _ t => t.Written) Action.KeepsNames where
  toLasting := keyed_lasting.and (mirrored_lasting.and (State.Throughout.lasting .empty))
  perform := fun _ _ _ action hallowed h =>
    ⟨h.1.perform action, ⟨h.2.1.1.perform action, h.2.1.2.perform h.2.1.1 action hallowed⟩,
      State.written_perform h.1 h.2.1.1 h.2.2 action⟩

namespace Engine

open Formula (parse Covered)

variable {ε : Type} [ElementAccess ε]

/-- Whatever is created, compiled, removed, deleted, put into snapshots, rolled back or synchronized: as
long as no conflicts are resolved, every formula is written from its source, has its references for edges,
and its text is read as an expression with the same references exactly if the names that its infinite
literals are read as are covered by the others. -/
theorem references_stored_iff (settings : Settings) (start : Instant) (supply : TokenSupply)
    (steps : List (Instant × Operation ε)) (hsteps : ∀ step ∈ steps, ¬step.2.MayRename) :
    let s := ((fresh settings start supply).run steps).state
    ∀ f ∈ s.formulas.values,
      (∀ name position, s.graph.Links (keyOf f.result) name position ↔
        (f.references.map keyOf)[position]? = some name) ∧
      (∃ e, f.WrittenFrom e) ∧
      ∀ e, f.WrittenFrom e → ∀ e', parse f.expression = .ok e' →
        (e'.references.map keyOf = f.references.map keyOf ↔ Covered [] e.mentions) := by
  intro s f hf
  obtain ⟨-, ⟨htabled, hmirrored⟩, hwritten⟩ := written_invariant.of_run start settings supply fun step hstep =>
    Operation.within_keepsNames (hsteps step hstep)
  obtain ⟨key, hget⟩ := SortedMap.mem_values_iff.mp hf
  obtain rfl := htabled.formulas hget
  refine ⟨fun name position => ?_, hwritten.live hget, fun e he e' hparse => ?_⟩
  · rw [hmirrored.represents.links]
    constructor
    · rintro ⟨g, hg, hposition⟩
      cases hget.symm.trans hg
      exact hposition
    · exact fun hposition => ⟨f, hget, hposition⟩
  · obtain ⟨style, hexpression⟩ := he.expression
    rw [hexpression] at hparse
    rw [he.references]
    exact Formula.Expr.keys_references_parse_render he.readable hparse

def readKeys (text : String) : Option (List String) := (parse text).toOption.map (·.references.map keyOf)

theorem exists_of_readKeys (text : String) {keys : List String} (h : readKeys text = some keys) :
    ∃ e, parse text = .ok e ∧ e.references.map keyOf = keys := by
  obtain ⟨e, hread, hkeys⟩ := Option.map_eq_some_iff.mp h
  cases hparse : parse text with
  | error cause =>
      rw [hparse] at hread
      cases hread
  | ok e' =>
      rw [hparse] at hread
      cases hread
      exact ⟨e, rfl, hkeys⟩

/-- A run in which an infinite literal is read as a name that is referenced before it. -/
def infiniteRun : List (Instant × Operation LocalElement) :=
  [(⟨0, 0⟩, .create { entries := [{ name := "inf", kind := "real" }] } false),
    (⟨1, 0⟩, .compile {} "y" "inf * 2 + 1e999")]

theorem covered_infiniteRun :
    (∀ step ∈ infiniteRun, ¬step.2.MayRename) ∧
      ∃ f ∈ ((fresh {} ⟨0, 0⟩ (.ofSeed 0)).run infiniteRun).state.formulas.values,
        f.expression = "Inf * 2 + inf" ∧ (∃ e, f.WrittenFrom e) ∧
          ∀ e, f.WrittenFrom e → Covered [] e.mentions := by
  have hsteps : ∀ step ∈ infiniteRun, ¬step.2.MayRename := by
    intro step hstep
    simp only [infiniteRun, List.mem_cons, List.not_mem_nil, or_false] at hstep
    rcases hstep with rfl | rfl <;> exact id
  have hformulas : (((fresh {} ⟨0, 0⟩ (.ofSeed 0)).run infiniteRun).state.formulas.values.map
      fun f => (f.expression, f.references)) = [("Inf * 2 + inf", ["Inf"])] := by decide +kernel
  obtain ⟨f, hvalues, hf⟩ := List.map_eq_singleton_iff.mp hformulas
  obtain ⟨hexpression, hreferences⟩ := Prod.mk.inj hf
  obtain ⟨-, hwritten, hiff⟩ := references_stored_iff {} ⟨0, 0⟩ (.ofSeed 0) infiniteRun hsteps f
    (hvalues ▸ List.mem_singleton_self f)
  have hkeys : readKeys "Inf * 2 + inf" = some ["inf"] := by decide +kernel
  obtain ⟨e', hparse, hkeys⟩ := exists_of_readKeys _ hkeys
  refine ⟨hsteps, f, hvalues ▸ List.mem_singleton_self f, hexpression, hwritten, fun e he => ?_⟩
  refine (hiff e he e' (hexpression ▸ hparse)).mp (hkeys.trans ?_)
  rw [hreferences]
  decide +kernel

def unboundedRun : List (Instant × Operation LocalElement) := [(⟨0, 0⟩, .compile {} "x" "1e999")]

/-- The literal is written as a name, which nothing references. -/
theorem references_more_unboundedRun :
    (∀ step ∈ unboundedRun, ¬step.2.MayRename) ∧
      ∃ f ∈ ((fresh {} ⟨0, 0⟩ (.ofSeed 0)).run unboundedRun).state.formulas.values,
        ∃ e, parse f.expression = .ok e ∧ e.references.map keyOf ≠ f.references.map keyOf := by
  have hformulas : (((fresh {} ⟨0, 0⟩ (.ofSeed 0)).run unboundedRun).state.formulas.values.map
      fun f => (f.expression, f.references)) = [("inf", [])] := by decide +kernel
  obtain ⟨f, hvalues, hf⟩ := List.map_eq_singleton_iff.mp hformulas
  obtain ⟨hexpression, hreferences⟩ := Prod.mk.inj hf
  have hkeys : readKeys "inf" = some ["inf"] := by decide +kernel
  obtain ⟨e, hparse, hkeys⟩ := exists_of_readKeys _ hkeys
  refine ⟨fun step hstep => ?_, f, hvalues ▸ List.mem_singleton_self f, e, hexpression ▸ hparse, ?_⟩
  · rw [unboundedRun, List.mem_singleton] at hstep
    exact hstep ▸ id
  · rw [hkeys, hreferences]
    exact List.cons_ne_nil _ _

end Engine

end Parametric
