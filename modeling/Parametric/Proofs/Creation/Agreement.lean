import Parametric.Proofs.Creation.Return
import Parametric.Proofs.State.References

/-!
# Two ways to set a formula

A batch that asks for a registered definition with another formula, and the compiler with that formula:
both take the same formulas. The compiler, which optimizes what it commits, never references more.
-/

namespace Parametric

theorem Text.trim_eq_empty_iff {s : String} : trim s = "" ↔ isBlankText s = true := by
  rw [isBlankText, List.all_eq_true]
  constructor
  · intro hempty c hc
    by_contra hblank
    have hmem := mem_trim hc (Bool.not_eq_true _ ▸ hblank)
    rw [hempty] at hmem
    cases hmem
  · exact fun hblank => trim_eq_empty hblank

def Definition.withFormula (d : Definition) (source : String) : Definition := { d with formula := some source }

/-- A registered definition with a formula as a checked entry. -/
def Definition.entryWith (d : Definition) (source : String) (e : Formula.Term) : CheckedEntry :=
  ⟨.ofDefinition (d.withFormula source), d.name, d.kind, some d.identity, some e⟩

namespace State

variable {s : State} {settings : Settings} {now : Instant} {d : Definition} {source : String} {e : Formula.Term}

/-! ## Formulas that a definition can have -/

/-- The name that a reference in the formula of a definition means. -/
def meaningFor? (s : State) (d : Definition) (name : String) : Option String :=
  if keyOf name = keyOf d.name then some d.name else s.spelling? name

/-- What both ways ask of a formula, and the expression that both of them make of it. -/
structure Suits (s : State) (d : Definition) (source : String) (e : Formula.Term) : Prop where
  named : Text.isBlankText d.name = false
  expression : ∃ parsed, Formula.parse source = .ok parsed ∧
    (d.allowMissing = false → ∀ name ∈ parsed.references, (s.meaningFor? d name).isSome = true) ∧
    parsed.respelled (.ofNames (s.meaningFor? d) parsed.references) = e
  acyclic : s.graph.cycleWith d.name e.references = none

theorem Suits.knows (h : s.Suits d source e) (hk : s.Keyed) (ht : s.Tabled)
    (hd : s.registry.get? d.name = some d) (hallow : d.allowMissing = false) :
    ∀ name ∈ e.references, s.Knows name := by
  intro name hname
  obtain ⟨parsed, -, hmeaning, rfl⟩ := h.expression
  obtain ⟨reference, -, spelled, hspelled, hkey⟩ := Formula.Expr.exists_spelling_of_mem_respelled (hmeaning hallow)
    (List.mem_map_of_mem hname)
  rw [← knows_congr hkey]
  rw [meaningFor?] at hspelled
  split at hspelled
  · cases hspelled
    exact .inl (SortedMap.contains_iff.mpr ⟨d, hd⟩)
  · exact knows_of_spelling? hk ht hspelled

/-- What both ways do with a formula: it is in the table, and its references are in the graph. -/
structure Sets (s : State) (d : Definition) (references : List String) (after : State) : Prop where
  graph : after.graph = s.graph.setReferences d.name references
  table : ∃ f, after.formulas.formula? d.name = some f ∧ f.references = references

/-- The formula of a definition references no more than it does in another state, neither in the table nor in the
graph. -/
structure ReferencesWithin (d : Definition) (s other : State) : Prop where
  table : ∃ f f', s.formulas.formula? d.name = some f ∧ other.formulas.formula? d.name = some f' ∧
    ∀ key ∈ f.references.map keyOf, key ∈ f'.references.map keyOf
  graph : ∀ target, s.graph.References d.key target → other.graph.References d.key target

theorem Sets.referencesWithin {few many : List String} {compiled created : State} (hc : s.graph.Coherent)
    (h : s.Sets d few compiled) (h' : s.Sets d many created)
    (hkeys : ∀ key ∈ few.map keyOf, key ∈ many.map keyOf) : ReferencesWithin d compiled created where
  table := by
    obtain ⟨f, hf, rfl⟩ := h.table
    obtain ⟨f', hf', rfl⟩ := h'.table
    exact ⟨f, f', hf, hf', hkeys⟩
  graph := by
    rintro target ⟨position, hlinks⟩
    rw [h.graph, Graph.links_setReferences hc] at hlinks
    rw [h'.graph]
    -- what an older node of the name references stays the same both times
    rcases hlinks with ⟨hkey, hfew⟩ | holder
    · obtain ⟨position', hmany⟩ := List.mem_iff_getElem?.mp (hkeys target (List.mem_of_getElem? hfew))
      exact ⟨position', (Graph.links_setReferences hc).mpr (.inl ⟨hkey, hmany⟩)⟩
    · exact ⟨position, (Graph.links_setReferences hc).mpr (.inr holder)⟩

/-! ## The compiler -/

section Compiler

variable {options : CompileOptions}

theorem resolve?_eq_meaningFor? (hextra : options.furtherNames = []) :
    s.resolve? options d.name = s.meaningFor? d := by
  funext name
  simp [resolve?, meaningFor?, CompileOptions.extraName?, hextra]

/-- The compiler takes what suits a definition, and plans the expression that it stands for. -/
theorem plan_eq_ok_iff (settings : Settings) (source : String) (hd : s.registry.get? d.name = some d)
    (hallow : options.allowMissing = d.allowMissing) (hextra : options.furtherNames = []) {p : PlannedFormula} :
    (∃ unknown, s.plan settings options d.name source = .ok ⟨p, unknown⟩) ↔
      ∃ e, s.Suits d source e ∧ s.planOf settings options d.name source e = p := by
  have hresult : (s.spelling? (Text.trim d.name)).getD (Text.trim d.name) = d.name := by
    have hget : s.registry.get? (Text.trim d.name) = some d := (Registry.get?_congr (keyOf_trim d.name)).trans hd
    simp [spelling?, Registry.spelling?, hget]
  constructor
  · rintro ⟨unknown, hplan⟩
    obtain ⟨parsed, hparse, hmeaning, hcycle, hp⟩ := plan_eq_ok hplan
    rw [hresult, resolve?_eq_meaningFor? hextra] at hmeaning hcycle hp
    refine ⟨_, ⟨?_, ⟨parsed, hparse, fun h => hmeaning (hallow.trans h), rfl⟩, hcycle⟩, hp.symm⟩
    rw [← Bool.not_eq_true, ← Text.trim_eq_empty_iff]
    intro hempty
    simp only [plan, hempty, ↓reduceIte, bind, Except.bind, throw, throwThe, MonadExceptOf.throw] at hplan
    cases hplan
  · rintro ⟨e, ⟨hnamed, ⟨parsed, hparse, hmeaning, rfl⟩, hcycle⟩, rfl⟩
    have hne : Text.trim d.name ≠ "" := by simp [Text.trim_eq_empty_iff, hnamed]
    refine ⟨parsed.references.filter fun reference => (s.meaningFor? d reference).isNone, ?_⟩
    have hknown : (!d.allowMissing && !(parsed.references.filter fun reference =>
        (s.meaningFor? d reference).isNone).isEmpty) = false := by
      cases hmissing : d.allowMissing with
      | true => rfl
      | false =>
          simpa [List.filter_eq_nil_iff, Option.isSome_iff_ne_none] using hmeaning hmissing
    simp only [plan, hne, ↓reduceIte, hresult, hparse, resolve?_eq_meaningFor? hextra, hallow, hknown, hcycle,
      Except.mapError, bind, Except.bind, pure, Except.pure, Bool.false_eq_true]

/-- The compiler commits what suits a definition, with the references that are left after it was optimized. -/
theorem isCommitted_iff (hd : s.registry.get? d.name = some d) (hallow : options.allowMissing = d.allowMissing)
    (hextra : options.furtherNames = []) (hcommits : options.preview = false) :
    (s.compile settings now options d.name source).1.isCommitted = true ↔ ∃ e, s.Suits d source e := by
  have hplan := fun p => plan_eq_ok_iff settings source hd hallow hextra (p := p)
  simp only [compile, hcommits, Bool.false_eq_true, ↓reduceIte]
  cases hchecked : s.plan settings options d.name source with
  | error error =>
      refine iff_of_false Bool.false_ne_true fun hsuits => ?_
      obtain ⟨e, he⟩ := hsuits
      obtain ⟨unknown, hok⟩ := (hplan _).mpr ⟨e, he, rfl⟩
      rw [hchecked] at hok
      cases hok
  | ok checked =>
      obtain ⟨e, he, -⟩ := (hplan checked.plan).mp ⟨checked.unknown, hchecked⟩
      exact iff_of_true rfl ⟨e, he⟩

theorem sets_compile (hd : s.registry.get? d.name = some d) (hallow : options.allowMissing = d.allowMissing)
    (hextra : options.furtherNames = []) (hcommits : options.preview = false) (h : s.Suits d source e) :
    s.Sets d (Formula.optimize e).expr.references (s.compile settings now options d.name source).2 := by
  obtain ⟨unknown, hplan⟩ := (plan_eq_ok_iff settings source hd hallow hextra).mpr ⟨e, h, rfl⟩
  have hcompile : (s.compile settings now options d.name source).2 =
      s.commitPlan settings now (s.planOf settings options d.name source e) := by
    simp only [compile, hplan, hcommits, Bool.false_eq_true, ↓reduceIte]
  rw [hcompile]
  exact {
    graph := graph_commitPlan _
    table := ⟨_, by rw [formulas_commitPlan]; exact (SortedMap.get?_insert _ _ _ _).trans (if_pos rfl), rfl⟩ }

end Compiler

/-! ## Batches -/

section Batches

variable (hd : s.registry.get? d.name = some d) (hnormal : settings.naming.normalize d.name = d.name)

include hd hnormal in
theorem entryName_of_registered (source : String) :
    s.entryName settings (.ofDefinition (d.withFormula source)) = d.name := by
  refine entryName_of_get? (d := d) ?_
  rw [show (Proposal.ofDefinition (d.withFormula source)).name = d.name from rfl, hnormal, hd]

include hd hnormal in
theorem meaningIn?_eq_meaningFor? (source : String) :
    s.meaningIn? (s.batchNames settings [.ofDefinition (d.withFormula source)]) d.name = s.meaningFor? d := by
  funext name
  simp only [meaningIn?, meaningFor?]
  split
  · rfl
  · rename_i hkey
    cases hget : (s.batchNames settings [.ofDefinition (d.withFormula source)]).get? (keyOf name) with
    | none => simp
    | some found =>
        obtain ⟨p, hp, hentry⟩ := List.mem_map.mp (SortedMap.mem_of_get?_ofList hget)
        rw [List.mem_singleton.mp (List.mem_filter.mp hp).1, entryName_of_registered hd hnormal source] at hentry
        exact absurd (congrArg Prod.fst hentry).symm hkey

theorem parsed?_withFormula (hsource : Text.isBlankText source = false) :
    (Proposal.ofDefinition (d.withFormula source)).parsed? = some (Formula.parse source) := by
  simp [Proposal.parsed?, Proposal.source?, Proposal.ofDefinition, Definition.withFormula, Option.filter, hsource]

/-- What a batch asks of a formula, and the expression that it makes of it. -/
theorem formulaErrors_withFormula_iff (d : Definition) (meaning : String → Option String)
    (hsource : Text.isBlankText source = false) :
    (Proposal.ofDefinition (d.withFormula source)).formulaErrors meaning = [] ↔
      ∃ e, (Proposal.ofDefinition (d.withFormula source)).formula? meaning = some e ∧
        ∃ parsed, Formula.parse source = .ok parsed ∧
          (d.allowMissing = false → ∀ name ∈ parsed.references, (meaning name).isSome = true) ∧
          parsed.respelled (.ofNames meaning parsed.references) = e := by
  have hallow : (Proposal.ofDefinition (d.withFormula source)).allowMissing = d.allowMissing := rfl
  simp only [Proposal.formulaErrors, Proposal.formula?, parsed?_withFormula hsource, hallow]
  cases Formula.parse source with
  | error error => simp
  | ok parsed =>
      cases d.allowMissing with
      | true => simp
      | false => simp [List.filter_eq_nil_iff, Option.isSome_iff_ne_none]

theorem formula?_withFormula (d : Definition) (meaning : String → Option String)
    (hsource : Text.isBlankText source = false) {parsed : Formula.Term} (hparse : Formula.parse source = .ok parsed) :
    (Proposal.ofDefinition (d.withFormula source)).formula? meaning =
      some (parsed.respelled (.ofNames meaning parsed.references)) := by
  simp only [Proposal.formula?, parsed?_withFormula hsource, hparse]

include hnormal in
theorem nameErrors_withFormula_iff (source : String) (hfree : settings.registry.reserves d.name = false) :
    (Proposal.ofDefinition (d.withFormula source)).nameErrors settings = [] ↔ Text.isBlankText d.name = false := by
  have hname : (Proposal.ofDefinition (d.withFormula source)).name = d.name := rfl
  have hnonempty : Text.isBlankText d.name = false → d.name ≠ "" := by
    rintro hnamed hempty
    rw [hempty] at hnamed
    cases hnamed
  cases hnamed : Text.isBlankText d.name with
  | true => simp [Proposal.nameErrors, hname, hnamed]
  | false => simp [Proposal.nameErrors, hname, hnormal, hnamed, hfree, hnonempty hnamed]

include hd hnormal in
/-- A batch that asks for a registered definition with a formula passes the checks if the formula suits it. -/
theorem checkEntries_withFormula_iff (hfree : settings.registry.reserves d.name = false)
    (hsource : Text.isBlankText source = false) (entries : List CheckedEntry) :
    s.checkEntries settings [.ofDefinition (d.withFormula source)] = .ok entries ↔
      ∃ e, s.Suits d source e ∧ entries = [d.entryWith source e] := by
  have hkind : ValueKind.named? (Proposal.ofDefinition (d.withFormula source)).kind = some d.kind :=
    ValueKind.named?_name d.kind
  have htoken : (Proposal.ofDefinition (d.withFormula source)).token? = some d.identity :=
    Proposal.token?_ofDefinition (d.withFormula source)
  have hnames := nameErrors_withFormula_iff hnormal source hfree
  have hkinds := Proposal.kindErrors_ofDefinition (d.withFormula source)
  have htokens := Proposal.identityErrors_ofDefinition (d.withFormula source)
  have hname := entryName_of_registered hd hnormal source
  have hmeaning := meaningIn?_eq_meaningFor? hd hnormal source
  have herrors := formulaErrors_withFormula_iff d (s.meaningFor? d) hsource
  have hformula := @formula?_withFormula source d (s.meaningFor? d) hsource
  have hentry : ∀ e, d.entryWith source e =
      ⟨.ofDefinition (d.withFormula source), d.name, d.kind, some d.identity, some e⟩ := fun _ => rfl
  -- nothing else is asked of the proposal, whose texts would only get in the way
  generalize Proposal.ofDefinition (d.withFormula source) = p at *
  have hformulas : ∀ e, p.formula? (s.meaningFor? d) = some e →
      s.batchFormulas settings (s.batchNames settings [p]) [p] = [(d.name, e.references)] := fun e he => by
    simp [batchFormulas, hname, hmeaning, he]
  have hcycle : ∀ references, s.graph.cycleWithAll [(d.name, references)] = s.graph.cycleWith d.name references := by
    intro references
    simp only [Graph.cycleWithAll, Graph.setAll, Graph.cycleWith, List.foldl_cons, List.foldl_nil,
      List.findSome?_cons, List.findSome?_nil]
    split <;> simp_all
  rw [checkEntries_eq_ok_iff, List.forall_mem_singleton, entryErrors, hname, hmeaning, hkinds, htokens,
      List.append_nil, List.append_nil, List.append_eq_nil_iff, hnames, herrors]
  have hchecked : ∀ e, p.formula? (s.meaningFor? d) = some e →
      [p].filterMap (s.checked? settings (s.batchNames settings [p])) = [d.entryWith source e] := fun e he => by
    simp [checked?, hkind, htoken, hname, hmeaning, he, hentry]
  constructor
  · rintro ⟨⟨hnamed, e, he, hexpression⟩, hacyclic, hentries⟩
    rw [hformulas e he, hcycle] at hacyclic
    exact ⟨e, ⟨hnamed, hexpression, hacyclic⟩, hentries.trans (hchecked e he)⟩
  · rintro ⟨e, ⟨hnamed, ⟨parsed, hparse, hmeans, rfl⟩, hacyclic⟩, rfl⟩
    have he := hformula hparse
    refine ⟨⟨hnamed, _, he, parsed, hparse, hmeans, rfl⟩, ?_, (hchecked _ he).symm⟩
    rw [hformulas _ he, hcycle]
    exact hacyclic

include hd hnormal in
/-- A batch that asks for a registered definition with a formula passes the gates if the formula suits it. -/
theorem admits_withFormula_iff (hfree : settings.registry.reserves d.name = false)
    (hsource : Text.isBlankText source = false) {batch : Batch}
    (hbatch : batch.entries = [.ofDefinition (d.withFormula source)]) {entries : List CheckedEntry} :
    s.Admits settings batch entries ↔ ∃ e, s.Suits d source e ∧ entries = [d.entryWith source e] := by
  have hchecked := checkEntries_withFormula_iff hd hnormal hfree hsource entries
  constructor
  · exact fun h => hchecked.mp (hbatch ▸ h.checked)
  · intro h
    refine ⟨by simp [hbatch], hbatch ▸ hchecked.mpr h, .inr ?_⟩
    obtain ⟨e, -, rfl⟩ := h
    refine List.forall_mem_singleton.mpr fun c hc => ?_
    exact CheckedEntry.severity_of_clash (e := d.entryWith source e) hd rfl rfl hc

include hd hnormal in
/-- What suits a definition is committed, as long as no other definition has its token. -/
theorem create_of_suits (hk : s.Keyed) (ht : s.Tabled) (hdistinct : s.registry.Distinct)
    (hshort : d.name.length ≤ settings.naming.maxLength) (hfree : settings.registry.reserves d.name = false)
    (hsource : Text.isBlankText source = false) {batch : Batch}
    (hbatch : batch.entries = [.ofDefinition (d.withFormula source)]) (h : s.Suits d source e)
    (supply : TokenSupply) :
    let created := s.create settings now supply batch false
    created.1.status = .completed ∧ s.Sets d e.references created.2.1 := by
  have hadmits := (admits_withFormula_iff hd hnormal hfree hsource hbatch).mpr ⟨e, h, rfl⟩
  have hpasses : (d.entryWith source e).stagingError? settings { registry := s.registry, supply := supply } = none := by
    refine Staging.stagingError?_eq_none_iff.mpr ⟨hshort, List.not_mem_nil, ?_⟩
    exact (CheckedEntry.tokenOwner?_eq_none_iff (e := d.entryWith source e) rfl).mpr fun owner howner =>
      hdistinct.key_of_ownerOf? hk.registry hd howner
  have hconsistent : s.Consistent [d.entryWith source e] := by
    refine List.forall_mem_singleton.mpr fun hallow f hf name hname => ?_
    cases hf
    exact .inl (h.knows hk ht hd hallow name hname)
  have hstaged := Staging.entries_ofEntries_singleton now hk.registry supply hpasses hconsistent
  have hlength := s.length_ofEntries settings now supply [d.entryWith source e]
  rw [create_of_admits hadmits, if_neg Bool.false_ne_true]
  have hcommitted := s.committed_commitStaging settings now batch
    (.ofEntries settings now s supply [d.entryWith source e])
  generalize Staging.ofEntries settings now s supply [d.entryWith source e] = staging at *
  have hfailed : staging.failed = [] := by
    rw [← List.length_map (fun staged : StagedEntry => staged.entry), hstaged] at hlength
    simpa using hlength
  have hreferences : staging.references = [(d.name, e.references)] := by
    rw [staging.references_eq_filterMap, hstaged]
    rfl
  refine ⟨by simp [batchResult, hfailed], ?_, ?_⟩
  · rw [hcommitted.graph, hreferences]
    rfl
  · have hstored := staging.storedFormulas_eq_filterMap settings now
    rw [hstaged, Staging.storedFormulas] at hstored
    rw [hcommitted.formulas, hstored]
    exact ⟨_, (SortedMap.get?_insert _ _ _ _).trans (if_pos rfl), rfl⟩

include hd hnormal in
/-- A batch that asks for a registered definition with a formula completes if the formula suits it. -/
theorem completed_iff (hk : s.Keyed) (ht : s.Tabled) (hdistinct : s.registry.Distinct)
    (hshort : d.name.length ≤ settings.naming.maxLength) (hfree : settings.registry.reserves d.name = false)
    (hsource : Text.isBlankText source = false) {batch : Batch}
    (hbatch : batch.entries = [.ofDefinition (d.withFormula source)]) (supply : TokenSupply) :
    (s.create settings now supply batch false).1.status = .completed ↔ ∃ e, s.Suits d source e := by
  constructor
  · intro hcompleted
    rcases s.refused_or_admits settings now supply batch false with ⟨result, hrefuses, hrefused⟩ | ⟨entries, hadmits⟩
    · rw [hrefused] at hcompleted
      have hrefusal := hrefuses.status
      rw [show result.status = .completed from hcompleted] at hrefusal
      exact hrefusal.elim
    · obtain ⟨e, he, -⟩ := (admits_withFormula_iff hd hnormal hfree hsource hbatch).mp hadmits
      exact ⟨e, he⟩
  · rintro ⟨e, he⟩
    exact (create_of_suits hd hnormal hk ht hdistinct hshort hfree hsource hbatch he supply).1

end Batches

end State

/-! ## Runs -/

namespace Engine

variable {ε : Type} [ElementAccess ε]

/-- Whatever led to an engine, as long as all tokens that were drawn for definitions were fresh: a formula that is
given to a registered definition, whose name is one that definitions may have, is taken by a batch exactly if it is
taken by the compiler, and what the compiler commits references no more than what the batch commits. -/
theorem completed_create_iff (settings : Settings) (start : Instant) (supply : TokenSupply)
    (steps : List (Instant × Operation ε))
    (hfresh : (fresh settings start supply).Along
      (fun e step => (e.actionOf step.1 step.2).DrawsFresh e.state e.settings step.1) steps) :
    let e := (fresh settings start supply).run steps
    ∀ d ∈ e.state.registry.definitions, e.settings.naming.normalize d.name = d.name →
      e.settings.registry.reserves d.name = false → d.name.length ≤ e.settings.naming.maxLength →
      ∀ source, Text.isBlankText source = false →
        ∀ (batch : Batch) (options : CompileOptions) (now later : Instant),
          batch.entries = [.ofDefinition (d.withFormula source)] → options.allowMissing = d.allowMissing →
          options.furtherNames = [] → options.preview = false →
          let created := e.create now batch false
          let compiled := e.compile later options d.name source
          (created.1.status = .completed ↔ compiled.1.isCommitted = true) ∧
            (compiled.1.isCommitted = true → State.ReferencesWithin d compiled.2.state created.2.state) := by
  intro e d hmem hnormal hfree hshort source hsource batch options now later hbatch hallow hextra hcommits created
    compiled
  have hk : e.state.Keyed := keyed_invariant.of_any_run start settings supply steps
  have ht : e.state.Tabled := tabled_invariant.of_any_run start settings supply steps
  have hc : e.state.graph.Coherent := coherent_invariant.of_any_run start settings supply steps
  have hdistinct : e.state.registry.Distinct := distinct_run settings start supply steps hfresh
  have hd := (Registry.mem_definitions_iff hk.registry).mp hmem
  have hstatus : created.1.status = (e.state.create e.settings now e.supply batch false).1.status := by
    obtain ⟨warnings, hresult⟩ := outcome_create e now batch false
    rw [show created.1 = _ from hresult]
  have hcommitted : compiled.1.isCommitted =
      (e.state.compile e.settings later options d.name source).1.isCommitted :=
    isCommitted_compile e later options d.name source
  rw [hstatus, hcommitted, State.completed_iff hd hnormal hk ht hdistinct hshort hfree hsource hbatch,
    State.isCommitted_iff hd hallow hextra hcommits]
  refine ⟨Iff.rfl, fun ⟨term, hsuits⟩ => ?_⟩
  rw [show created.2.state = _ from (moved_create e now batch false).state,
    show compiled.2.state = _ from (moved_compile e later options d.name source).state]
  exact (State.sets_compile hd hallow hextra hcommits hsuits).referencesWithin hc
    (State.create_of_suits hd hnormal hk ht hdistinct hshort hfree hsource hbatch hsuits e.supply).2
    (Formula.Expr.keys_references_optimize term)

/-- A run that registers a door width, and a width with a token of its own. -/
def doorRun : List (Instant × Operation LocalElement) := [(⟨0, 0⟩, .create doorBatch false)]

def doorWidth : Definition where
  identity := (TokenSupply.ofSeed 0).draw.1
  name := "Door_Width"
  kind := .real
  group := "General"
  createdAt := ⟨0, 0⟩

/-- A batch that gives the door width a formula, in which one branch of a condition is never taken. -/
def branchBatch : Batch where
  entries := [.ofDefinition (doorWidth.withFormula "if(true, 2, w)")]

/-- Only the batch keeps the reference in the branch that is never taken. -/
theorem completed_create_doorWidth :
    let e := (fresh {} ⟨0, 0⟩ (.ofSeed 0)).run doorRun
    let created := e.create ⟨1, 0⟩ branchBatch false
    let compiled := e.compile ⟨1, 0⟩ {} doorWidth.name "if(true, 2, w)"
    (fresh {} ⟨0, 0⟩ (.ofSeed 0)).Along
        (fun e step => (e.actionOf step.1 step.2).DrawsFresh e.state e.settings step.1) doorRun ∧
      doorWidth ∈ e.state.registry.definitions ∧ e.settings.naming.normalize doorWidth.name = doorWidth.name ∧
      e.settings.registry.reserves doorWidth.name = false ∧ created.1.status = .completed ∧
      compiled.1.isCommitted = true ∧ State.ReferencesWithin doorWidth compiled.2.state created.2.state ∧
      created.2.state.graph.needs doorWidth.name = ["W"] ∧ compiled.2.state.graph.needs doorWidth.name = [] := by
  intro e created compiled
  have hfresh : (fresh {} ⟨0, 0⟩ (.ofSeed 0)).Along
      (fun e step => (e.actionOf step.1 step.2).DrawsFresh e.state e.settings step.1) doorRun :=
    ⟨drawsFresh_doorBatch, trivial⟩
  have hmem : doorWidth ∈ e.state.registry.definitions := by decide +kernel
  have hnormal : e.settings.naming.normalize doorWidth.name = doorWidth.name := by decide +kernel
  have hfree : e.settings.registry.reserves doorWidth.name = false := by decide +kernel
  have hshort : doorWidth.name.length ≤ e.settings.naming.maxLength := by decide +kernel
  have hsource : Text.isBlankText "if(true, 2, w)" = false := by decide +kernel
  obtain ⟨hiff, hwithin⟩ := completed_create_iff {} ⟨0, 0⟩ (.ofSeed 0) doorRun hfresh doorWidth hmem hnormal hfree
    hshort "if(true, 2, w)" hsource branchBatch {} ⟨1, 0⟩ ⟨1, 0⟩ rfl rfl rfl rfl
  have hcommitted : compiled.1.isCommitted = true := by decide +kernel
  have hneeds : created.2.state.graph.needs doorWidth.name = ["W"] ∧
      compiled.2.state.graph.needs doorWidth.name = [] := by decide +kernel
  -- the runs in the goal are to be compared as terms, not to be evaluated
  with_reducible exact ⟨hfresh, hmem, hnormal, hfree, hiff.mpr hcommitted, hcommitted, hwithin hcommitted, hneeds⟩

end Engine

end Parametric
