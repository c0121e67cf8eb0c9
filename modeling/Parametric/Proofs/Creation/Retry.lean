import Parametric.Proofs.Creation.Cycle
import Parametric.Proofs.Creation.Entry
import Parametric.Proofs.Creation.Tokens
import Parametric.Proofs.Dependency.Repetition
import Parametric.Proofs.Engine.Durability
import Parametric.Proofs.Formula.Respelling
import Parametric.Proofs.State.Written

/-!
# Batches that come back

A batch that is asked for twice meets the names that it has created, now registered, and its own formulas in the
table. It creates nothing the second time. What it may do is spell a formula otherwise, or set some of its formulas
again while others stay behind.
-/

namespace Parametric

variable {settings : Settings} {now later : Instant}

/-! ## Names -/

theorem Convention.length_keyOf_of_isNormal {name : String} (h : Convention.IsNormal {} name) :
    (keyOf name).length = name.length := by
  obtain ⟨words, rfl, -, hsolid⟩ := h.chars ⟨by decide, by simp⟩
  have hchars : ∀ c ∈ Convention.join {} words, c.isAlphanum = true ∨ c = '_' := by
    intro c hc
    rcases mem_intercalate hc with hseparator | ⟨word, hword, hc⟩
    · exact .inr (by simpa using hseparator)
    · exact .inl ((solid_of_mem_styledWords hsolid word hword).isAlphanum c hc)
  refine length_keyOf (fun c hc => ?_) fun c hc => ?_ <;> rw [String.toList_ofList] at hc <;>
    rcases hchars c hc with halnum | rfl
  · have hbounds := isAlphanum_bounds halnum
    omega
  · decide
  · exact Text.isBlank_of_isAlphanum halnum
  · decide

namespace State

variable {s s' : State} {p : Proposal} {d : Definition} {proposals : List Proposal} {entries : List CheckedEntry}
  {staging : Staging} {name own : String}

/-! ## References -/

theorem meaningIn?_of_get? (hd : s.registry.get? name = some d) (hown : keyOf name = keyOf own → own = d.name)
    (batch : SortedMap String) : s.meaningIn? batch own name = some d.name := by
  rw [meaningIn?]
  split
  · rename_i hkey
    rw [hown hkey]
  · simp [spelling?, Registry.spelling?, hd]

theorem meaningIn?_congr (s : State) (batch : SortedMap String) (own : String) {a b : String} (h : keyOf a = keyOf b) :
    s.meaningIn? batch own a = s.meaningIn? batch own b := by
  simp only [meaningIn?, spelling?, Registry.spelling?, Registry.get?, Formulas.formula?, h]

theorem get?_batchNames_congr (hk : s.registry.Keyed) (hk' : s'.registry.Keyed) (proposals : List Proposal)
    (hnone : s.registry.get? name = none) (hnone' : s'.registry.get? name = none) :
    (s'.batchNames settings proposals).get? (keyOf name) = (s.batchNames settings proposals).get? (keyOf name) := by
  have hsame : ∀ p : Proposal, keyOf name = keyOf (settings.naming.normalize p.name) →
      s'.entryName settings p = s.entryName settings p := by
    intro p hkey
    rw [Registry.get?_congr hkey] at hnone hnone'
    rw [entryName_of_none hnone, entryName_of_none hnone']
  refine SortedMap.get?_ofList_congr fun p _ => ?_
  have hkey := keyOf_entryName hk' settings p
  exact ⟨hkey.trans (keyOf_entryName hk settings p).symm, fun hname => hsame p (hname.symm.trans hkey)⟩

end State

/-! ## Formulas -/

namespace Proposal

variable {p : Proposal} {meaning meaning' : String → Option String} {f : Formula.Term}

theorem formula?_eq_some_iff : p.formula? meaning = some f ↔
    ∃ parsed, p.parsed? = some (.ok parsed) ∧ f = parsed.respelled (.ofNames meaning parsed.references) := by
  rw [formula?]
  split
  · rename_i parsed hparsed
    simp [hparsed, eq_comm]
  · rename_i hparsed
    refine iff_of_false (by simp) fun hok => ?_
    obtain ⟨parsed, hok, -⟩ := hok
    exact hparsed parsed hok

theorem formula?_congr (hm : ∀ a b, keyOf a = keyOf b → meaning a = meaning b)
    (hm' : ∀ a b, keyOf a = keyOf b → meaning' a = meaning' b)
    (h : ∀ parsed, p.parsed? = some (.ok parsed) → ∀ name ∈ parsed.names, (meaning name).getD name = (meaning' name).getD name) :
    p.formula? meaning = p.formula? meaning' := by
  rw [formula?, formula?]
  split
  · rename_i parsed hparsed
    refine congrArg some (Formula.Expr.mapNames_congr fun name hname => ?_)
    rw [Formula.Expr.apply_ofNames hm hname, Formula.Expr.apply_ofNames hm' hname, h parsed hparsed name hname]
  · rfl

section Keys

variable (hm : ∀ name spelled, meaning name = some spelled → keyOf spelled = keyOf name)
  (hm' : ∀ name spelled, meaning' name = some spelled → keyOf spelled = keyOf name)
include hm hm'

theorem keys_formula? : (p.formula? meaning).map (·.names.map keyOf) = (p.formula? meaning').map (·.names.map keyOf) := by
  have hkeys : ∀ {meaning : String → Option String}, (∀ name spelled, meaning name = some spelled → keyOf spelled = keyOf name) →
      ∀ parsed : Formula.Term, (parsed.respelled (.ofNames meaning parsed.references)).names.map keyOf = parsed.names.map keyOf := by
    intro meaning hm parsed
    rw [Formula.Expr.respelled, Formula.Expr.names_mapNames, List.map_map]
    exact List.map_congr_left fun name _ => Formula.Expr.keyOf_apply_ofNames hm _ name
  rw [formula?, formula?]
  split
  · rw [Option.map_some, Option.map_some, hkeys hm, hkeys hm']
  · rfl

theorem formula?_eq_of_text_eq (style : Formula.Style)
    (h : (p.formula? meaning).map (·.render style) = (p.formula? meaning').map (·.render style)) :
    p.formula? meaning = p.formula? meaning' := by
  rw [formula?, formula?] at h ⊢
  split at h
  · rename_i parsed hparsed
    obtain ⟨source, -, hparse⟩ := Option.map_eq_some_iff.mp hparsed
    refine congrArg some (Formula.Expr.mapNames_eq_of_render_eq (fun name hname => ⟨?_, ?_⟩) (Option.some.inj h))
    · rw [Formula.Expr.fitsTrimmed_iff, Formula.Expr.keyOf_apply_ofNames hm, ← Formula.Expr.fitsTrimmed_iff]
      exact ((Formula.Expr.readable_of_parse hparse).fits name hname).fitsTrimmed
    · rw [Formula.Expr.keyOf_apply_ofNames hm, Formula.Expr.keyOf_apply_ofNames hm']
  · rfl

end Keys

end Proposal

/-- Whether a formula has a registered name in another spelling than the registered one. -/
def CheckedEntry.Respells (e : CheckedEntry) (r : Registry) : Prop :=
  ∃ f, e.formula = some f ∧ ∃ name ∈ f.names, ∃ d, r.get? name = some d ∧ d.name ≠ name

namespace State

/-- What the checks of a batch make of an entry. -/
structure Checks (settings : Settings) (s : State) (proposals : List Proposal) (e : CheckedEntry) : Prop where
  name : e.name = s.entryName settings e.proposal
  identity : e.identity = e.proposal.token?
  formula : e.formula = e.proposal.formula? (s.meaningIn? (s.batchNames settings proposals) e.name)

variable {s s' : State} {proposals : List Proposal} {entries : List CheckedEntry} {staging : Staging} {e e' : CheckedEntry}
  {name : String}

theorem identity_of_checked? {names : SortedMap String} {p : Proposal} (h : s.checked? settings names p = some e) :
    e.identity = p.token? := by
  rw [checked?, Option.map_eq_some_iff] at h
  obtain ⟨kind, -, he⟩ := h
  exact (congrArg CheckedEntry.identity he).symm

theorem checks_of_mem (h : s.checkEntries settings proposals = .ok entries) (he : e ∈ entries) :
    s.Checks settings proposals e := by
  have hentry := (checked?_of_mem h he).2
  obtain ⟨hname, hformula⟩ := checked?_eq_some hentry
  exact ⟨hname, identity_of_checked? hentry, hname ▸ hformula⟩

theorem Checks.name_of_get? (h : s.Checks settings proposals e) (hk : s.registry.Keyed) {d : Definition}
    (hd : s.registry.get? e.name = some d) : e.name = d.name := by
  have hkey := keyOf_entryName hk settings e.proposal
  rw [← h.name] at hkey
  rw [Registry.get?_congr hkey] at hd
  exact h.name.trans (entryName_of_get? hd)

theorem Checks.not_respells (h : s.Checks settings proposals e) (hk : s.registry.Keyed) (ht : s.formulas.Keyed) :
    ¬e.Respells s.registry := by
  rintro ⟨f, hf, name, hname, d, hd, hne⟩
  obtain ⟨parsed, hparsed, rfl⟩ := Proposal.formula?_eq_some_iff.mp (h.formula.symm.trans hf)
  rw [Formula.Expr.respelled, Formula.Expr.names_mapNames] at hname
  obtain ⟨first, hfirst, rfl⟩ := List.mem_map.mp hname
  rw [Registry.get?_congr (Formula.Expr.keyOf_apply_ofNames (fun _ _ => keyOf_of_meaningIn? hk ht) _ first)] at hd
  have hown : keyOf first = keyOf e.name → e.name = d.name := fun hkey =>
    h.name_of_get? hk ((Registry.get?_congr hkey).symm.trans hd)
  rw [Formula.Expr.apply_ofNames (fun _ _ => meaningIn?_congr s _ _) hfirst, meaningIn?_of_get? hd hown, Option.getD_some] at hne
  exact hne rfl

section Left

variable (hk : s.registry.Keyed) (ht : s.formulas.Keyed) (htracks : staging.Tracks settings now s.registry entries)
  (hcommitted : s.Committed settings now staging s')

theorem tabled_of_left (hcommitted : s.Committed settings now staging s') (ht : s.formulas.Keyed) : s'.formulas.Keyed := by
  rw [hcommitted.formulas]
  exact ht.putAll _

include htracks hcommitted

theorem keyed_of_left : s'.registry.Keyed := hcommitted.registry ▸ htracks.keyed

theorem get?_of_left (hnone : s'.registry.get? name = none) : s.registry.get? name = none := by
  cases hd : s.registry.get? name with
  | none => rfl
  | some d =>
    obtain ⟨d', hd', -⟩ := htracks.label_of_before hd
    rw [hcommitted.registry, hd'] at hnone
    cases hnone

theorem formula?_of_left (hnone : s'.registry.get? name = none) : s'.formulas.formula? name = s.formulas.formula? name := by
  rw [hcommitted.formulas]
  refine Formulas.get?_putAll_of_ne fun f hf hkey => ?_
  obtain ⟨e, he, hstored⟩ := List.mem_filterMap.mp hf
  rw [Committing.result_of_storedFormula? hstored] at hkey
  obtain ⟨d, hd⟩ := (htracks.written e he).registered
  rw [hcommitted.registry, ← Registry.get?_congr hkey, hd] at hnone
  cases hnone

include hk

theorem meaningIn?_of_left {own own' : String} (hnone : s'.registry.get? name = none) (hown : keyOf name ≠ keyOf own)
    (hown' : keyOf name ≠ keyOf own') : s'.meaningIn? (s'.batchNames settings proposals) own' name =
      s.meaningIn? (s.batchNames settings proposals) own name := by
  have hbefore := get?_of_left htracks hcommitted hnone
  have hk' := keyed_of_left htracks hcommitted
  rw [meaningIn?, meaningIn?, if_neg hown, if_neg hown', get?_batchNames_congr hk hk' proposals hbefore hnone]
  simp only [spelling?, Registry.spelling?, hnone, hbefore, formula?_of_left htracks hcommitted hnone]

/-- An entry has a name of the same length as before: a name that is new is normal, and so is any name of its key
that comes with the batch. -/
theorem length_name_of_left (hnaming : settings.naming = {}) (hcheck : s.checkEntries settings proposals = .ok entries)
    (he : e ∈ entries) (he' : s'.Checks settings proposals e') (hproposal : e'.proposal = e.proposal) :
    e'.name.length = e.name.length := by
  have hchecks := checks_of_mem hcheck he
  have hnormal : ∀ {e : CheckedEntry}, e ∈ entries → s.registry.get? e.name = none →
      (keyOf e.name).length = e.name.length := fun he hnone => by
    have hnormal := normal_of_checkEntries (hnaming ▸ ⟨by decide, by simp⟩) hk hcheck he hnone
    exact Convention.length_keyOf_of_isNormal (hnaming ▸ hnormal)
  have hname' := he'.name
  have hname := hchecks.name
  rw [hproposal] at hname'
  cases hleft : s'.registry.get? (settings.naming.normalize e.proposal.name) with
  | none => rw [hname', hname, entryName_of_none hleft, entryName_of_none (get?_of_left htracks hcommitted hleft)]
  | some d =>
    rw [entryName_of_get? hleft] at hname'
    rw [hname']
    cases hbefore : s.registry.get? (settings.naming.normalize e.proposal.name) with
    | some old =>
      obtain ⟨d', hd', hlabel⟩ := htracks.label_of_before hbefore
      rw [hcommitted.registry, hd'] at hleft
      obtain rfl := Option.some.inj hleft
      have hsame : d'.name = old.name := congrArg Prod.fst hlabel
      rw [hname, entryName_of_get? hbefore, hsame]
    | none =>
      rw [hcommitted.registry] at hleft
      obtain ⟨staged, hstaged, hkey, hd⟩ := htracks.name_of_new hbefore hleft
      rw [entryName_of_none hbefore] at hname
      have hown : s.registry.get? e.name = none := by rw [hname, hbefore]
      rw [hd, ← hnormal (htracks.mem staged hstaged) ((Registry.get?_congr hkey).trans hbefore), hkey, ← hnormal he hown,
        hname]

include ht

theorem recursAs_of_left (hnaming : settings.naming = {}) (hcheck : s.checkEntries settings proposals = .ok entries)
    (he : e ∈ entries) (he' : s'.Checks settings proposals e') (hproposal : e'.proposal = e.proposal)
    (hkind : e'.kind = e.kind) (hidentity : e'.identity = e.identity) : e.RecursAs e' where
  proposal := hproposal
  kind := hkind
  identity := hidentity
  key := by
    rw [he'.name, hproposal, (checks_of_mem hcheck he).name, keyOf_entryName (keyed_of_left htracks hcommitted), keyOf_entryName hk]
  length := length_name_of_left hk htracks hcommitted hnaming hcheck he he' hproposal
  keys := by
    rw [he'.formula, hproposal, (checks_of_mem hcheck he).formula]
    exact Proposal.keys_formula? (fun _ _ => keyOf_of_meaningIn? (keyed_of_left htracks hcommitted) (tabled_of_left hcommitted ht))
      fun _ _ => keyOf_of_meaningIn? hk ht

section Formula

variable (he : s.Checks settings proposals e) (he' : s'.Checks settings proposals e') (hrecurs : e.RecursAs e')
  (hregistered : s'.registry.contains e.name = true)
include he he' hrecurs hregistered

/-- The formula of an entry stays the same if all registered names in it have the registered spelling. -/
theorem formula_of_left (hnot : ¬e.Respells s'.registry) : e'.formula = e.formula := by
  obtain ⟨own, hown⟩ := SortedMap.contains_iff.mp hregistered
  have hkeyed := keyed_of_left htracks hcommitted
  rw [he'.formula, hrecurs.proposal, he.formula]
  refine Proposal.formula?_congr (fun _ _ => meaningIn?_congr s' _ _) (fun _ _ => meaningIn?_congr s _ _) fun parsed hparsed name hname => ?_
  cases hd : s'.registry.get? name with
  | none =>
    have hne : keyOf name ≠ keyOf e.name := fun hkey =>
      Option.some_ne_none own (hown.symm.trans ((Registry.get?_congr hkey).symm.trans hd))
    have hne' : keyOf name ≠ keyOf e'.name := fun hkey => hne (hkey.trans hrecurs.key)
    rw [meaningIn?_of_left hk htracks hcommitted hd hne hne']
  | some d =>
    have hown' : keyOf name = keyOf e'.name → e'.name = d.name := fun hkey =>
      he'.name_of_get? hkeyed ((Registry.get?_congr hkey).symm.trans hd)
    rw [meaningIn?_of_get? hd hown', Option.getD_some]
    by_contra hne
    refine hnot ⟨_, he.formula.trans (Proposal.formula?_eq_some_iff.mpr ⟨parsed, hparsed, rfl⟩), _, ?_, d, ?_, hne⟩
    · rw [Formula.Expr.respelled, Formula.Expr.names_mapNames,
        ← Formula.Expr.apply_ofNames (fun _ _ => meaningIn?_congr s _ _) hname]
      exact List.mem_map_of_mem hname
    · rw [← Formula.Expr.apply_ofNames (fun _ _ => meaningIn?_congr s _ _) hname,
        Registry.get?_congr (Formula.Expr.keyOf_apply_ofNames (fun _ _ => keyOf_of_meaningIn? hk ht) _ name), hd]

theorem formulaText?_of_left : e'.formulaText? settings = e.formulaText? settings ↔ ¬e.Respells s'.registry := by
  have hkeyed := keyed_of_left htracks hcommitted
  have htabled := tabled_of_left hcommitted ht
  constructor
  · intro htext
    have hformula : e'.formula = e.formula := by
      rw [CheckedEntry.formulaText?, CheckedEntry.formulaText?, he'.formula, hrecurs.proposal, he.formula] at htext
      rw [he'.formula, hrecurs.proposal, he.formula]
      exact Proposal.formula?_eq_of_text_eq (fun _ _ => keyOf_of_meaningIn? hkeyed htabled) (fun _ _ => keyOf_of_meaningIn? hk ht) _ htext
    have hnot := he'.not_respells hkeyed htabled
    rwa [CheckedEntry.Respells, hformula] at hnot
  · intro hnot
    rw [CheckedEntry.formulaText?, formula_of_left hk ht htracks hcommitted he he' hrecurs hregistered hnot, CheckedEntry.formulaText?]

end Formula

end Left

end State

/-! ## Outcomes -/

theorem StagedAs.Writes.settled {e : CheckedEntry} {outcome : StagedAs} {previous current : Option Definition}
    (h : outcome.Writes settings now e previous current) : ∃ d, current = some d ∧
      (e.updated settings d).agreesWith d = true ∧ ∀ text, e.formulaText? settings = some text → d.formula = some text := by
  have hself : ∀ {α : Type} (a b : Option α), (a <|> (a <|> b)) = (a <|> b) := by
    intro α a b
    cases a <;> rfl
  cases h with
  | created token =>
    refine ⟨_, rfl, ?_, fun text htext => htext⟩
    have hsame : ∀ {α : Type} (a : Option α), (a <|> a) = a := by
      intro α a
      cases a <;> rfl
    simp [Definition.agreesWith_iff, CheckedEntry.updated, CheckedEntry.definition, hsame]
  | updated old =>
    refine ⟨_, rfl, ?_, fun text htext => by simp [CheckedEntry.updated, htext]⟩
    simp only [Definition.agreesWith_iff, CheckedEntry.updated, hself]
  | skipped old hagrees =>
    refine ⟨old, rfl, hagrees, fun text htext => ?_⟩
    have hformula := congrArg Definition.formula (Definition.agreesWith_iff.mp hagrees)
    simpa [Definition.shape, CheckedEntry.updated, htext] using hformula.symm

/-- An entry that comes back is skipped if its formula has the same text as before. -/
theorem CheckedEntry.RecursAs.outcomeIn_eq_skipped_iff {e e' : CheckedEntry} (h : e.RecursAs e') {r : Registry} {d : Definition}
    (hd : r.get? e'.name = some d) (hagrees : (e.updated settings d).agreesWith d = true)
    (htext : ∀ text, e.formulaText? settings = some text → d.formula = some text) :
    e'.outcomeIn settings r = .skipped ↔ e'.formulaText? settings = e.formulaText? settings := by
  have hgroup : e'.group settings = e.group settings := by rw [group, group, h.proposal]
  have hupdated : e'.updated settings d = { e.updated settings d with formula := e'.formulaText? settings <|> d.formula } := by
    simp [updated, hgroup, h.proposal, h.kind]
  have hskipped : e'.outcomeIn settings r = .skipped ↔ (e'.updated settings d).agreesWith d = true := by
    simp [outcomeIn, hd]
  rw [hskipped, hupdated]
  constructor
  · intro hagain
    have hformula : (e'.formulaText? settings <|> d.formula) = d.formula :=
      congrArg Definition.formula (Definition.agreesWith_iff.mp hagain)
    have hkeys := h.keys
    cases hf' : e'.formula with
    | none =>
      rw [hf', Option.map_none, eq_comm, Option.map_eq_none_iff] at hkeys
      rw [formulaText?, formulaText?, hf', hkeys]
    | some f' =>
      rw [hf', Option.map_some, eq_comm, Option.map_eq_some_iff] at hkeys
      obtain ⟨f, hf, -⟩ := hkeys
      have hsome : e.formulaText? settings = some (f.render settings.formula.style) := by rw [formulaText?, hf, Option.map_some]
      rw [htext _ hsome] at hformula
      rw [hsome]
      rw [formulaText?, hf', Option.map_some] at hformula ⊢
      exact hformula
  · intro hsame
    rw [hsame]
    exact hagrees

/-! ## Entries that are kept -/

/-- A formula mentions a key: one of its references has it. -/
def CheckedEntry.Mentions (e : CheckedEntry) (key : String) : Prop :=
  ∃ f, e.formula = some f ∧ ∃ name ∈ f.references, keyOf name = key

theorem CheckedEntry.RecursAs.mentions_iff {e e' : CheckedEntry} (h : e.RecursAs e') {key : String} :
    e'.Mentions key ↔ e.Mentions key := by
  have hkeys : ∀ e : CheckedEntry, e.Mentions key ↔ ∃ keys, e.formula.map (·.names.map keyOf) = some keys ∧ key ∈ keys := by
    intro e
    have hmem : ∀ f : Formula.Term, (∃ name ∈ f.references, keyOf name = key) ↔ key ∈ f.names.map keyOf := fun f => by
      rw [← mem_keys_distinctNames, List.mem_map]
      rfl
    simp [Mentions, hmem]
  rw [hkeys, hkeys, h.keys]

namespace Staging

theorem nodup_passing {before : Registry} (hk : before.Keyed) (supply : TokenSupply) (entries : List CheckedEntry) :
    (passing settings now { registry := before, supply := supply } entries).Nodup := by
  have htracks : Tracks settings now before entries (entries.foldl (·.stage settings now ·)
      { registry := before, supply := supply }) := (Tracks.start hk supply).stageAll fun _ he => he
  have hstaged := staged_stageAll { registry := before, supply := supply } settings now entries
  rw [List.map_nil, List.nil_append] at hstaged
  refine List.Nodup.of_map (fun e => keyOf e.name) ?_
  rw [← hstaged, List.map_map]
  exact htracks.keys_nodup

end Staging

namespace State

variable {s s' : State} {entries passing passing' kept kept' : List CheckedEntry} {staging : Staging} {name : String}

theorem consistent_iff : s.Consistent entries ↔ ∀ e ∈ entries, e.proposal.allowMissing = false →
    ∀ name, e.Mentions (keyOf name) → s.Knows name ∨ ∃ e' ∈ entries, keyOf e'.name = keyOf name := by
  refine forall₂_congr fun e _ => forall_congr' fun _ => ⟨?_, fun h f hf name hname => h name ⟨f, hf, name, hname, rfl⟩⟩
  rintro h name ⟨f, hf, reference, hreference, hkey⟩
  rw [← knows_congr hkey, ← hkey]
  exact h f hf reference hreference

/-- What is known after a batch was known before or is the name of an entry that was kept. -/
theorem knows_iff_of_left (htracks : staging.Tracks settings now s.registry entries)
    (hcommitted : s.Committed settings now staging s') :
    s'.Knows name ↔ s.Knows name ∨ ∃ e ∈ staging.staged.map (·.entry), keyOf e.name = keyOf name := by
  refine ⟨fun hknown => ?_, hcommitted.knows htracks⟩
  by_cases hregistered : s'.registry.contains name = true
  · rw [hcommitted.registry, htracks.contains_iff] at hregistered
    refine hregistered.imp .inl ?_
    rintro ⟨staged, hstaged, hkey⟩
    exact ⟨staged.entry, List.mem_map_of_mem hstaged, hkey⟩
  · obtain ⟨f, hf⟩ := SortedMap.contains_iff.mp (hknown.resolve_left hregistered)
    have hnone : s'.registry.get? name = none := SortedMap.contains_eq_false_iff.mp (Bool.eq_false_iff.mpr hregistered)
    have hformula := formula?_of_left htracks hcommitted hnone
    exact .inl (.inr (SortedMap.contains_iff.mpr ⟨f, hformula.symm.trans hf⟩))

/-- Of the entries that were kept before, those are kept again that pass again. -/
theorem forall₂_kept {free : CheckedEntry → Bool} (h : List.Forall₂ CheckedEntry.RecursAs (passing.filter free) passing')
    (hknows : ∀ name, s'.Knows name ↔ s.Knows name ∨ ∃ e ∈ kept, keyOf e.name = keyOf name)
    (hkept : s.Largest passing kept) (hkept' : s'.Largest passing' kept') (hnodup : passing.Nodup) (hnodup' : passing'.Nodup) :
    List.Forall₂ CheckedEntry.RecursAs (kept.filter free) kept' := by
  refine forall₂_of_sublist h (hnodup.filter _) hnodup' (hkept.sublist.filter _) hkept'.sublist fun e he e' he' hrecurs => ?_
  obtain ⟨he, hfree⟩ := List.mem_filter.mp he
  rw [List.mem_filter, and_iff_left hfree]
  constructor
  · -- All that the entry references was known when it was kept, so it can do without all others.
    intro hmem
    refine hkept'.greatest [e'] (by simpa using he') (consistent_iff.mpr ?_) e' (List.mem_singleton_self e')
    rw [List.forall_mem_singleton]
    intro hallow name hname
    rw [hrecurs.proposal] at hallow
    exact .inl ((hknows name).mpr (consistent_iff.mp hkept.consistent e hmem hallow name (hrecurs.mentions_iff.mp hname)))
  · -- The entries that are kept again could have been kept with the others.
    intro hmem
    classical
    have hall : ∀ e'' ∈ kept', ∃ e ∈ passing, e.RecursAs e'' := fun e'' he'' => by
      obtain ⟨e, he, hrecurs⟩ := exists_left_of_forall₂ h (hkept'.sublist.subset he'')
      exact ⟨e, List.mem_of_mem_filter he, hrecurs⟩
    refine hkept.greatest (kept ++ passing.filter fun e => decide (∃ e' ∈ kept', e.RecursAs e')) ?_ (consistent_iff.mpr ?_) e ?_
    · exact List.forall_mem_append.mpr ⟨fun e he => hkept.sublist.subset he, fun e he => List.mem_of_mem_filter he⟩
    · refine List.forall_mem_append.mpr ⟨fun e he hallow name hname => ?_, fun e he hallow name hname => ?_⟩
      · refine (consistent_iff.mp hkept.consistent e he hallow name hname).imp_right ?_
        rintro ⟨other, hother, hkey⟩
        exact ⟨other, List.mem_append_left _ hother, hkey⟩
      · obtain ⟨-, hrepeats⟩ := List.mem_filter.mp he
        obtain ⟨e', he', hrecurs⟩ := of_decide_eq_true hrepeats
        rw [← hrecurs.proposal] at hallow
        rcases consistent_iff.mp hkept'.consistent e' he' hallow name (hrecurs.mentions_iff.mpr hname) with
          hknown | ⟨other', hother', hkey⟩
        · refine ((hknows name).mp hknown).imp_right ?_
          rintro ⟨other, hother, hkey⟩
          exact ⟨other, List.mem_append_left _ hother, hkey⟩
        · obtain ⟨other, hother, hrecurs'⟩ := hall other' hother'
          refine .inr ⟨other, List.mem_append_right _ (List.mem_filter.mpr ⟨hother, ?_⟩), hrecurs'.key.symm.trans hkey⟩
          exact decide_eq_true ⟨other', hother', hrecurs'⟩
    · exact List.mem_append_right _ (List.mem_filter.mpr ⟨he, decide_eq_true ⟨e', hmem, hrecurs⟩⟩)

end State

/-! ## Batches -/

namespace State

/-- A batch has created and updated nothing, and has left registry, graph and history as they were. -/
structure Idle (s : State) (result : BatchOutcome) (after : State) : Prop where
  created : result.createdNames = []
  updated : result.updatedNames = []
  revision : result.revision = none
  registry : after.registry = s.registry
  graph : after.graph = s.graph
  history : after.history = s.history

instance (s : State) (result : BatchOutcome) (after : State) : Decidable (s.Idle result after) :=
  decidable_of_iff ((result.createdNames = [] ∧ result.updatedNames = [] ∧ result.revision = none) ∧
      after.registry = s.registry ∧ after.graph = s.graph ∧ after.history = s.history)
    ⟨fun ⟨⟨hcreated, hupdated, hrevision⟩, hregistry, hgraph, hhistory⟩ =>
      ⟨hcreated, hupdated, hrevision, hregistry, hgraph, hhistory⟩,
      fun h => ⟨⟨h.created, h.updated, h.revision⟩, h.registry, h.graph, h.history⟩⟩

variable {s s' : State} {batch : Batch} {entries repeated : List CheckedEntry} {supply : TokenSupply} {staging : Staging}

/-- A batch that the gates do not let through is idle. -/
theorem idle_of_not_admits (h : ∀ entries, ¬s.Admits settings batch entries) (now : Instant) (supply : TokenSupply) :
    s.Idle (s.create settings now supply batch false).1 (s.create settings now supply batch false).2.1 := by
  by_cases hempty : batch.entries = []
  · simp only [create, hempty, List.isEmpty_nil, ↓reduceIte]
    exact ⟨rfl, rfl, rfl, rfl, rfl, rfl⟩
  · have hentries : batch.entries.isEmpty = false := by simpa using hempty
    cases hcheck : s.checkEntries settings batch.entries with
    | error issues =>
      simp only [create, hentries, hcheck, Bool.false_eq_true, ↓reduceIte]
      exact ⟨rfl, rfl, rfl, rfl, rfl, rfl⟩
    | ok entries =>
      have hclash := mt unclashed_iff.mpr fun hclash => h entries ⟨hempty, hcheck, hclash⟩
      rw [Bool.not_eq_false] at hclash
      simp only [create, hentries, hcheck, hclash, Bool.false_eq_true, ↓reduceIte]
      exact ⟨rfl, rfl, rfl, rfl, rfl, rfl⟩

/-- A batch is idle if all that it keeps is skipped and setting its formulas again changes nothing. -/
theorem idle_create_iff (hk : s.registry.Keyed) (hadmits : s.Admits settings batch entries) (now : Instant)
    (supply : TokenSupply) : let staging := Staging.ofEntries settings now s supply entries
    s.Idle (s.create settings now supply batch false).1 (s.create settings now supply batch false).2.1 ↔
      (∀ e ∈ staging.staged.map (·.entry), e.outcomeIn settings s.registry = .skipped) ∧
        s.graph.setAll staging.references = s.graph := by
  intro staging
  have htracks : staging.Tracks settings now s.registry entries := Staging.tracks_ofEntries settings now hk supply entries
  have hcommitted := s.committed_commitStaging settings now batch staging
  have hchanges := changes_eq_nil_iff htracks
  have houtcomes : (∀ e ∈ staging.staged, e.outcome = .skipped) ↔
      ∀ e ∈ staging.staged.map (·.entry), e.outcomeIn settings s.registry = .skipped := by
    rw [List.forall_mem_map]
    exact forall₂_congr fun e he => by rw [(htracks.written e he).eq_outcomeIn]
  have hcounts := Committing.counts settings now { state := { s with registry := staging.registry } } staging.staged
    fun e he => SortedMap.contains_iff.mpr (htracks.written e he).registered
  rw [create_of_admits hadmits, if_neg Bool.false_ne_true, ← houtcomes]
  constructor
  · intro hidle
    have hrevision : (s.commitStaging settings now batch staging).changes = [] := by
      simpa [batchResult] using hidle.revision
    rw [changes_commitStaging, hchanges] at hrevision
    exact ⟨hrevision, hcommitted.graph.symm.trans hidle.graph⟩
  · rintro ⟨hskipped, hgraph⟩
    have hnone : ∀ outcome : StagedAs, outcome ≠ .skipped → staging.staged.filter (·.outcome == outcome) = [] := by
      intro outcome hne
      refine List.filter_eq_nil_iff.mpr fun e he => ?_
      simpa [hskipped e he] using hne.symm
    constructor
    case created => exact hcounts.created.trans (by simp [hnone .created (by simp)])
    case updated => exact hcounts.updated.trans (by simp [hnone .updated (by simp)])
    case revision => simp [batchResult, changes_commitStaging, hchanges.mpr hskipped, staging]
    case registry => exact hcommitted.registry.trans (registry_of_skipped hk htracks hskipped)
    case graph => exact hcommitted.graph.trans hgraph
    case history =>
      obtain ⟨message, hhistory⟩ := hcommitted.history
      rw [hchanges.mpr hskipped] at hhistory
      exact hhistory

/-- A batch that passes the checks again has the same entries as before, up to the case of names. -/
theorem forall₂_checkEntries (hk : s.registry.Keyed) (ht : s.formulas.Keyed)
    (htracks : staging.Tracks settings now s.registry entries) (hcommitted : s.Committed settings now staging s')
    (hnaming : settings.naming = {}) {proposals : List Proposal} (hcheck : s.checkEntries settings proposals = .ok entries)
    (hcheck' : s'.checkEntries settings proposals = .ok repeated) : List.Forall₂ CheckedEntry.RecursAs entries repeated := by
  have hrecurs : ∀ e ∈ entries, ∀ e' ∈ repeated, e'.proposal = e.proposal → e'.kind = e.kind → e'.identity = e.identity →
      e.RecursAs e' := fun e he e' he' hproposal hkind hidentity =>
    recursAs_of_left hk ht htracks hcommitted hnaming hcheck he (checks_of_mem hcheck' he') hproposal hkind hidentity
  obtain ⟨-, -, hentries⟩ := checkEntries_eq_ok hcheck
  obtain ⟨-, -, hrepeated⟩ := checkEntries_eq_ok hcheck'
  have hproposals : List.Forall₂ (fun p p' : Proposal => p' = p ∧ p ∈ proposals) proposals proposals :=
    List.forall₂_same.mpr fun p hp => ⟨rfl, hp⟩
  conv => rw [hentries, hrepeated]
  refine List.rel_filterMap (fun p p' => ?_) hproposals
  rintro ⟨rfl, hp⟩
  have hmem : ∀ e, s.checked? settings (s.batchNames settings proposals) p' = some e → e ∈ entries := fun e he =>
    hentries ▸ List.mem_filterMap.mpr ⟨p', hp, he⟩
  have hmem' : ∀ e, s'.checked? settings (s'.batchNames settings proposals) p' = some e → e ∈ repeated := fun e he =>
    hrepeated ▸ List.mem_filterMap.mpr ⟨p', hp, he⟩
  simp only [checked?] at hmem hmem' ⊢
  cases hkind : ValueKind.named? p'.kind with
  | none => exact .none
  | some kind =>
    simp only [hkind, Option.map_some] at hmem hmem' ⊢
    exact .some (hrecurs _ (hmem _ rfl) _ (hmem' _ rfl) rfl rfl rfl)

end State

/-! ## Batches that come back -/

theorem StagedAs.Writes.name_eq {e : CheckedEntry} {outcome : StagedAs} {previous : Option Definition} {d : Definition}
    (h : outcome.Writes settings now e previous (some d)) (hprevious : ∀ old, previous = some old → e.name = old.name) :
    d.name = e.name := by
  cases h with
  | created token => rfl
  | updated old => exact (hprevious old rfl).symm
  | skipped old => exact (hprevious d rfl).symm

/-- Entries that were kept can come back without a trace: of those that can still have their tokens, none has a
registered name in another spelling in its formula, and none that has references stands before an entry with
references that cannot have its token any more. -/
structure Registry.Repeatable (r : Registry) (kept : List CheckedEntry) : Prop where
  spelled : ∀ e ∈ kept, e.tokenOwner? r = none → ¬e.Respells r
  ordered : kept.Pairwise fun e e' => e.tokenOwner? r = none → (∃ key, e.Mentions key) → (∃ key, e'.Mentions key) →
    e'.tokenOwner? r = none

namespace State

variable {s s' : State} {batch : Batch} {entries repeated : List CheckedEntry} {supply : TokenSupply} {staging : Staging}

theorem mentions_iff_references {e : CheckedEntry} :
    (∃ key, e.Mentions key) ↔ ∃ f, e.references? = some f ∧ f.2 ≠ [] := by
  simp only [CheckedEntry.Mentions, CheckedEntry.references?, Option.map_eq_some_iff]
  constructor
  · rintro ⟨_, f, hf, name, hname, -⟩
    exact ⟨_, ⟨f, hf, rfl⟩, List.ne_nil_of_mem hname⟩
  · rintro ⟨_, ⟨f, hf, rfl⟩, hne⟩
    obtain ⟨name, hname⟩ := List.exists_mem_of_ne_nil _ hne
    exact ⟨keyOf name, f, hf, name, hname, rfl⟩

/-- Setting the formulas of some entries again leaves the graph as it is exactly if none of them that has references
stands before another entry with references. -/
theorem setAll_filter_eq_iff {g : Graph} (hc : g.Coherent) {before : Registry}
    (htracks : staging.Tracks settings now before entries) (free : CheckedEntry → Bool) :
    (g.setAll staging.references).setAll (((staging.staged.map (·.entry)).filter free).filterMap (·.references?)) =
        g.setAll staging.references ↔
      (staging.staged.map (·.entry)).Pairwise fun e e' =>
        free e = true → (∃ key, e.Mentions key) → (∃ key, e'.Mentions key) → free e' = true := by
  have hnodup := references_nodup htracks
  have hkeys : ((staging.staged.map (·.entry)).map fun e => keyOf e.name).Nodup := by
    rw [List.map_map]
    exact htracks.keys_nodup
  rw [Staging.references_eq_filterMap] at hnodup ⊢
  generalize staging.staged.map (·.entry) = kept at hnodup hkeys ⊢
  have hname : ∀ {e : CheckedEntry} {f : String × List String}, e.references? = some f → f.1 = e.name := by
    intro e f hf
    obtain ⟨_, -, rfl⟩ := Option.map_eq_some_iff.mp hf
    rfl
  have hagain : ∀ e ∈ kept, ∀ f, e.references? = some f → (f ∈ (kept.filter free).filterMap (·.references?) ↔ free e = true) := by
    intro e he f hf
    constructor
    · intro hmem
      obtain ⟨e', he', hf'⟩ := List.mem_filterMap.mp hmem
      obtain ⟨he', hfree⟩ := List.mem_filter.mp he'
      have hkey : keyOf e'.name = keyOf e.name := by rw [← hname hf', hname hf]
      obtain rfl := List.inj_on_of_nodup_map hkeys he' he hkey
      exact hfree
    · intro hfree
      exact List.mem_filterMap.mpr ⟨e, List.mem_filter.mpr ⟨he, hfree⟩, hf⟩
  rw [Graph.setAll_setAll_eq_iff hc hnodup (List.filter_sublist.filterMap _), List.pairwise_filterMap]
  refine List.Pairwise.iff_of_mem fun {e e'} he he' => ?_
  simp only [mentions_iff_references]
  constructor
  · rintro h hfree ⟨f, hf, hne⟩ ⟨f', hf', hne'⟩
    exact (hagain e' he' f' hf').mp (h f hf f' hf' ((hagain e he f hf).mpr hfree) hne hne')
  · rintro h f hf f' hf' hmem hne hne'
    exact (hagain e' he' f' hf').mpr (h ((hagain e he f hf).mp hmem) ⟨f, hf, hne⟩ ⟨f', hf', hne'⟩)

section Again

variable (hk : s.registry.Keyed) (ht : s.formulas.Keyed) (htracks : staging.Tracks settings now s.registry entries)
  (hcommitted : s.Committed settings now staging s') {e e' : CheckedEntry}
  (hcheck : s.checkEntries settings batch.entries = .ok entries) (hcheck' : s'.checkEntries settings batch.entries = .ok repeated)
  (he : e ∈ staging.staged.map (·.entry)) (he' : e' ∈ repeated) (hrecurs : e.RecursAs e')
include hk ht htracks hcommitted hcheck hcheck' he he' hrecurs

/-- An entry that was kept and comes back is skipped unless a registered name in its formula gets another spelling. -/
theorem outcomeIn_of_left : e'.outcomeIn settings s'.registry = .skipped ↔ ¬e.Respells s'.registry := by
  obtain ⟨staged, hstaged, rfl⟩ := List.mem_map.mp he
  obtain ⟨d, hd, hagrees, htext⟩ := (htracks.written staged hstaged).settled
  rw [← hcommitted.registry] at hd
  rw [hrecurs.outcomeIn_eq_skipped_iff ((Registry.get?_congr hrecurs.key).trans hd) hagrees htext]
  exact formulaText?_of_left hk ht htracks hcommitted (checks_of_mem hcheck (htracks.mem staged hstaged))
    (checks_of_mem hcheck' he') hrecurs (SortedMap.contains_iff.mpr ⟨d, hd⟩)

theorem references?_of_left (hnot : ¬e.Respells s'.registry) : e'.references? = e.references? := by
  obtain ⟨staged, hstaged, rfl⟩ := List.mem_map.mp he
  have hchecks := checks_of_mem hcheck (htracks.mem staged hstaged)
  have hchecks' := checks_of_mem hcheck' he'
  have hwritten := htracks.written staged hstaged
  obtain ⟨d, hd⟩ := hwritten.registered
  rw [hd] at hwritten
  have hname := hwritten.name_eq fun old hold => hchecks.name_of_get? hk hold
  rw [← hcommitted.registry] at hd
  have hname' := hchecks'.name_of_get? (keyed_of_left htracks hcommitted) ((Registry.get?_congr hrecurs.key).trans hd)
  rw [CheckedEntry.references?, CheckedEntry.references?, hname', hname,
    formula_of_left hk ht htracks hcommitted hchecks hchecks' hrecurs (SortedMap.contains_iff.mpr ⟨d, hd⟩) hnot]

end Again

/-- What a batch keeps when it comes back: of the entries that it kept before, those that can still have their tokens. -/
theorem forall₂_kept_again (hk : s.registry.Keyed) (ht : s.formulas.Keyed) (hnaming : settings.naming = {})
    (hcommitted : s.Committed settings now (.ofEntries settings now s supply entries) s')
    (hcheck : s.checkEntries settings batch.entries = .ok entries)
    (hcheck' : s'.checkEntries settings batch.entries = .ok repeated)
    (hfresh : ∀ e ∈ entries, ∀ token, e.identity = some token → supply.Spares (entries.length + entries.length) token) :
    List.Forall₂ CheckedEntry.RecursAs
      (((Staging.ofEntries settings now s supply entries).staged.map (·.entry)).filter fun e =>
        (e.tokenOwner? s'.registry).isNone)
      ((Staging.ofEntries settings later s' (Staging.ofEntries settings now s supply entries).supply repeated).staged.map
        (·.entry)) := by
  have htracks := Staging.tracks_ofEntries settings now hk supply entries
  have hk' := keyed_of_left htracks hcommitted
  have hstart : Staging.Tracks settings now s.registry entries { registry := s.registry, supply := supply } := .start hk supply
  have hbefore : ∀ key token, s.registry.Bears key token → s'.registry.Bears key token := fun key token hkey =>
    hcommitted.registry ▸ htracks.bears_of_before hk hkey
  have hlasting : ∀ key token, s'.registry.Bears key token →
      (entries.foldl (·.stage settings now ·) { registry := s.registry, supply := supply } : Staging).registry.Bears key token :=
    fun key token hkey => by
      rw [hcommitted.registry] at hkey
      exact (hstart.stageAll fun _ he => he).bears_of_settle hk s.formulas hkey
  have hstart' : Staging.Tracks settings later s'.registry repeated
      { registry := s'.registry, supply := (Staging.ofEntries settings now s supply entries).supply } := .start hk' _
  have hpassing := Staging.forall₂_passing (forall₂_checkEntries hk ht htracks hcommitted hnaming hcheck hcheck') hstart hstart'
    (fun _ he => he) (fun _ he => he) hk' hbefore rfl hlasting fun e he token htoken =>
      { lower := fun key hkey => hbefore key token hkey
        upper := fun key hkey => .inl hkey
        left := fun key hkey => hkey
        spares := fun n hn => hfresh e he token htoken n (Nat.lt_add_right _ hn)
        sparesAgain := Staging.spares_ofEntries (hfresh e he token htoken) }
  exact forall₂_kept hpassing (fun name => knows_iff_of_left htracks hcommitted)
    (Staging.largest_ofEntries settings now hk supply entries) (Staging.largest_ofEntries settings later hk' _ repeated)
    (Staging.nodup_passing hk supply entries) (Staging.nodup_passing hk' _ repeated)

/-- What becomes of an entry that is kept again. -/
structure Returns (settings : Settings) (r : Registry) (e e' : CheckedEntry) : Prop where
  free : e.tokenOwner? r = none
  skipped : ¬e.Respells r ↔ e'.outcomeIn settings r = .skipped
  references : ¬e.Respells r → e.references? = e'.references?

theorem forall₂_returns (hk : s.registry.Keyed) (ht : s.formulas.Keyed)
    (htracks : staging.Tracks settings now s.registry entries) (hcommitted : s.Committed settings now staging s')
    (hcheck : s.checkEntries settings batch.entries = .ok entries)
    (hcheck' : s'.checkEntries settings batch.entries = .ok repeated) {kept' : List CheckedEntry}
    (hkept' : ∀ e ∈ kept', e ∈ repeated) (h : List.Forall₂ CheckedEntry.RecursAs
      ((staging.staged.map (·.entry)).filter fun e => (e.tokenOwner? s'.registry).isNone) kept') :
    List.Forall₂ (Returns settings s'.registry)
      ((staging.staged.map (·.entry)).filter fun e => (e.tokenOwner? s'.registry).isNone) kept' := by
  refine (forall₂_mem h).imp fun e e' ⟨hmem, hmem', hrecurs⟩ => ?_
  obtain ⟨he, hfree⟩ := List.mem_filter.mp hmem
  have he' := hkept' e' hmem'
  constructor
  case free => exact Option.isNone_iff_eq_none.mp hfree
  case skipped => exact (outcomeIn_of_left hk ht htracks hcommitted hcheck hcheck' he he' hrecurs).symm
  case references =>
    exact fun hnot => (references?_of_left hk ht htracks hcommitted hcheck hcheck' he he' hrecurs hnot).symm

/-- Entries that are kept again are skipped and have their formulas set again without a trace exactly if they are
repeatable. -/
theorem repeatable_iff {g : Graph} (hc : g.Coherent) {before r : Registry} (htracks : staging.Tracks settings now before entries)
    {kept' : List CheckedEntry} (h : List.Forall₂ (Returns settings r)
      ((staging.staged.map (·.entry)).filter fun e => (e.tokenOwner? r).isNone) kept') :
    ((∀ e ∈ kept', e.outcomeIn settings r = .skipped) ∧
        (g.setAll staging.references).setAll (kept'.filterMap (·.references?)) = g.setAll staging.references) ↔
      r.Repeatable (staging.staged.map (·.entry)) := by
  have hordered := setAll_filter_eq_iff hc htracks fun e => (e.tokenOwner? r).isNone
  simp only [Option.isNone_iff_eq_none] at hordered
  have hspelled : (∀ e ∈ staging.staged.map (·.entry), e.tokenOwner? r = none → ¬e.Respells r) ↔
      ∀ e ∈ kept', e.outcomeIn settings r = .skipped := by
    rw [← forall_iff_of_forall₂ h fun e e' h => h.skipped]
    simp only [List.mem_filter, Option.isNone_iff_eq_none, and_imp]
  -- Entries without another spelling have the formulas that they had.
  have hreferences : (∀ e ∈ staging.staged.map (·.entry), e.tokenOwner? r = none → ¬e.Respells r) →
      ((staging.staged.map (·.entry)).filter fun e => (e.tokenOwner? r).isNone).filterMap (·.references?) =
        kept'.filterMap (·.references?) := fun hnot => by
    refine filterMap_eq_of_forall₂ ((forall₂_mem h).imp fun e e' ⟨hmem, _, hreturns⟩ => ?_)
    exact hreturns.references (hnot e (List.mem_of_mem_filter hmem) hreturns.free)
  rw [← hspelled]
  constructor
  · rintro ⟨hnot, hgraph⟩
    rw [← hreferences hnot] at hgraph
    exact ⟨hnot, hordered.mp hgraph⟩
  · rintro ⟨hnot, hpairwise⟩
    rw [← hreferences hnot]
    exact ⟨hnot, hordered.mpr hpairwise⟩

/-- A batch that is let through twice is idle the second time exactly if the entries that it kept are repeatable. -/
theorem idle_again_iff (now later : Instant) (repeated : List CheckedEntry) (hk : s.registry.Keyed)
    (ht : s.formulas.Keyed) (hc : s.graph.Coherent) (hnaming : settings.naming = {}) (hadmits : s.Admits settings batch entries)
    (hfresh : ∀ e ∈ entries, ∀ token, e.identity = some token → supply.Spares (entries.length + entries.length) token) :
    let first := s.create settings now supply batch false
    let again := first.2.1.create settings later first.2.2 batch false
    first.2.1.Admits settings batch repeated →
      (first.2.1.Idle again.1 again.2.1 ↔
        first.2.1.registry.Repeatable ((Staging.ofEntries settings now s supply entries).staged.map (·.entry))) := by
  intro first again hadmits'
  have hfirst : first = _ := create_of_admits hadmits
  rw [if_neg Bool.false_ne_true] at hfirst
  have hcommitted : s.Committed settings now (.ofEntries settings now s supply entries) first.2.1 := by
    rw [hfirst]
    exact s.committed_commitStaging settings now batch _
  have hsupply : first.2.2 = (Staging.ofEntries settings now s supply entries).supply := by rw [hfirst]
  have htracks := Staging.tracks_ofEntries settings now hk supply entries
  have hk' := keyed_of_left htracks hcommitted
  have htracks' := Staging.tracks_ofEntries settings later hk' first.2.2 repeated
  have hreturns := forall₂_returns hk ht htracks hcommitted hadmits.checked hadmits'.checked
    (List.forall_mem_map.mpr htracks'.mem)
    (hsupply ▸ forall₂_kept_again hk ht hnaming hcommitted hadmits.checked hadmits'.checked hfresh)
  rw [← repeatable_iff hc htracks hreturns, ← Staging.references_eq_filterMap, ← hcommitted.graph]
  exact idle_create_iff hk' hadmits' later first.2.2

end State

namespace Engine

theorem supply_create (e : Engine) (now : Instant) (batch : Batch) (cancelled : Bool) :
    (e.create now batch cancelled).2.supply = (e.state.create e.settings now e.supply batch cancelled).2.2 := by
  simp only [create]
  split
  · simp only [commit, saveOrWarn, save, Store.write]
    cases e.store.fault <;> rfl
  · rfl

theorem idle_create_iff (e : Engine) (now : Instant) (batch : Batch) (cancelled : Bool) :
    e.state.Idle (e.create now batch cancelled).1 (e.create now batch cancelled).2.state ↔
      e.state.Idle (e.state.create e.settings now e.supply batch cancelled).1
        (e.state.create e.settings now e.supply batch cancelled).2.1 := by
  obtain ⟨warnings, hresult⟩ := outcome_create e now batch cancelled
  rw [hresult, (moved_create e now batch cancelled).state]
  exact ⟨fun h => ⟨h.created, h.updated, h.revision, h.registry, h.graph, h.history⟩,
    fun h => ⟨h.created, h.updated, h.revision, h.registry, h.graph, h.history⟩⟩

theorem idle_again_iff (e : Engine) (now later : Instant) (batch : Batch) (hk : e.state.registry.Keyed)
    (ht : e.state.formulas.Keyed) (hc : e.state.graph.Coherent) (hnaming : e.settings.naming = {})
    (hfresh : ∀ p ∈ batch.entries, ∀ token, p.token? = some token → e.supply.Spares (2 * batch.entries.length) token) :
    let first := e.create now batch false
    let again := first.2.create later batch false
    first.2.state.Idle again.1 again.2.state ↔ ∀ entries repeated, e.state.Admits e.settings batch entries →
      first.2.state.Admits e.settings batch repeated → first.2.state.registry.Repeatable
        ((Staging.ofEntries e.settings now e.state e.supply entries).staged.map (·.entry)) := by
  intro first again
  have hmoved := moved_create e now batch false
  rw [idle_create_iff, hmoved.settings]
  by_cases hadmits : ∃ entries repeated, e.state.Admits e.settings batch entries ∧
      first.2.state.Admits e.settings batch repeated
  · obtain ⟨entries, repeated, hentries, hrepeated⟩ := hadmits
    have hunique : ∀ entries', e.state.Admits e.settings batch entries' → entries' = entries := fun entries' h =>
      Except.ok.inj (h.checked.symm.trans hentries.checked)
    have hfresh' : ∀ x ∈ entries, ∀ token, x.identity = some token →
        e.supply.Spares (entries.length + entries.length) token := fun x hx token htoken => by
      rw [State.length_checkEntries hentries.checked, ← Nat.two_mul]
      exact hfresh x.proposal (State.proposal_mem hentries.checked hx) token
        ((State.checks_of_mem hentries.checked hx).identity.symm.trans htoken)
    have hiff := State.idle_again_iff now later repeated hk ht hc hnaming hentries hfresh'
    dsimp only at hiff
    rw [← hmoved.state, ← supply_create] at hiff
    refine (hiff hrepeated).trans ⟨fun hrepeatable entries' _ hentries' _ => ?_, fun h => h entries repeated hentries hrepeated⟩
    rw [hunique entries' hentries']
    exact hrepeatable
  · -- One of the two batches is refused, and so is the second one then.
    refine iff_of_true (State.idle_of_not_admits (fun repeated hrepeated => ?_) later first.2.supply)
      fun entries repeated hentries hrepeated => absurd ⟨entries, repeated, hentries, hrepeated⟩ hadmits
    rcases e.state.refused_or_admits e.settings now e.supply batch false with ⟨result, -, hrefused⟩ | ⟨entries, hentries⟩
    · have hsame : first.2.state = e.state := by rw [hmoved.state, hrefused]
      exact hadmits ⟨repeated, repeated, hsame ▸ hrepeated, hrepeated⟩
    · exact hadmits ⟨entries, repeated, hentries, hrepeated⟩

variable {ε : Type} [ElementAccess ε]

/-- Whatever led to an engine with the default naming convention, and whatever a batch asks for whose tokens are not
the next ones of the supply: if the batch is asked for again right after it, it creates and updates nothing and leaves
registry, graph and history as they are exactly if it is refused or the entries that it kept are repeatable. -/
theorem idle_create_again_iff (settings : Settings) (start : Instant) (supply : TokenSupply)
    (steps : List (Instant × Operation ε)) (now later : Instant) (batch : Batch)
    (hnaming : ((fresh settings start supply).run steps).settings.naming = {})
    (hfresh : ∀ p ∈ batch.entries, ∀ token, p.token? = some token →
      ((fresh settings start supply).run steps).supply.Spares (2 * batch.entries.length) token) :
    let e := (fresh settings start supply).run steps
    let first := e.create now batch false
    let again := first.2.create later batch false
    first.2.state.Idle again.1 again.2.state ↔ ∀ entries repeated, e.state.Admits e.settings batch entries →
      first.2.state.Admits e.settings batch repeated → first.2.state.registry.Repeatable
        ((Staging.ofEntries e.settings now e.state e.supply entries).staged.map (·.entry)) := by
  exact idle_again_iff _ now later batch (keyed_invariant.of_any_run start settings supply steps).registry
    (tabled_invariant.of_any_run start settings supply steps).formulas
    (coherent_invariant.of_any_run start settings supply steps) hnaming hfresh

/-- A run that commits a formula of a name that is not registered. -/
def earlyFormulaRun : List (Instant × Operation LocalElement) := [(⟨0, 0⟩, .compile {} "foo" "2")]

/-- The name is referenced in another case, and the name of the formula that does so comes a second time. -/
def dependentBatch : Batch where
  entries := [{ name := "bar", kind := "real", identity := some "11111111111141118111111111111111", formula := some "FOO + 1" },
    { name := "Bar", kind := "real" }]

theorem idle_create_again_dependent :
    let e := (fresh {} ⟨0, 0⟩ (.ofSeed 0)).run earlyFormulaRun
    let first := e.create ⟨1, 0⟩ dependentBatch false
    let again := first.2.create ⟨2, 0⟩ dependentBatch false
    e.settings.naming = {} ∧
      (∀ p ∈ dependentBatch.entries, ∀ token, p.token? = some token → e.supply.Spares (2 * dependentBatch.entries.length) token) ∧
      first.1.createdNames = ["Bar"] ∧ first.2.state.Idle again.1 again.2.state ∧
      ∀ entries repeated, e.state.Admits e.settings dependentBatch entries → first.2.state.Admits e.settings dependentBatch repeated →
        first.2.state.registry.Repeatable
          ((Staging.ofEntries e.settings ⟨1, 0⟩ e.state e.supply entries).staged.map (·.entry)) := by
  have hnaming : ((fresh {} ⟨0, 0⟩ (.ofSeed 0)).run earlyFormulaRun).settings.naming = {} := by decide +kernel
  have hall : dependentBatch.entries.all (fun p => p.token?.all fun token =>
      (List.range (2 * dependentBatch.entries.length)).all fun n =>
        ((fresh {} ⟨0, 0⟩ (.ofSeed 0)).run earlyFormulaRun).supply.token
          (((fresh {} ⟨0, 0⟩ (.ofSeed 0)).run earlyFormulaRun).supply.drawn + n) != token) = true := by
    decide +kernel
  have hfresh : ∀ p ∈ dependentBatch.entries, ∀ token, p.token? = some token →
      ((fresh {} ⟨0, 0⟩ (.ofSeed 0)).run earlyFormulaRun).supply.Spares (2 * dependentBatch.entries.length) token := by
    intro p hp token htoken n hn
    have hp := List.all_eq_true.mp hall p hp
    rw [htoken, Option.all_some, List.all_eq_true] at hp
    exact bne_iff_ne.mp (hp n (List.mem_range.mpr hn))
  have hiff := idle_create_again_iff {} ⟨0, 0⟩ (.ofSeed 0) earlyFormulaRun ⟨1, 0⟩ ⟨2, 0⟩ dependentBatch hnaming hfresh
  dsimp only at hiff ⊢
  refine ⟨hnaming, hfresh, by decide +kernel, ?_⟩
  -- The second batch is evaluated; what it says about the kept entries is the other side of the equivalence.
  rw [← hiff, and_self_iff]
  decide +kernel

/-- The name is registered in another spelling, and a formula references it. -/
def respellingBatch : Batch where
  entries := [{ name := "foo", kind := "real" }, { name := "bar", kind := "real", formula := some "foo + 1" }]

/-- The formula has the spelling of the table first and the registered one afterwards. -/
theorem not_idle_create_again_respelling :
    let e := (fresh {} ⟨0, 0⟩ (.ofSeed 0)).run earlyFormulaRun
    let first := e.create ⟨1, 0⟩ respellingBatch false
    let again := first.2.create ⟨2, 0⟩ respellingBatch false
    e.settings.naming = {} ∧ first.1.createdNames = ["Foo", "Bar"] ∧ again.1.updatedNames = ["Bar"] ∧
      again.1.revision = some "0.1.1" ∧ ¬first.2.state.Idle again.1 again.2.state := by
  intro e first again
  have hupdated : again.1.updatedNames = ["Bar"] := by decide +kernel
  refine ⟨by decide +kernel, by decide +kernel, hupdated, by decide +kernel, fun hidle => ?_⟩
  exact List.cons_ne_nil _ _ (hupdated.symm.trans hidle.updated)

end Engine

end Parametric
