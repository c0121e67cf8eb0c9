import Mathlib.Data.List.Nodup
import Parametric.Proofs.Creation.Check
import Parametric.Proofs.Definition.Notation
import Parametric.Proofs.Dependency.Search
import Parametric.Proofs.Formula.References
import Parametric.Proofs.Name.Validation

/-!
# Definitions as entries

What the checks of a batch make of definitions that are given whole: their names, kinds and tokens are read
back from their texts.
-/

namespace Parametric

/-! ## Blank texts -/

theorem Convention.IsNormal.chars {c : Convention} (hc : c.Separates) {name : String} (h : c.IsNormal name) :
    ∃ words, name = .ofList (c.join words) ∧ words ≠ [] ∧ ∀ word ∈ words, word.Solid := by
  have hname : name = .ofList (c.normalizePass name.toList) := by rw [← normalize_eq hc, h.fixed]
  have hpass : c.normalizePass name.toList ≠ [] := fun hnil => h.nonempty (by rw [hname, hnil])
  obtain ⟨words, hjoin, hwords, hsolid, -⟩ := exists_join_of_normalizePass hpass
  exact ⟨words, by rw [← hjoin, ← hname], hwords, hsolid⟩

theorem Convention.IsNormal.isBlankText {c : Convention} (hc : c.Separates) {name : String} (h : c.IsNormal name) :
    Text.isBlankText name = false := by
  obtain ⟨words, rfl, hwords, hsolid⟩ := h.chars hc
  obtain ⟨char, hchar, halnum⟩ := head?_join (c := c) hwords hsolid
  rw [Text.isBlankText, String.toList_ofList, List.all_eq_false]
  exact ⟨char, List.mem_of_head? hchar, by simp [Text.isBlank_of_isAlphanum halnum]⟩

theorem Identity.isBlankText_text (t : Identity) : Text.isBlankText t.text = false := by
  have hne : t.text.toList ≠ [] := List.ne_nil_of_length_pos (by
    rw [toList_text, length_hyphenated t.length_digits]
    decide)
  obtain ⟨c, rest, hcons⟩ := List.exists_cons_of_ne_nil hne
  have hc : c ∈ t.text.toList := hcons ▸ List.mem_cons_self
  have hblank : Text.isBlank c = false := by
    rcases isAlphanum_or_hyphen hc with h | rfl
    · exact Text.isBlank_of_isAlphanum h
    · decide
  rw [Text.isBlankText, List.all_eq_false]
  exact ⟨c, hc, by simp [hblank]⟩

theorem Formula.isBlankText_of_parse {text : String} {e : Term} (h : parse text = .ok e) :
    Text.isBlankText text = false := by
  have hscan : ∀ (chars : List Char) (position : Nat), chars.all Text.isBlank = true →
      ∃ stop, scanFrom position chars = .ok [⟨.eof, stop⟩] := by
    intro chars
    induction chars with
    | nil => exact fun position _ => ⟨position, by rw [scanFrom]⟩
    | cons c rest ih =>
        intro position hblank
        rw [List.all_cons, Bool.and_eq_true] at hblank
        obtain ⟨stop, hrest⟩ := ih (position + 1) hblank.2
        exact ⟨stop, by rw [scanFrom, if_pos hblank.1, hrest]⟩
  rw [← Bool.not_eq_true]
  intro hblank
  obtain ⟨stop, htokens⟩ := hscan text.toList 0 hblank
  rw [parse, tokenize, htokens] at h
  cases h

/-! ## Definitions as proposals -/

namespace Definition

def expression? (d : Definition) : Option Formula.Term :=
  d.formula.bind fun text => (Formula.parse text).toOption

def stored? (now : Instant) (d : Definition) : Option StoredFormula :=
  d.expression?.map fun e => ⟨d.name, d.formula.getD "", d.formula.getD "", e.references, now⟩

def checked (d : Definition) : CheckedEntry := ⟨.ofDefinition d, d.name, d.kind, some d.identity, d.expression?⟩

end Definition

namespace Proposal

theorem token?_ofDefinition (d : Definition) : (ofDefinition d).token? = some d.identity := by
  have hfilter : (ofDefinition d).identityText? = some d.identity.text := by
    simp [identityText?, ofDefinition, Option.filter, d.identity.isBlankText_text]
  rw [token?, hfilter, Option.bind_some, Identity.parseTrimmed?_text]

theorem identityErrors_ofDefinition (d : Definition) : (ofDefinition d).identityErrors = [] := by
  rw [identityErrors]
  split
  · rw [token?_ofDefinition]
    rfl
  · rfl

theorem kindErrors_ofDefinition (d : Definition) : (ofDefinition d).kindErrors = [] := by
  simp [kindErrors, ofDefinition, ValueKind.named?_name]

theorem nameErrors_ofDefinition {settings : Settings} {d : Definition} (hc : settings.naming.Separates)
    (hnormal : settings.naming.IsNormal d.name) (hfree : settings.registry.reserves d.name = false) :
    (ofDefinition d).nameErrors settings = [] := by
  have hname : (ofDefinition d).name = d.name := rfl
  simp [nameErrors, hname, hnormal.fixed, hnormal.isBlankText hc, hnormal.nonempty, hfree]

end Proposal

namespace State

theorem entryIssues_eq_nil {s : State} {settings : Settings} {names : SortedMap String} {number : Nat}
    {proposals : List Proposal} (h : ∀ p ∈ proposals, s.entryErrors settings names p = []) :
    s.entryIssues settings names number proposals = [] := by
  induction proposals generalizing number with
  | nil => rfl
  | cons first rest ih =>
      obtain ⟨hfirst, hrest⟩ := List.forall_mem_cons.mp h
      rw [entryIssues, hfirst, ih hrest]
      rfl

theorem checkEntries_eq_ok_iff {s : State} {settings : Settings} {proposals : List Proposal}
    {entries : List CheckedEntry} : s.checkEntries settings proposals = .ok entries ↔
      (∀ p ∈ proposals, s.entryErrors settings (s.batchNames settings proposals) p = []) ∧
        s.graph.cycleWithAll (s.batchFormulas settings (s.batchNames settings proposals) proposals) = none ∧
        entries = proposals.filterMap (s.checked? settings (s.batchNames settings proposals)) := by
  constructor
  · intro h
    obtain ⟨hissues, hcycle, hentries⟩ := checkEntries_eq_ok h
    exact ⟨entryErrors_eq_nil hissues, hcycle, hentries⟩
  · rintro ⟨herrors, hcycle, rfl⟩
    simp only [checkEntries, entryIssues_eq_nil herrors, cycleIssues, hcycle, List.append_nil, List.isEmpty_nil,
      ↓reduceIte]

end State

end Parametric
