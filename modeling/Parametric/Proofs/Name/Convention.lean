import Mathlib
import Parametric.Name.Convention

/-!
# Normalized names

The words of a name in the case style of a convention do not split anew, and a separator without
letters and digits keeps them apart. So a name that was normalized stays as it is when it is
normalized again.
-/

namespace Parametric

/-! ## Reading words -/

/-- Characters, read backwards, belong to one word if the given character comes next. -/
def Unsplit (next : Option Char) : Word → Prop
  | [] => True
  | c :: before => c.isAlphanum = true ∧ startsWord before c next = false ∧ Unsplit (some c) before

/-- A word that stays one word when it is read again. -/
structure Word.Solid (word : Word) : Prop where
  nonempty : word ≠ []
  unsplit : Unsplit none word.reverse

theorem startsWord_of_not_lower {next : Option Char} (h : next.any Char.isLower = false)
    (current : Word) (c : Char) : startsWord current c next = startsWord current c none := by
  simp [startsWord, h]

theorem startsWord_of_not_upper {c : Char} (h : c.isUpper = false) (current : Word)
    (next : Option Char) : startsWord current c next = false := by
  cases current <;> simp [startsWord, h]

theorem startsWord_none {current : Word} {c : Char} {next : Option Char}
    (h : startsWord current c next = false) : startsWord current c none = false := by
  by_cases hnext : next.any Char.isLower = true
  · cases current with
    | nil => rfl
    | cons previous before =>
        simp only [startsWord, hnext, Bool.true_or, Bool.and_true] at h
        simp only [startsWord, Option.any_none, Bool.false_or, Bool.and_false, Bool.or_false]
        cases hc : c.isUpper <;> cases hl : previous.isLower <;> cases hd : previous.isDigit <;>
          simp_all
  · rwa [startsWord_of_not_lower (by simpa using hnext)] at h

theorem Unsplit.last {next : Option Char} {current : Word} (h : Unsplit next current) :
    Unsplit none current := by
  cases current with
  | nil => trivial
  | cons c before => exact ⟨h.1, startsWord_none h.2.1, h.2.2⟩

theorem Unsplit.of_reverse_append {word current : Word}
    (h : Unsplit none (word.reverse ++ current)) : Unsplit word.head? current := by
  induction word generalizing current with
  | nil => exact h
  | cons c rest ih =>
      rw [List.reverse_cons, List.append_assoc] at h
      exact (ih h).2.2

theorem solid_of_mem_wordsFrom {current : Word} {text : List Char} (h : Unsplit text.head? current) :
    ∀ word ∈ wordsFrom current text, word.Solid := by
  have hfinish : ∀ {next current}, Unsplit next current → ∀ word ∈ finishWord current, word.Solid := by
    intro next current h word hw
    simp only [finishWord, List.isEmpty_iff] at hw
    split at hw
    · cases hw
    · rename_i hne
      rw [List.mem_singleton.mp hw]
      exact ⟨by simpa using hne, by simpa using h.last⟩
  induction text generalizing current with
  | nil => exact hfinish h
  | cons c rest ih =>
      simp only [wordsFrom]
      split
      · rw [List.forall_mem_append]
        exact ⟨hfinish h, ih trivial⟩
      · rename_i hc
        have hc : c.isAlphanum = true := by simpa using hc
        split
        · rw [List.forall_mem_append]
          exact ⟨hfinish h, ih ⟨hc, rfl, trivial⟩⟩
        · rename_i hstarts
          exact ih ⟨hc, by simpa using hstarts, h⟩

theorem solid_of_mem_wordsOf {name : List Char} : ∀ word ∈ wordsOf name, word.Solid :=
  solid_of_mem_wordsFrom trivial

theorem isLower_eq_false_of_not_alphanum {c : Char} (h : c.isAlphanum = false) : c.isLower = false := by
  simp only [Char.isAlphanum, Char.isAlpha, Bool.or_eq_false_iff] at h
  exact h.1.2

theorem wordsFrom_append {word current : Word} {tail : List Char}
    (htail : ∀ c ∈ tail.head?, c.isAlphanum = false) (h : Unsplit none (word.reverse ++ current)) :
    wordsFrom current (word ++ tail) = finishWord (word.reverse ++ current) ++ wordsFrom [] tail := by
  induction word generalizing current with
  | nil =>
      cases tail with
      | nil => simp [wordsFrom, finishWord]
      | cons c rest => simp [wordsFrom, finishWord, htail c rfl]
  | cons c rest ih =>
      rw [List.reverse_cons, List.append_assoc] at h
      obtain ⟨hc, hstarts, -⟩ := h.of_reverse_append
      have hnext : startsWord current c (rest ++ tail).head? = false := by
        cases rest with
        | cons d rest => exact hstarts
        | nil =>
            rw [List.nil_append, startsWord_of_not_lower, ← hstarts]
            · rfl
            · cases htop : tail.head? with
              | none => rfl
              | some d => exact isLower_eq_false_of_not_alphanum (htail d htop)
      rw [List.cons_append, wordsFrom, hc, hnext, List.reverse_cons, List.append_assoc]
      exact ih h

theorem intercalate_append {α : Type} (separator : List α) {words more : List (List α)}
    (hwords : words ≠ []) (hmore : more ≠ []) : List.intercalate separator (words ++ more) =
      List.intercalate separator words ++ (separator ++ List.intercalate separator more) := by
  induction words with
  | nil => exact absurd rfl hwords
  | cons word rest ih =>
      cases rest with
      | nil =>
          rw [List.singleton_append, List.intercalate_cons_of_ne_nil hmore, List.intercalate_singleton,
            List.append_assoc]
      | cons next rest =>
          have hrest := ih (List.cons_ne_nil next rest)
          rw [List.cons_append] at hrest
          rw [List.cons_append, List.cons_append, List.intercalate_cons_cons, hrest,
            List.intercalate_cons_cons]
          simp only [List.append_assoc]

section Separator

variable {separator : List Char} (hseparator : ∀ c ∈ separator, c.isAlphanum = false)
include hseparator

theorem wordsOf_separator (text : List Char) : wordsOf (separator ++ text) = wordsOf text := by
  induction separator with
  | nil => rfl
  | cons c rest ih =>
      rw [List.forall_mem_cons] at hseparator
      rw [List.cons_append, wordsOf, wordsFrom, hseparator.1]
      exact ih hseparator.2

/-- Solid words that a separator keeps apart are read as they are. -/
theorem wordsOf_intercalate (hne : separator ≠ []) {words : List Word} (h : ∀ word ∈ words, word.Solid) :
    wordsOf (List.intercalate separator words) = words := by
  have hfinish : ∀ {word : Word}, word.Solid → finishWord (word.reverse ++ []) = [word] := by
    intro word hword
    simp [finishWord, hword.nonempty]
  induction words with
  | nil => rfl
  | cons word rest ih =>
      obtain ⟨hword, hrest⟩ := List.forall_mem_cons.mp h
      have hunsplit : Unsplit none (word.reverse ++ []) := by simpa using hword.unsplit
      cases rest with
      | nil =>
          rw [List.intercalate_singleton, ← List.append_nil word, wordsOf,
            wordsFrom_append (by simp) hunsplit, hfinish hword, List.append_nil]
          rfl
      | cons next rest =>
          have hhead : ∀ c ∈ (separator ++ List.intercalate separator (next :: rest)).head?,
              c.isAlphanum = false := by
            cases separator with
            | nil => exact absurd rfl hne
            | cons first others => simpa using hseparator first List.mem_cons_self
          rw [List.intercalate_cons_cons, List.append_assoc, wordsOf, wordsFrom_append hhead hunsplit,
            hfinish hword]
          exact congrArg (word :: ·) ((wordsOf_separator hseparator _).trans (ih hrest))

end Separator

/-! ## Case styles -/

theorem isAlphanum_toLower {c : Char} (h : c.isAlphanum = true) : c.toLower.isAlphanum = true := by
  by_cases halpha : c.isAlpha = true
  · simp [Char.isAlphanum, halpha]
  · have hupper : ¬c.isUpper = true := fun hu => halpha (by simp [Char.isAlpha, hu])
    rwa [Char.toLower_eq_of_not_isUpper hupper]

theorem isAlphanum_toUpper {c : Char} (h : c.isAlphanum = true) : c.toUpper.isAlphanum = true := by
  by_cases halpha : c.isAlpha = true
  · simp [Char.isAlphanum, halpha]
  · have hlower : ¬c.isLower = true := fun hl => halpha (by simp [Char.isAlpha, hl])
    rwa [Char.toUpper_eq_of_not_isLower hlower]

theorem Unsplit.isAlphanum {next : Option Char} {current : Word} (h : Unsplit next current) :
    ∀ c ∈ current, c.isAlphanum = true := by
  induction current generalizing next with
  | nil => simp
  | cons c before ih => exact List.forall_mem_cons.mpr ⟨h.1, ih h.2.2⟩

theorem Word.Solid.isAlphanum {word : Word} (h : word.Solid) : ∀ c ∈ word, c.isAlphanum = true := by
  simpa using h.unsplit.isAlphanum

theorem unsplit_of_not_upper {next : Option Char} {first : Char} {current : Word}
    (hfirst : first.isAlphanum = true)
    (h : ∀ c ∈ current, c.isAlphanum = true ∧ c.isUpper = false) : Unsplit next (current ++ [first]) := by
  induction current generalizing next with
  | nil => exact ⟨hfirst, rfl, trivial⟩
  | cons c before ih =>
      obtain ⟨⟨hc, hupper⟩, hbefore⟩ := List.forall_mem_cons.mp h
      exact ⟨hc, startsWord_of_not_upper hupper _ _, ih hbefore⟩

theorem unsplit_of_not_lower {next : Option Char} {current : Word} (hnext : next.any Char.isLower = false)
    (h : ∀ c ∈ current, c.isAlphanum = true ∧ c.isLower = false) : Unsplit next current := by
  induction current generalizing next with
  | nil => trivial
  | cons c before ih =>
      obtain ⟨⟨hc, hlower⟩, hbefore⟩ := List.forall_mem_cons.mp h
      refine ⟨hc, ?_, ih (by simpa using hlower) hbefore⟩
      cases before with
      | nil => rfl
      | cons previous others =>
          have hany : (previous :: others).any Char.isLower = false := by
            simpa using fun c hc => (hbefore c hc).2
          have hprevious := (hbefore previous List.mem_cons_self).2
          simp [startsWord, hnext, hany, hprevious]

namespace Word.Solid

variable {word : Word} (h : word.Solid)
include h

theorem titled {first : Char} {rest : Word} (hword : word = first :: rest) :
    Word.Solid (first.toUpper :: rest.map Char.toLower) := by
  have halnum := h.isAlphanum
  rw [hword, List.forall_mem_cons] at halnum
  refine ⟨List.cons_ne_nil _ _, ?_⟩
  rw [List.reverse_cons]
  refine unsplit_of_not_upper (isAlphanum_toUpper halnum.1) fun c hc => ?_
  obtain ⟨d, hd, rfl⟩ := List.mem_map.mp (List.mem_reverse.mp hc)
  exact ⟨isAlphanum_toLower (halnum.2 d hd), Char.isUpper_toLower_eq_false d⟩

theorem upper : Word.Solid (word.map Char.toUpper) := by
  refine ⟨by simpa using h.nonempty, unsplit_of_not_lower rfl fun c hc => ?_⟩
  obtain ⟨d, hd, rfl⟩ := List.mem_map.mp (List.mem_reverse.mp hc)
  exact ⟨isAlphanum_toUpper (h.isAlphanum d hd), Char.isLower_toUpper_eq_false d⟩

theorem lower : Word.Solid (word.map Char.toLower) := by
  obtain ⟨first, rest, rfl⟩ := List.exists_cons_of_ne_nil h.nonempty
  obtain ⟨hfirst, hrest⟩ := List.forall_mem_cons.mp h.isAlphanum
  refine ⟨List.cons_ne_nil _ _, ?_⟩
  rw [List.map_cons, List.reverse_cons]
  refine unsplit_of_not_upper (isAlphanum_toLower hfirst) fun c hc => ?_
  obtain ⟨d, hd, rfl⟩ := List.mem_map.mp (List.mem_reverse.mp hc)
  exact ⟨isAlphanum_toLower (hrest d hd), Char.isUpper_toLower_eq_false d⟩

end Word.Solid

namespace Convention

variable {c : Convention}

theorem solid_capitalized {word : Word} (h : word.Solid) : Word.Solid (c.capitalized word) := by
  simp only [capitalized]
  split
  · exact h.upper
  · split
    · exact h
    · split
      · exact h
      · exact h.titled rfl

theorem solid_styledWord {word : Word} (h : word.Solid) (first : Bool) :
    Word.Solid (c.styledWord first word) := by
  cases hstyle : c.caseStyle with
  | snake => simpa [styledWord, hstyle] using h.lower
  | upper => simpa [styledWord, hstyle] using h.upper
  | preserve => simpa [styledWord, hstyle] using h
  | title | pascal => simpa [styledWord, hstyle] using solid_capitalized h
  | camel =>
      cases first with
      | true => simpa [styledWord, hstyle] using h.lower
      | false => simpa [styledWord, hstyle] using solid_capitalized h

theorem capitalized_capitalized (word : Word) :
    c.capitalized (c.capitalized word) = c.capitalized word := by
  have hupper : (word.map Char.toUpper).map Char.toUpper = word.map Char.toUpper := by
    simp [Function.comp_def]
  by_cases hacronym : c.acronyms.contains (.ofList (word.map Char.toUpper)) = true
  · have hword : c.capitalized word = word.map Char.toUpper := by
      simp only [capitalized, hacronym, ↓reduceIte]
    rw [hword]
    simp only [capitalized, hupper, hacronym, ↓reduceIte]
  · by_cases hkept : (c.keepsCapitals && word.any Char.isAlpha && !word.any Char.isLower) = true
    · have hword : c.capitalized word = word := by
        simp only [capitalized, hacronym, hkept, Bool.false_eq_true, ↓reduceIte]
      rw [hword, hword]
    · cases word with
      | nil =>
          have hword : c.capitalized [] = [] := by
            simp only [capitalized, hacronym, hkept, Bool.false_eq_true, ↓reduceIte]
          rw [hword, hword]
      | cons first rest =>
          -- A capital and small letters are what they become, whether or not they are kept.
          have hword : c.capitalized (first :: rest) = first.toUpper :: rest.map Char.toLower := by
            simp only [capitalized, hacronym, hkept, Bool.false_eq_true, ↓reduceIte]
          have hsame : (first.toUpper :: rest.map Char.toLower).map Char.toUpper =
              (first :: rest).map Char.toUpper := by
            simp [Function.comp_def]
          rw [hword]
          simp only [capitalized, hsame, hacronym, Bool.false_eq_true, ↓reduceIte]
          split
          · rfl
          · simp [Function.comp_def]

theorem styledWord_styledWord (first : Bool) (word : Word) :
    c.styledWord first (c.styledWord first word) = c.styledWord first word := by
  cases hstyle : c.caseStyle with
  | snake | upper => simp [styledWord, hstyle, Function.comp_def]
  | preserve => simp [styledWord, hstyle]
  | title | pascal => simp [styledWord, hstyle, capitalized_capitalized]
  | camel => cases first <;> simp [styledWord, hstyle, Function.comp_def, capitalized_capitalized]

/-! ## Joined words -/

theorem styledWords_styledWords (words : List Word) :
    c.styledWords (c.styledWords words) = c.styledWords words := by
  cases words with
  | nil => rfl
  | cons word rest =>
      simp only [styledWords, List.map_map, styledWord_styledWord]
      exact congrArg _ (List.map_congr_left fun other _ => styledWord_styledWord false other)

theorem styledWords_append {words more : List Word} (h : words ≠ []) :
    c.styledWords (words ++ more) = c.styledWords words ++ more.map (c.styledWord false) := by
  obtain ⟨word, rest, rfl⟩ := List.exists_cons_of_ne_nil h
  simp [styledWords]

theorem solid_of_mem_styledWords {words : List Word} (h : ∀ word ∈ words, word.Solid) :
    ∀ word ∈ c.styledWords words, word.Solid := by
  cases words with
  | nil => simp [styledWords]
  | cons word rest =>
      obtain ⟨hword, hrest⟩ := List.forall_mem_cons.mp h
      refine List.forall_mem_cons.mpr ⟨solid_styledWord hword true, fun other hother => ?_⟩
      obtain ⟨plain, hplain, rfl⟩ := List.mem_map.mp hother
      exact solid_styledWord (hrest plain hplain) false

/-- The separator is there, and has no letters and digits. -/
structure Separates (c : Convention) : Prop where
  nonempty : c.separator ≠ ""
  other : ∀ char ∈ c.separator.toList, char.isAlphanum = false

section Separator

variable (hc : c.Separates)
include hc

theorem wordsOf_join {words : List Word} (h : ∀ word ∈ words, word.Solid) :
    wordsOf (c.join words) = c.styledWords words :=
  wordsOf_intercalate hc.other (by simpa using hc.nonempty) (solid_of_mem_styledWords h)

theorem join_wordsOf_join {words : List Word} (h : ∀ word ∈ words, word.Solid) :
    c.join (wordsOf (c.join words)) = c.join words := by
  rw [wordsOf_join hc h, join, styledWords_styledWords, join]

omit hc in
theorem solid_of_mem_leadingWords : ∀ word ∈ c.leadingWords, word.Solid := by
  intro word hword
  rw [leadingWords] at hword
  cases hleading : c.leading with
  | none => simp [hleading] at hword
  | some text =>
      rw [hleading] at hword
      exact solid_of_mem_wordsOf word hword

omit hc in
theorem hasLeading_join_append {words : List Word} (hwords : words ≠ []) :
    c.hasLeading (c.join (c.leadingWords ++ words)) = true := by
  by_cases hleading : c.leadingWords = []
  · simp [hasLeading, hleading]
  · have hstyled : c.styledWords c.leadingWords ≠ [] := by
      obtain ⟨word, rest, hcons⟩ := List.exists_cons_of_ne_nil hleading
      simp [hcons, styledWords]
    have hjoined : c.join (c.leadingWords ++ words) = c.join c.leadingWords ++
        (c.separator.toList ++ List.intercalate c.separator.toList (words.map (c.styledWord false))) := by
      rw [join, styledWords_append hleading, intercalate_append _ hstyled (by simpa using hwords), join]
    simp [hasLeading, hleading, hjoined, List.isPrefixOf_iff_prefix]

omit hc in
/-- What is normalized is empty or consists of joined words that have the leading words. -/
theorem exists_join_of_normalizePass {name : List Char} (h : c.normalizePass name ≠ []) : ∃ words,
    c.normalizePass name = c.join words ∧ words ≠ [] ∧ (∀ word ∈ words, word.Solid) ∧
      c.hasLeading (c.join words) = true := by
  have hsolid : ∀ word ∈ wordsOf name, word.Solid := solid_of_mem_wordsOf
  generalize hwords : wordsOf name = words at hsolid
  cases words with
  | nil => exact absurd (by simp [normalizePass, hwords]) h
  | cons first rest =>
      by_cases hleading : c.hasLeading (c.join (first :: rest)) = true
      · exact ⟨first :: rest, by simp [normalizePass, hwords, hleading], by simp, hsolid, hleading⟩
      · exact ⟨c.leadingWords ++ first :: rest, by simp [normalizePass, hwords, hleading], by simp,
          List.forall_mem_append.mpr ⟨solid_of_mem_leadingWords, hsolid⟩,
          hasLeading_join_append (by simp)⟩

/-- Joined words that have the leading words stay as they are. -/
theorem normalizePass_join {words : List Word} (hne : words ≠ []) (h : ∀ word ∈ words, word.Solid)
    (hleading : c.hasLeading (c.join words) = true) : c.normalizePass (c.join words) = c.join words := by
  have hread : (wordsOf (c.join words)).isEmpty = false := by
    obtain ⟨word, others, rfl⟩ := List.exists_cons_of_ne_nil hne
    rw [wordsOf_join hc h]
    rfl
  rw [normalizePass, hread]
  simp only [Bool.false_eq_true, ↓reduceIte, join_wordsOf_join hc h, hleading]

theorem normalizePass_normalizePass (name : List Char) :
    c.normalizePass (c.normalizePass name) = c.normalizePass name := by
  by_cases hempty : c.normalizePass name = []
  · rw [hempty]
    rfl
  · obtain ⟨words, hjoin, hne, hsolid, hleading⟩ := exists_join_of_normalizePass hempty
    rw [hjoin, normalizePass_join hc hne hsolid hleading]

theorem normalize_eq (name : String) : c.normalize name = .ofList (c.normalizePass name.toList) := by
  have hempty : c.separator.isEmpty = false := by simpa using hc.nonempty
  simp only [normalize, normalizeChars, hempty, Bool.false_eq_true, ↓reduceIte]

theorem normalize_normalize (name : String) : c.normalize (c.normalize name) = c.normalize name := by
  simp only [normalize_eq hc, String.toList_ofList, normalizePass_normalizePass hc]

end Separator

/-- A name that is there and stays as it is when it is normalized. -/
structure IsNormal (c : Convention) (name : String) : Prop where
  nonempty : name ≠ ""
  fixed : c.normalize name = name

theorem isNormal_normalize (hc : c.Separates) {name : String} (h : c.normalize name ≠ "") :
    c.IsNormal (c.normalize name) :=
  ⟨h, normalize_normalize hc name⟩

end Convention

end Parametric
