import Parametric.Name.Validation
import Parametric.Proofs.Name
import Parametric.Proofs.Name.Convention

/-!
# Reports on normalized names

A name that was normalized follows the convention in everything but its length.
-/

namespace Parametric

/-! ## Ends of joined words -/

section Words

variable {separator : List Char} {words : List Word}

theorem mem_intercalate {c : Char} (h : c ∈ List.intercalate separator words) :
    c ∈ separator ∨ ∃ word ∈ words, c ∈ word := by
  induction words with
  | nil => simp at h
  | cons word rest ih =>
      cases rest with
      | nil => exact .inr ⟨word, List.mem_cons_self, by simpa using h⟩
      | cons next rest =>
          rw [List.intercalate_cons_cons, List.mem_append, List.mem_append] at h
          rcases h with (hword | hseparator) | hrest
          · exact .inr ⟨word, List.mem_cons_self, hword⟩
          · exact .inl hseparator
          · exact (ih hrest).imp_right fun ⟨other, hother, hc⟩ => ⟨other, List.mem_cons_of_mem word hother, hc⟩

theorem head?_intercalate {word : Word} (hword : word ≠ []) :
    (List.intercalate separator (word :: words)).head? = word.head? := by
  obtain ⟨c, rest, rfl⟩ := List.exists_cons_of_ne_nil hword
  cases words <;> simp [List.intercalate_cons_cons]

theorem getLast?_intercalate {word : Word} (hword : word ≠ []) :
    (List.intercalate separator (words ++ [word])).getLast? = word.getLast? := by
  by_cases hwords : words = []
  · simp [hwords]
  · rw [intercalate_append separator hwords (by simp), List.intercalate_singleton, ← List.append_assoc,
      List.getLast?_append_of_ne_nil _ hword]

theorem wordsFrom_ne_nil {current : Word} (h : current ≠ []) (text : List Char) : wordsFrom current text ≠ [] := by
  have hfinish : finishWord current ≠ [] := by simp [finishWord, h]
  induction text generalizing current with
  | nil => exact hfinish
  | cons c rest ih =>
      rw [wordsFrom]
      split
      · exact List.append_ne_nil_of_left_ne_nil hfinish _
      · split
        · exact List.append_ne_nil_of_left_ne_nil hfinish _
        · exact ih (List.cons_ne_nil c current) (by simp [finishWord])

theorem wordsOf_ne_nil {name : List Char} {first : Char} (hfirst : name.head? = some first)
    (h : first.isAlphanum = true) : wordsOf name ≠ [] := by
  obtain ⟨rest, rfl⟩ := List.head?_eq_some_iff.mp hfirst
  have hread : wordsOf (first :: rest) = wordsFrom [first] rest := by simp [wordsOf, wordsFrom, h, startsWord]
  rw [hread]
  exact wordsFrom_ne_nil (List.cons_ne_nil first []) rest

end Words

namespace Convention

variable {c : Convention} {words : List Word}

theorem allows_of_mem_join (h : ∀ word ∈ words, word.Solid) {char : Char} (hchar : char ∈ c.join words) :
    c.allows char = true := by
  rcases mem_intercalate hchar with hseparator | ⟨word, hword, hchar⟩
  · simp [allows, hseparator]
  · simp [allows, (solid_of_mem_styledWords h word hword).isAlphanum char hchar]

theorem head?_join (hne : words ≠ []) (h : ∀ word ∈ words, word.Solid) :
    ∃ char, (c.join words).head? = some char ∧ char.isAlphanum = true := by
  obtain ⟨word, rest, rfl⟩ := List.exists_cons_of_ne_nil hne
  have hword : Word.Solid (c.styledWord true word) :=
    solid_of_mem_styledWords (c := c) h _ List.mem_cons_self
  obtain ⟨char, others, hcons⟩ := List.exists_cons_of_ne_nil hword.nonempty
  refine ⟨char, ?_, hword.isAlphanum char (by simp [hcons])⟩
  rw [join, styledWords, head?_intercalate hword.nonempty, hcons, List.head?_cons]

theorem getLast?_join (hne : words ≠ []) (h : ∀ word ∈ words, word.Solid) :
    ∃ char, (c.join words).getLast? = some char ∧ char.isAlphanum = true := by
  have hstyled : c.styledWords words ≠ [] := by
    obtain ⟨word, rest, rfl⟩ := List.exists_cons_of_ne_nil hne
    simp [styledWords]
  obtain ⟨init, word, hconcat⟩ := (List.eq_nil_or_concat (c.styledWords words)).resolve_left hstyled
  have hword : word.Solid := solid_of_mem_styledWords (c := c) h word (by simp [hconcat])
  refine ⟨_, ?_, hword.isAlphanum _ (List.getLast_mem hword.nonempty)⟩
  rw [join, hconcat, List.concat_eq_append, getLast?_intercalate hword.nonempty,
    List.getLast?_eq_some_getLast hword.nonempty]

theorem trim_join (hne : words ≠ []) (h : ∀ word ∈ words, word.Solid) :
    Text.trim (.ofList (c.join words)) = .ofList (c.join words) := by
  obtain ⟨first, hfirst, hfirst'⟩ := head?_join (c := c) hne h
  obtain ⟨last, hlast, hlast'⟩ := getLast?_join (c := c) hne h
  rw [Text.trim, String.toList_ofList, Text.stripBy_eq_self]
  · simpa [hfirst] using Text.isBlank_of_isAlphanum hfirst'
  · simpa [hlast] using Text.isBlank_of_isAlphanum hlast'

theorem normalizePass_ne_nil {name : List Char} (h : wordsOf name ≠ []) : c.normalizePass name ≠ [] := by
  have hjoin : ∀ words : List Word, words ≠ [] → (∀ word ∈ words, word.Solid) → c.join words ≠ [] := by
    intro words hne hsolid hnil
    obtain ⟨first, hfirst, -⟩ := head?_join (c := c) hne hsolid
    rw [hnil] at hfirst
    cases hfirst
  have hempty : (wordsOf name).isEmpty = false := by simpa using h
  rw [normalizePass, hempty]
  simp only [Bool.false_eq_true, ↓reduceIte]
  split
  · exact hjoin _ h solid_of_mem_wordsOf
  · exact hjoin _ (List.append_ne_nil_of_right_ne_nil _ h)
      (List.forall_mem_append.mpr ⟨solid_of_mem_leadingWords, solid_of_mem_wordsOf⟩)

/-! ## Reports -/

/-- The report on joined words that have the leading words is about their length alone. -/
theorem validate_join (hc : c.Separates) (hne : words ≠ []) (h : ∀ word ∈ words, word.Solid)
    (hleading : c.hasLeading (c.join words) = true) {name : String} (hname : name = .ofList (c.join words)) :
    c.validate name = ⟨if name.length > c.maxLength then [.tooLong name.length c.maxLength] else [], none⟩ := by
  have hchars : name.toList = c.join words := by rw [hname, String.toList_ofList]
  have hbad : (c.join words).filter (fun char => !c.allows char) = [] :=
    List.filter_eq_nil_iff.mpr fun char hchar => by simp [allows_of_mem_join h hchar]
  have htrim : Text.trim name = name := hname ▸ trim_join hne h
  have hnonempty : name ≠ "" := by
    obtain ⟨first, hfirst, -⟩ := head?_join (c := c) hne h
    rintro rfl
    simp [← hchars] at hfirst
  have hnormal : c.normalize name = name := by
    rw [normalize_eq hc, hchars, normalizePass_join hc hne h hleading, hname]
  simp [validate, htrim, hnonempty, hnormal, hchars, hbad, join_wordsOf_join hc h, hleading, problemIf]

/-- Normalizing is a closure onto names that follow the convention: a name that was normalized stays as it
is, and, unless nothing is left of it, the report on it says at most that it is too long, and says so
exactly if it is. -/
theorem validate_normalize (c : Convention) (hc : c.Separates) (name : String) :
    c.normalize (c.normalize name) = c.normalize name ∧
      (c.normalize name ≠ "" → c.validate (c.normalize name) =
        ⟨if (c.normalize name).length > c.maxLength
          then [.tooLong (c.normalize name).length c.maxLength] else [], none⟩) := by
  refine ⟨normalize_normalize hc name, fun hne => ?_⟩
  have hpass : c.normalizePass name.toList ≠ [] := fun hnil => hne (by rw [normalize_eq hc, hnil])
  obtain ⟨words, hjoin, hwords, hsolid, hleading⟩ := exists_join_of_normalizePass hpass
  exact validate_join hc hwords hsolid hleading (by rw [normalize_eq hc, hjoin])

/-- A convention whose leading words and whose separator need some care. -/
def labelConvention : Convention where
  caseStyle := .camel
  separator := " / "
  maxLength := 20
  leading := some "acmeCO2"
  acronyms := ["HVAC", "CO2"]

/-- The name gets the leading words, is split where its case changes, and is reported as too long. -/
theorem validate_label :
    labelConvention.Separates ∧ labelConvention.normalize "hvac2Load XL_x2Y" ≠ "" ∧
      labelConvention.normalize "hvac2Load XL_x2Y" = "acme / CO2 / Hvac2 / Load / XL / X2 / Y" ∧
      labelConvention.normalize "acme / CO2 / Hvac2 / Load / XL / X2 / Y" =
        "acme / CO2 / Hvac2 / Load / XL / X2 / Y" ∧
      labelConvention.validate "acme / CO2 / Hvac2 / Load / XL / X2 / Y" = ⟨[.tooLong 39 20], none⟩ := by
  have hseparates : labelConvention.Separates := ⟨by decide, by simp [labelConvention]⟩
  have hname : labelConvention.normalize "hvac2Load XL_x2Y" = "acme / CO2 / Hvac2 / Load / XL / X2 / Y" := by
    decide +kernel
  have hne : labelConvention.normalize "hvac2Load XL_x2Y" ≠ "" := by
    rw [hname]
    decide
  obtain ⟨hfixed, hreport⟩ := validate_normalize labelConvention hseparates "hvac2Load XL_x2Y"
  refine ⟨hseparates, hne, hname, by rwa [hname] at hfixed, ?_⟩
  rw [hname] at hreport hne
  exact hreport hne

end Convention

end Parametric
