import Mathlib
import Parametric.Proofs.Name.Joined

/-!
# Names that settle

A name without separators is normalized again until its words stay as they are. Only acronyms that start
with other acronyms keep it from settling at once, and each pass needs a longer one.
-/

namespace Parametric

/-! ## Groups of words -/

theorem mem_tail_of_eq_append {α : Type} {l before after : List α} {a b : α} (h : l = before ++ a :: after)
    (hb : b ∈ after) : b ∈ l.tail := by
  cases before with
  | nil => simpa [h] using hb
  | cons c before => simp [h, hb]

theorem map_eq_pair {α β : Type} {f : α → β} {l : List α} {before after : List β} {b b' : β}
    (h : l.map f = before ++ b :: b' :: after) : ∃ start a a' rest, l = start ++ a :: a' :: rest ∧
      start.map f = before ∧ f a = b ∧ f a' = b' := by
  obtain ⟨start, tail, rfl, hstart, htail⟩ := List.map_eq_append_iff.mp h
  obtain ⟨a, tail, rfl, ha, htail⟩ := List.map_eq_cons_iff.mp htail
  obtain ⟨a', rest, rfl, ha', -⟩ := List.map_eq_cons_iff.mp htail
  exact ⟨start, a, a', rest, rfl, hstart, ha, ha'⟩

/-- Words in groups that are read as one word each. -/
def groups (words : List Word) : List (List Word) := words.splitBy Word.joins

theorem flatten_groups (words : List Word) : (groups words).flatten = words := List.flatten_splitBy _ _

section Groups

variable {words : List Word}

theorem ne_nil_of_mem_groups {group : List Word} (h : group ∈ groups words) : group ≠ [] :=
  List.ne_nil_of_mem_splitBy h

theorem isChain_of_mem_groups {group : List Word} (h : group ∈ groups words) :
    group.IsChain fun word next => word.joins next = true :=
  List.isChain_of_mem_splitBy h

theorem eq_append_of_groups {before after : List (List Word)} {group : List Word}
    (h : groups words = before ++ group :: after) : words = before.flatten ++ (group ++ after.flatten) := by
  rw [← flatten_groups words, h]
  simp

theorem hasSmall_or_isTitled_of_groups {before after : List (List Word)} {group others : List Word} {first : Word}
    (h : groups words = before ++ group :: (first :: others) :: after) :
    Word.hasSmall group.flatten = true ∨ first.isTitled = true := by
  obtain ⟨hgroup, hnext, hjoins⟩ :=
    List.isChain_iff_forall_rel_of_append_cons_cons.mp (List.isChain_getLast_head_splitBy Word.joins words) h
  simp only [List.head_cons, Word.joins, Bool.and_eq_false_iff, Bool.not_eq_false'] at hjoins
  refine hjoins.imp_left fun hsmall => ?_
  obtain ⟨c, hc, hlower⟩ := List.any_eq_true.mp hsmall
  exact List.any_eq_true.mpr ⟨c, List.mem_flatten_of_mem (List.getLast_mem hgroup) hc, hlower⟩

variable (hsolid : ∀ word ∈ words, word.Solid) (hlarge : ∀ word ∈ words.tail, Word.startsLarge word = true)
include hsolid hlarge

theorem solid_flatten_of_mem_groups {group : List Word} (h : group ∈ groups words) :
    Word.Solid group.flatten := by
  obtain ⟨before, after, hgroups⟩ := List.append_of_mem h
  obtain ⟨word, rest, rfl⟩ := List.exists_cons_of_ne_nil (ne_nil_of_mem_groups h)
  have hwords := eq_append_of_groups hgroups
  refine solid_flatten (fun w hw => hsolid w ?_) (fun w hw => hlarge w ?_) (isChain_of_mem_groups h)
  · exact hwords ▸ List.mem_append_right _ (List.mem_append_left _ hw)
  · exact mem_tail_of_eq_append hwords (List.mem_append_left _ hw)

theorem wordsOf_flatten_eq : wordsOf words.flatten = (groups words).map List.flatten := by
  have hflat : words.flatten = ((groups words).map List.flatten).flatten := by
    rw [← List.flatten_flatten, flatten_groups]
  rw [hflat]
  refine wordsOf_flatten (fun word hword => ?_)
    (List.isChain_iff_forall_rel_of_append_cons_cons.mpr fun word next before after h => ?_)
  · obtain ⟨group, hgroup, rfl⟩ := List.mem_map.mp hword
    exact solid_flatten_of_mem_groups hsolid hlarge hgroup
  · obtain ⟨start, group, ngroup, rest, hgroups, -, rfl, rfl⟩ := map_eq_pair h
    have hgroup : group ∈ groups words := hgroups ▸ by simp
    have hngroup : ngroup ∈ groups words := hgroups ▸ by simp
    obtain ⟨w, more, rfl⟩ := List.exists_cons_of_ne_nil (ne_nil_of_mem_groups hgroup)
    obtain ⟨first, others, rfl⟩ := List.exists_cons_of_ne_nil (ne_nil_of_mem_groups hngroup)
    have hfirst : first ∈ words.tail := mem_tail_of_eq_append (eq_append_of_groups hgroups) (by simp)
    obtain ⟨c, cs, rfl, hc⟩ := Word.exists_cons_of_startsLarge (hlarge first hfirst)
    refine ⟨hc, ?_⟩
    rw [Word.joins, Bool.and_eq_false_iff, Bool.not_eq_false', Bool.not_eq_false']
    refine (hasSmall_or_isTitled_of_groups hgroups).imp_right fun htitled => ?_
    rw [List.flatten_cons]
    exact Word.isTitled_append_left htitled others.flatten

end Groups

/-! ## Styled words -/

theorem Word.hasSmall_map_toLower {word : Word} (h : hasSmall word = true) :
    hasSmall (word.map Char.toLower) = true := by
  obtain ⟨c, hc, hlower⟩ := List.any_eq_true.mp h
  refine List.any_eq_true.mpr ⟨c.toLower, List.mem_map_of_mem hc, ?_⟩
  rw [Char.isLower_toLower_eq_isAlpha, Char.isAlpha, hlower, Bool.or_true]

theorem Word.map_toUpper_of_hasSmall {word : Word} (h : hasSmall word = false) : word.map Char.toUpper = word := by
  refine (List.map_congr_left fun c hc => Char.toUpper_eq_of_not_isLower fun hlower => ?_).trans (List.map_id word)
  exact absurd (List.any_eq_true.mpr ⟨c, hc, hlower⟩) (by simpa [hasSmall] using h)

def Casing.capitalizes : Casing → Bool
  | .title | .pascal | .camel => true
  | .snake | .upper | .preserve => false

namespace Convention

variable {c : Convention}

theorem styledWord_false (hstyle : c.caseStyle.capitalizes = true) (word : Word) :
    c.styledWord false word = c.capitalized word := by
  cases h : c.caseStyle <;> simp_all [styledWord, Casing.capitalizes]

theorem startsLarge_capitalized {word : Word} (h : word.startsLarge = true) :
    Word.startsLarge (c.capitalized word) = true := by
  obtain ⟨first, rest, rfl, hfirst⟩ := Word.exists_cons_of_startsLarge h
  have hupper : first.toUpper = first := Char.toUpper_eq_of_not_isLower (Char.not_isLower_of_isUpper hfirst)
  simp only [capitalized]
  split
  · simpa [Word.startsLarge, hupper] using hfirst
  · split
    · exact h
    · simpa [Word.startsLarge, hupper] using hfirst

theorem acronym_of_styledWord (hstyle : c.caseStyle.capitalizes = true) {first : Bool} {word more : Word}
    (hne : word ≠ []) (hmore : more.hasSmall = true)
    (h : Word.hasSmall (c.styledWord first (word ++ more)) = false) :
    c.styledWord first (word ++ more) = (word ++ more).map Char.toUpper ∧
      .ofList ((word ++ more).map Char.toUpper) ∈ c.acronyms := by
  have hlower : Word.hasSmall ((word ++ more).map Char.toLower) = true :=
    Word.hasSmall_map_toLower (by rw [Word.hasSmall_append, hmore, Bool.or_true])
  have hcapitalized : c.styledWord first (word ++ more) = c.capitalized (word ++ more) := by
    cases hcase : c.caseStyle <;> cases first <;> simp_all [styledWord, Casing.capitalizes]
  rw [hcapitalized] at h ⊢
  by_cases hacronym : c.acronyms.contains (.ofList ((word ++ more).map Char.toUpper)) = true
  · exact ⟨by simp only [capitalized, hacronym, ↓reduceIte], List.contains_iff_mem.mp hacronym⟩
  · obtain ⟨start, rest, rfl⟩ := List.exists_cons_of_ne_nil hne
    rw [List.cons_append] at h hacronym
    have hany : (start :: (rest ++ more)).any Char.isLower = true :=
      (Word.hasSmall_append (start :: rest) more).trans (by rw [hmore, Bool.or_true])
    have hrest : Word.hasSmall ((rest ++ more).map Char.toLower) = true :=
      Word.hasSmall_map_toLower (by rw [Word.hasSmall_append, hmore, Bool.or_true])
    simp only [capitalized, hacronym, hany, Bool.not_true, Bool.and_false, Bool.false_eq_true, ↓reduceIte] at h
    rw [Word.hasSmall, List.any_cons, Bool.or_eq_false_iff] at h
    exact absurd hrest (by rw [Word.hasSmall, h.2]; decide)

theorem styledWords_eq_pair {words before after : List Word} {word next : Word}
    (h : c.styledWords words = before ++ word :: next :: after) : ∃ start a b rest,
      words = start ++ a :: b :: rest ∧ start.isEmpty = before.isEmpty ∧ c.styledWord start.isEmpty a = word ∧
        c.styledWord false b = next := by
  cases words with
  | nil => simp [styledWords] at h
  | cons w words =>
      cases before with
      | nil =>
          obtain ⟨hword, hrest⟩ := List.cons_eq_cons.mp h
          obtain ⟨b, rest, rfl, hb, -⟩ := List.map_eq_cons_iff.mp hrest
          exact ⟨[], w, b, rest, rfl, rfl, hword, hb⟩
      | cons first before =>
          obtain ⟨start, a, b, rest, rfl, -, ha, hb⟩ := map_eq_pair (List.cons_eq_cons.mp h).2
          exact ⟨w :: start, a, b, rest, rfl, rfl, ha, hb⟩

theorem styledWord_of_styledWords {words before after : List Word} {word : Word}
    (hstyled : c.styledWords words = words) (h : words = before ++ word :: after) :
    c.styledWord before.isEmpty word = word := by
  subst h
  cases before with
  | nil => exact (List.cons_eq_cons.mp hstyled).1
  | cons first before =>
      have hmap := (List.cons_eq_cons.mp hstyled).2
      exact List.map_inj_left.mp (hmap.trans (List.map_id _).symm) word (by simp)

/-! ## Reading again -/

/-- The words of a text in the case style of a convention. -/
def restyled (c : Convention) (text : List Char) : List Word := c.styledWords (wordsOf text)

/-- The words of a text put together again without separators. -/
def rejoin (c : Convention) (text : List Char) : List Char := (c.restyled text).flatten

/-- Whether a word is one of a list that the next one joins. -/
def IsJoined (words : List Word) (word : Word) : Prop :=
  ∃ before next after, words = before ++ word :: next :: after ∧ word.joins next = true

theorem styledWords_restyled (text : List Char) : c.styledWords (c.restyled text) = c.restyled text :=
  styledWords_styledWords _

theorem solid_of_mem_restyled {text : List Char} : ∀ word ∈ c.restyled text, word.Solid :=
  solid_of_mem_styledWords solid_of_mem_wordsOf

section Restyled

variable {text : List Char} {before after : List (List Word)} {word : Word} {others : List Word}
  (h : groups (c.restyled text) = before ++ (word :: others) :: after)
include h

theorem styledWord_of_groups : c.styledWord before.isEmpty word = word := by
  have hempty : before.isEmpty = before.flatten.isEmpty := by
    cases before with
    | nil => rfl
    | cons group before =>
        have hgroup : group ∈ groups (c.restyled text) := h ▸ List.mem_cons_self
        obtain ⟨first, rest, rfl⟩ := List.exists_cons_of_ne_nil (ne_nil_of_mem_groups hgroup)
        rfl
  rw [hempty]
  exact styledWord_of_styledWords (styledWords_restyled text) (by simpa using eq_append_of_groups h)

theorem isTitled_of_groups (hbefore : before ≠ [])
    (htitled : (c.styledWord false (word :: others).flatten).isTitled = false) : word.isTitled = false := by
  cases others with
  | nil =>
      have hsame := styledWord_of_groups h
      rw [List.isEmpty_eq_false_iff.mpr hbefore] at hsame
      rwa [List.flatten_singleton, hsame] at htitled
  | cons second others =>
      -- No word joins a titled one, so a titled word stands alone.
      have hgroup : word :: second :: others ∈ groups (c.restyled text) := h ▸ by simp
      have hjoin := (List.isChain_cons_cons.mp (isChain_of_mem_groups hgroup)).1
      by_contra hword
      rw [Bool.not_eq_false] at hword
      rw [Word.joins, Word.hasSmall_of_isTitled hword] at hjoin
      cases hjoin

end Restyled

section Capitals

variable (hstyle : c.caseStyle.capitalizes = true) {text : List Char} (htext : ∀ char ∈ text, char.isAlphanum = true)
include hstyle htext

theorem startsLarge_of_mem_tail_restyled : ∀ word ∈ (c.restyled text).tail, Word.startsLarge word = true := by
  have hlarge := startsLarge_of_mem_tail htext
  rw [restyled]
  cases hwords : wordsOf text with
  | nil => simp [styledWords]
  | cons first rest =>
      rw [hwords] at hlarge
      intro word hword
      obtain ⟨plain, hplain, rfl⟩ := List.mem_map.mp hword
      rw [styledWord_false hstyle]
      exact startsLarge_capitalized (hlarge plain hplain)

theorem wordsOf_rejoin : wordsOf (c.rejoin text) = (groups (c.restyled text)).map List.flatten :=
  wordsOf_flatten_eq solid_of_mem_restyled (startsLarge_of_mem_tail_restyled hstyle htext)

theorem rejoin_rejoin_of_not_isJoined (h : ∀ word, ¬IsJoined (c.restyled text) word) :
    c.rejoin (c.rejoin text) = c.rejoin text := by
  have hread : wordsOf (c.rejoin text) = c.restyled text := by
    refine wordsOf_flatten solid_of_mem_restyled
      (List.isChain_iff_forall_rel_of_append_cons_cons.mpr fun word next before after hwords => ⟨?_, ?_⟩)
    · exact startsLarge_of_mem_tail_restyled hstyle htext next (mem_tail_of_eq_append hwords List.mem_cons_self)
    · by_contra hjoins
      exact h word ⟨before, next, after, hwords, by simpa using hjoins⟩
  rw [rejoin, restyled, hread, styledWords_restyled, rejoin]

/-- A word that is joined after a pass is an acronym, and starts with a shorter word that was joined. -/
theorem acronym_of_isJoined {word : Word} (h : IsJoined (c.restyled (c.rejoin text)) word) :
    .ofList word ∈ c.acronyms ∧ ∃ start, IsJoined (c.restyled text) start ∧ start <+: word ∧ start ≠ word := by
  obtain ⟨before, next, after, hwords, hjoins⟩ := h
  obtain ⟨hsmall, htitled⟩ : word.hasSmall = false ∧ next.isTitled = false := by
    simpa [Word.joins] using hjoins
  obtain ⟨start, plain, other, rest, hread, -, hword, rfl⟩ := styledWords_eq_pair hwords
  rw [wordsOf_rejoin hstyle htext] at hread
  obtain ⟨parts, group, ngroup, more, hgroups, rfl, rfl, rfl⟩ := map_eq_pair hread
  rw [List.isEmpty_map] at hword
  have hgroup : group ∈ groups (c.restyled text) := hgroups ▸ by simp
  have hngroup : ngroup ∈ groups (c.restyled text) := hgroups ▸ by simp
  obtain ⟨first, others, rfl⟩ := List.exists_cons_of_ne_nil (ne_nil_of_mem_groups hgroup)
  obtain ⟨nfirst, nothers, rfl⟩ := List.exists_cons_of_ne_nil (ne_nil_of_mem_groups hngroup)
  have hnext : groups (c.restyled text) = (parts ++ [first :: others]) ++ (nfirst :: nothers) :: more := by
    rw [hgroups, List.append_assoc, List.singleton_append]
  have hnfirst := isTitled_of_groups hnext (by simp) htitled
  have hlost : Word.hasSmall (first :: others).flatten = true :=
    (hasSmall_or_isTitled_of_groups hgroups).resolve_right (by simp [hnfirst])
  cases others with
  | nil =>
      -- A group of one word is styled as before, so it keeps its small letter.
      rw [List.flatten_singleton] at hword hlost
      rw [← hword, styledWord_of_groups hgroups, hlost] at hsmall
      cases hsmall
  | cons second others =>
      have hjoin := (List.isChain_cons_cons.mp (isChain_of_mem_groups hgroup)).1
      have hfirst : first.hasSmall = false := by
        simp only [Word.joins, Bool.and_eq_true, Bool.not_eq_true'] at hjoin
        exact hjoin.1
      have hrow := eq_append_of_groups hgroups
      have hsolid : ∀ w ∈ first :: second :: others, w.Solid := fun w hw =>
        solid_of_mem_restyled w (hrow ▸ List.mem_append_right _ (List.mem_append_left _ hw))
      rw [List.flatten_cons] at hword hlost
      rw [Word.hasSmall_append, hfirst, Bool.false_or] at hlost
      obtain ⟨hupper, hacronym⟩ := acronym_of_styledWord hstyle (hsolid first (by simp)).nonempty hlost (hword ▸ hsmall)
      rw [hword] at hupper
      refine ⟨hupper ▸ hacronym, first, ⟨parts.flatten, second, _, by simpa using hrow, hjoin⟩, ?_, ?_⟩
      · rw [hupper, List.map_append, Word.map_toUpper_of_hasSmall hfirst]
        exact List.prefix_append _ _
      · intro hsame
        have hlength := congrArg List.length (hsame.trans hupper)
        have hsecond := List.length_pos_of_ne_nil (hsolid second (by simp)).nonempty
        simp only [List.length_map, List.length_append, List.flatten_cons] at hlength
        omega

end Capitals

theorem map_toLower_styledWord (first : Bool) (word : Word) :
    (c.styledWord first word).map Char.toLower = word.map Char.toLower := by
  have hupper : ∀ word : Word, (word.map Char.toUpper).map Char.toLower = word.map Char.toLower := by
    simp [Function.comp_def]
  have hlower : ∀ word : Word, (word.map Char.toLower).map Char.toLower = word.map Char.toLower := by
    simp [Function.comp_def]
  have hcapitalized : (c.capitalized word).map Char.toLower = word.map Char.toLower := by
    simp only [capitalized]
    split
    · exact hupper word
    · split
      · rfl
      · cases word <;> simp [Function.comp_def]
  cases hstyle : c.caseStyle <;> cases first <;> simp [styledWord, hstyle, hupper, hlower, hcapitalized]

section Alphanumeric

variable {text : List Char}

theorem isAlphanum_of_mem_rejoin {char : Char} (h : char ∈ c.rejoin text) : char.isAlphanum = true := by
  obtain ⟨word, hword, hchar⟩ := List.mem_flatten.mp h
  exact (solid_of_mem_restyled word hword).isAlphanum char hchar

theorem isAlphanum_of_mem_iterate (htext : ∀ char ∈ text, char.isAlphanum = true) (passes : Nat) :
    ∀ char ∈ c.rejoin^[passes] text, char.isAlphanum = true := by
  cases passes with
  | zero => exact htext
  | succ passes =>
      rw [Function.iterate_succ_apply']
      exact fun _ => isAlphanum_of_mem_rejoin

variable (htext : ∀ char ∈ text, char.isAlphanum = true)
include htext

theorem map_toLower_rejoin : (c.rejoin text).map Char.toLower = text.map Char.toLower := by
  have hwords : ∀ words : List Word,
      (c.styledWords words).map (List.map Char.toLower) = words.map (List.map Char.toLower) := by
    intro words
    cases words with
    | nil => rfl
    | cons word rest => simp [styledWords, map_toLower_styledWord, Function.comp_def]
  rw [rejoin, restyled, List.map_flatten, hwords, ← List.map_flatten, flatten_wordsOf htext]

theorem rejoin_eq_map {f : Char → Char} (hf : ∀ first word, c.styledWord first word = word.map f) :
    c.rejoin text = text.map f := by
  have hstyled : ∀ words, c.styledWords words = words.map (List.map f) := fun words => by
    cases words <;> simp [styledWords, hf]
  rw [rejoin, restyled, hstyled, ← List.map_flatten, flatten_wordsOf htext]

theorem rejoin_rejoin_of_not_capitalizes (hstyle : c.caseStyle.capitalizes = false) :
    c.rejoin (c.rejoin text) = c.rejoin text := by
  have hread : ∀ char ∈ c.rejoin text, char.isAlphanum = true := fun _ => isAlphanum_of_mem_rejoin
  cases hcase : c.caseStyle with
  | title | pascal | camel => simp [Casing.capitalizes, hcase] at hstyle
  | snake =>
      have hf : ∀ first word, c.styledWord first word = word.map Char.toLower := by simp [styledWord, hcase]
      rw [rejoin_eq_map hread hf, rejoin_eq_map htext hf]
      simp [Function.comp_def]
  | upper =>
      have hf : ∀ first word, c.styledWord first word = word.map Char.toUpper := by simp [styledWord, hcase]
      rw [rejoin_eq_map hread hf, rejoin_eq_map htext hf]
      simp [Function.comp_def]
  | preserve =>
      have hf : ∀ first word, c.styledWord first word = word.map id := by simp [styledWord, hcase]
      rw [rejoin_eq_map hread hf, rejoin_eq_map htext hf]
      simp

end Alphanumeric

/-! ## Nested acronyms -/

def acronymsAt (c : Convention) (word : Word) : Finset String :=
  c.acronyms.toFinset.filter fun acronym => acronym.toList <+: word

/-- The greatest number of acronyms of which each starts with the one before it. -/
def nesting (c : Convention) : Nat :=
  c.acronyms.toFinset.sup fun acronym => (c.acronymsAt acronym.toList).card

theorem card_acronymsAt_lt {start word : Word} (hacronym : .ofList word ∈ c.acronyms) (hinit : start <+: word)
    (hne : start ≠ word) : (c.acronymsAt start).card < (c.acronymsAt word).card := by
  refine Finset.card_lt_card (Finset.ssubset_iff_of_subset (fun acronym h => ?_) |>.mpr ⟨.ofList word, ?_, ?_⟩)
  · obtain ⟨hmem, hstart⟩ := Finset.mem_filter.mp h
    exact Finset.mem_filter.mpr ⟨hmem, hstart.trans hinit⟩
  · simp [acronymsAt, hacronym]
  · intro h
    have hword : word <+: start := by simpa using (Finset.mem_filter.mp h).2
    exact hne (hinit.eq_of_length_le hword.length_le)

theorem card_acronymsAt_le_nesting {word : Word} (hacronym : .ofList word ∈ c.acronyms) :
    (c.acronymsAt word).card ≤ c.nesting := by
  have hle := Finset.le_sup (f := fun acronym : String => (c.acronymsAt acronym.toList).card)
    (List.mem_toFinset.mpr hacronym)
  rwa [String.toList_ofList] at hle

section Passes

variable {text : List Char} (htext : ∀ char ∈ text, char.isAlphanum = true)
include htext

theorem le_card_of_isJoined (hstyle : c.caseStyle.capitalizes = true) {passes : Nat} {word : Word}
    (h : IsJoined (c.restyled (c.rejoin^[passes] text)) word) : passes ≤ (c.acronymsAt word).card := by
  induction passes generalizing word with
  | zero => exact Nat.zero_le _
  | succ passes ih =>
      -- The word before the last pass is shorter, so each pass adds the word itself to its acronyms.
      rw [Function.iterate_succ_apply'] at h
      obtain ⟨hacronym, start, hstart, hinit, hne⟩ :=
        acronym_of_isJoined hstyle (isAlphanum_of_mem_iterate htext passes) h
      exact (ih hstart).trans_lt (card_acronymsAt_lt hacronym hinit hne)

/-- A text settles after two passes more than its acronyms are nested. -/
theorem rejoin_iterate {passes : Nat} (h : c.nesting + 2 ≤ passes) :
    c.rejoin (c.rejoin^[passes] text) = c.rejoin^[passes] text := by
  obtain ⟨before, rfl⟩ : ∃ before, passes = before + 2 := ⟨passes - 2, by omega⟩
  rw [Function.iterate_succ_apply']
  have halnum := isAlphanum_of_mem_iterate (c := c) htext (before + 1)
  cases hstyle : c.caseStyle.capitalizes with
  | false => exact rejoin_rejoin_of_not_capitalizes halnum hstyle
  | true =>
      refine rejoin_rejoin_of_not_isJoined hstyle halnum fun word hjoined => ?_
      have hcount := le_card_of_isJoined htext hstyle hjoined
      rw [Function.iterate_succ_apply'] at hjoined
      have hacronym := (acronym_of_isJoined hstyle (isAlphanum_of_mem_iterate htext before) hjoined).1
      have hnesting := card_acronymsAt_le_nesting hacronym
      omega

end Passes

/-! ## Normalized names -/

/-- A text of letters and digits that starts with the leading words, unless it is empty. -/
structure Started (c : Convention) (text : List Char) : Prop where
  alphanumeric : ∀ char ∈ text, char.isAlphanum = true
  leading : text ≠ [] → c.hasLeading text = true

theorem hasLeading_congr {text other : List Char} (h : text.map Char.toLower = other.map Char.toLower) :
    c.hasLeading text = c.hasLeading other := by
  simp only [hasLeading, h]

theorem Started.rejoin {text : List Char} (h : c.Started text) : c.Started (c.rejoin text) where
  alphanumeric _ := isAlphanum_of_mem_rejoin
  leading hne := by
    have hlower := map_toLower_rejoin (c := c) h.alphanumeric
    rw [hasLeading_congr hlower]
    refine h.leading fun hempty => hne ?_
    rw [hempty]
    rfl

theorem started_iterate {text : List Char} (h : c.Started text) (passes : Nat) : c.Started (c.rejoin^[passes] text) := by
  induction passes generalizing text with
  | zero => exact h
  | succ passes ih => exact ih h.rejoin

section Separator

variable (hc : c.separator = "")
include hc

theorem join_eq_flatten (words : List Word) : c.join words = (c.styledWords words).flatten := by
  have hflat : ∀ words : List Word, List.intercalate [] words = words.flatten := by
    intro words
    induction words with
    | nil => rfl
    | cons word rest ih =>
        cases rest with
        | nil => simp
        | cons next rest =>
            rw [List.intercalate_cons_cons, ih, List.append_nil]
            rfl
  rw [join, hc, String.toList_empty, hflat]

theorem started_normalizePass (name : List Char) : c.Started (c.normalizePass name) := by
  by_cases hempty : c.normalizePass name = []
  · simp only [hempty]
    exact ⟨by simp, fun h => absurd rfl h⟩
  · obtain ⟨words, hjoin, -, hsolid, hleading⟩ := exists_join_of_normalizePass hempty
    rw [hjoin]
    refine ⟨fun char hchar => ?_, fun _ => hleading⟩
    rw [join_eq_flatten hc] at hchar
    obtain ⟨word, hword, hchar⟩ := List.mem_flatten.mp hchar
    exact (solid_of_mem_styledWords hsolid word hword).isAlphanum char hchar

/-- What starts with the leading words is only put together again. -/
theorem normalizePass_eq_rejoin {text : List Char} (h : c.Started text) : c.normalizePass text = c.rejoin text := by
  cases hwords : wordsOf text with
  | nil => simp [normalizePass, Convention.rejoin, restyled, hwords, styledWords]
  | cons word rest =>
      have hjoin : c.join (word :: rest) = c.rejoin text := by
        rw [join_eq_flatten hc, Convention.rejoin, restyled, hwords]
      have hne : text ≠ [] := by
        rintro rfl
        cases hwords
      have hleading : c.hasLeading (c.rejoin text) = true :=
        (hasLeading_congr (map_toLower_rejoin h.alphanumeric)).trans (h.leading hne)
      simp [normalizePass, hwords, hjoin, hleading]

theorem settle_eq_iterate {text : List Char} (h : c.Started text) (passes : Nat) :
    c.settle passes text = c.rejoin^[passes] text := by
  induction passes generalizing text with
  | zero => rfl
  | succ passes ih =>
      rw [settle, normalizePass_eq_rejoin hc h]
      by_cases hfixed : c.rejoin text = text
      · simp only [hfixed, ↓reduceIte, Function.iterate_fixed hfixed]
      · simp only [hfixed, ↓reduceIte, Function.iterate_succ_apply, ih h.rejoin]

theorem normalizeChars_eq (name : List Char) :
    c.normalizeChars name = c.rejoin^[settlePasses] (c.normalizePass name) := by
  have hempty : c.separator.isEmpty = true := by simp [hc]
  rw [normalizeChars, if_pos hempty, settle_eq_iterate hc (started_normalizePass hc name)]

/-- A name settles if its acronyms are not nested too deep for the passes. -/
theorem normalizePass_normalizeChars (h : c.nesting + 2 ≤ settlePasses) (name : List Char) :
    c.normalizePass (c.normalizeChars name) = c.normalizeChars name := by
  have hstarted := started_normalizePass hc name
  rw [normalizeChars_eq hc, normalizePass_eq_rejoin hc (started_iterate hstarted _),
    rejoin_iterate hstarted.alphanumeric h]

end Separator

theorem normalize_eq_of_fixed {name : String} (h : c.normalizePass name.toList = name.toList) :
    c.normalize name = name := by
  have hsettle : ∀ passes, c.settle passes name.toList = name.toList := by
    intro passes
    cases passes with
    | zero => rfl
    | succ passes => simp only [settle, h, ↓reduceIte]
  simp only [normalize, normalizeChars, h, hsettle, ite_self, String.ofList_toList]

/-- A convention whose acronyms nest, one level deeper than the passes reach. -/
def tower : Convention where
  caseStyle := .pascal
  separator := ""
  acronyms := ["CO2", "DCO2E2F", "DCO2E2FG2H", "DCO2E2FG2HI2J"]

theorem nesting_tower : tower.nesting = 3 := by decide

theorem normalize_tower : tower.normalize "D Co 2 E2f G2h I2j K2l" = "DCO2E2FG2HI2JK2l" ∧
    tower.normalize "DCO2E2FG2HI2JK2l" = "Dco2e2fg2hi2jk2l" := by decide

theorem not_settles_tower :
    ¬∀ c : Convention, c.separator = "" → ∀ name, c.normalize (c.normalize name) = c.normalize name := by
  intro h
  have hsettled := h tower rfl "D Co 2 E2f G2h I2j K2l"
  rw [normalize_tower.1, normalize_tower.2] at hsettled
  exact absurd hsettled (by decide)

/-- Names without separators settle in every convention with few enough nested acronyms, and not in every
one with more. -/
theorem settles_iff (limit : Nat) : (∀ c : Convention, c.separator = "" → c.nesting ≤ limit → ∀ name : String,
    c.normalize (c.normalize name) = c.normalize name ∧
      c.normalizePass (c.normalize name).toList = (c.normalize name).toList) ↔ limit + 2 ≤ settlePasses := by
  constructor
  · intro h
    by_contra hdeep
    have hthree : tower.nesting ≤ limit := by
      rw [nesting_tower]
      simp only [settlePasses] at hdeep
      omega
    have hsettled := (h tower rfl hthree "D Co 2 E2f G2h I2j K2l").1
    rw [normalize_tower.1, normalize_tower.2] at hsettled
    exact absurd hsettled (by decide)
  · intro hlimit c hc hnesting name
    have hfixed : c.normalizePass (c.normalize name).toList = (c.normalize name).toList := by
      rw [normalize, String.toList_ofList]
      exact normalizePass_normalizeChars hc (by omega) name.toList
    exact ⟨normalize_eq_of_fixed hfixed, hfixed⟩

/-- A convention whose names take every pass to settle. -/
def lowTower : Convention := { tower with acronyms := ["CO2", "DCO2E2F", "DCO2E2FG2H"] }

theorem settles_lowTower : lowTower.nesting = 2 ∧
    lowTower.normalize "D Co 2 E2f G2h I2j" = "Dco2e2fg2hi2j" ∧
      lowTower.normalize "Dco2e2fg2hi2j" = "Dco2e2fg2hi2j" := by
  have hnesting : lowTower.nesting = 2 := by decide
  have hname : lowTower.normalize "D Co 2 E2f G2h I2j" = "Dco2e2fg2hi2j" := by decide
  have hsettled := ((settles_iff 2).mpr (by decide) lowTower rfl hnesting.le "D Co 2 E2f G2h I2j").1
  rw [hname] at hsettled
  exact ⟨hnesting, hname, hsettled⟩

end Convention

end Parametric
