import Mathlib
import Parametric.Proofs.Formula.Lexing
import Parametric.Sentence.Phrase

/-!
# Words, numbers and phrases of sentences

A text is split into words, numbers and signs that do not depend on what comes after them. Words of small letters that
belong to no phrase start none, and a phrase before such a word is found as a whole.
-/

namespace Parametric.Sentence

/-! ## Tokens -/

/-- A word and a number end before some text. -/
def Breaks (rest : List Char) : Prop := ∀ c ∈ rest.head?, c = ' ' ∨ c = ')'

/-- A text is split into certain tokens wherever its last word ends. -/
def Says (text : List Char) (said : List Token) : Prop :=
  ∀ rest, Breaks rest → tokens (text ++ rest) = said ++ tokens rest

variable {chars more : List Char} {said saidMore : List Token}

theorem breaks_nil : Breaks [] := fun _ hc => by cases hc

theorem tokens_cons {c : Char} {rest : List Char} {token : Token} {extra : Nat}
    (h : tokenAt? c rest = some (token, extra)) : tokens (c :: rest) = token :: tokens (rest.drop extra) := by
  rw [tokens, h]

theorem tokens_blank (rest : List Char) : tokens (' ' :: rest) = tokens rest := by
  have hnone : tokenAt? ' ' rest = none := by
    have hpair : rest.head?.any (isPair ' ') = false := by
      cases rest with
      | nil => rfl
      | cons d rest => simp [isPair]
    rw [tokenAt?, if_neg (by decide), if_neg (by decide), if_neg (by simp [hpair]), if_neg (by decide)]
  rw [tokens, hnone]

theorem tokens_sign {c : Char} (hc : c = '(' ∨ c = ')') (rest : List Char) :
    tokens (c :: rest) = .symbol (.singleton c) :: tokens rest := by
  have hsome : tokenAt? c rest = some (.symbol (.singleton c), 0) := by
    have hpair : rest.head?.any (isPair c) = false := by
      cases rest with
      | nil => rfl
      | cons d rest => rcases hc with rfl | rfl <;> simp [isPair]
    rcases hc with rfl | rfl <;>
      rw [tokenAt?, if_neg (by decide), if_neg (by decide), if_neg (by simp [hpair]), if_pos (by decide)]
  rw [tokens_cons hsome, List.drop_zero]

theorem Says.blank (h : Says chars said) (hmore : Says more saidMore) :
    Says (chars ++ ' ' :: more) (said ++ saidMore) := by
  intro rest hrest
  have hbreaks : Breaks (' ' :: (more ++ rest)) := fun c hc => .inl (Option.some.inj hc).symm
  rw [List.append_assoc, List.cons_append, h _ hbreaks, tokens_blank, hmore _ hrest, List.append_assoc]

theorem Says.parenthesized (h : Says chars said) :
    Says ('(' :: (chars ++ [')'])) (.symbol "(" :: (said ++ [.symbol ")"])) := by
  intro rest _
  have hbreaks : Breaks (')' :: rest) := fun c hc => .inr (Option.some.inj hc).symm
  rw [List.cons_append, List.append_assoc, List.singleton_append, tokens_sign (.inl rfl), h _ hbreaks,
    tokens_sign (.inr rfl)]
  simp only [List.cons_append, List.append_assoc, List.nil_append]
  rfl

/-- A word that is there and has small letters only. -/
def IsSmall (word : String) : Prop := word ≠ "" ∧ word.toList.all Char.isLower = true

instance (word : String) : Decidable (IsSmall word) := inferInstanceAs (Decidable (_ ∧ _))

theorem isLower_bounds {c : Char} (h : c.isLower = true) : 97 ≤ c.toNat ∧ c.toNat ≤ 122 := by
  simp only [Char.isLower, Bool.and_eq_true, decide_eq_true_eq] at h
  exact h

theorem isWordDigit_of_isDigit {c : Char} (h : c.isDigit = true) : Text.isWordDigit c = true := by
  have hbounds := Number.isDigit_bounds h
  rw [Text.isWordDigit, Text.isDecimalDigit, if_pos (by omega), h, Text.isAddition,
    decide_eq_false (show ¬c.toNat ≥ 128 by omega)]
  rfl

theorem Breaks.all_head? {rest : List Char} (h : Breaks rest) {p : Char → Bool} (hblank : p ' ' = false)
    (hclose : p ')' = false) : rest.head?.all (!p ·) = true := by
  cases rest with
  | nil => rfl
  | cons c rest => rcases h c rfl with rfl | rfl <;> simp [hblank, hclose]

theorem says_word {word : String} (h : IsSmall word) : Says word.toList [.word word] := by
  intro rest hrest
  obtain ⟨hne, hlower⟩ := h
  rw [List.all_eq_true] at hlower
  cases hchars : word.toList with
  | nil => exact absurd (String.toList_eq_nil_iff.mp hchars) hne
  | cons c tail =>
      rw [hchars] at hlower
      obtain ⟨hc, htail⟩ := List.forall_mem_cons.mp hlower
      have hbounds := isLower_bounds hc
      have hdigit : c.isDigit = false := by
        by_contra hdigit
        have := Number.isDigit_bounds (by simpa using hdigit)
        omega
      have hword : Text.isWordDigit c = false := by
        rw [Text.isWordDigit, Text.isDecimalDigit, if_pos (by omega), hdigit, Bool.false_and]
      have hstart : isWordStart c = true := by simp [isWordStart, Char.isAlpha, hc]
      have htaken : (tail ++ rest).takeWhile (fun d => d.isAlphanum || d == '_') = tail :=
        (Number.takeWhile_of_all (fun d hd => by simp [Char.isAlphanum, Char.isAlpha, htail d hd]) rest
          (hrest.all_head? (by decide) (by decide))).1
      have hsome : tokenAt? c (tail ++ rest) = some (.word (.ofList (c :: tail)), tail.length) := by
        simp only [tokenAt?, hword, hstart, htaken, Bool.false_eq_true, ↓reduceIte]
      rw [List.cons_append, tokens_cons hsome, List.drop_left, ← hchars, String.ofList_toList]
      rfl

/-- The digits of a number, and those after its point if it has one. -/
structure Digits where
  whole : List Char
  fraction : List Char := []
  whole_ne_nil : whole ≠ []
  isDigit : ∀ c ∈ whole ++ fraction, c.isDigit = true

namespace Digits

def tail (d : Digits) : List Char := if d.fraction = [] then [] else '.' :: d.fraction

def text (d : Digits) : String := .ofList (d.whole ++ d.tail)

def value (d : Digits) : Float := Number.nearest (d.whole ++ d.fraction) (-(d.fraction.length : Int))

theorem tail_cases (d : Digits) : d.fraction = [] ∧ d.tail = [] ∨ d.fraction ≠ [] ∧ d.tail = '.' :: d.fraction := by
  by_cases h : d.fraction = []
  · exact .inl ⟨h, if_pos h⟩
  · exact .inr ⟨h, if_neg h⟩

theorem isDigit_whole (d : Digits) : ∀ c ∈ d.whole, c.isDigit = true := fun c hc =>
  d.isDigit c (List.mem_append_left _ hc)

theorem isDigit_fraction (d : Digits) : ∀ c ∈ d.fraction, c.isDigit = true := fun c hc =>
  d.isDigit c (List.mem_append_right _ hc)

theorem isDigit_or_point (d : Digits) : ∀ c ∈ d.whole ++ d.tail, c.isDigit = true ∨ c = '.' := by
  intro c hc
  rcases List.mem_append.mp hc with hwhole | htail
  · exact .inl (d.isDigit_whole c hwhole)
  · rcases d.tail_cases with ⟨-, heq⟩ | ⟨-, heq⟩
    · rw [heq] at htail
      cases htail
    · rw [heq] at htail
      exact (List.mem_cons.mp htail).symm.imp (d.isDigit_fraction c) id

theorem read?_eq (d : Digits) : Number.read? (d.whole ++ d.tail) = some d.value := by
  have hmark : ∀ c ∈ d.whole ++ d.tail, (!(c == 'e' || c == 'E')) = true := by
    intro c hc
    rcases d.isDigit_or_point c hc with hdigit | rfl
    · have hbounds := Number.isDigit_bounds hdigit
      have he : c ≠ 'e' := by
        rintro rfl
        exact absurd hdigit (by decide)
      have hE : c ≠ 'E' := by
        rintro rfl
        exact absurd hdigit (by decide)
      simp [he, hE]
    · decide
  have htail : d.tail.head?.all (!Char.isDigit ·) = true := by
    rcases d.tail_cases with ⟨-, heq⟩ | ⟨-, heq⟩
    · rw [heq]
      rfl
    · rw [heq]
      exact (by decide : (!Char.isDigit '.') = true)
  obtain ⟨htaken, hdropped⟩ := Number.takeWhile_of_all d.isDigit_whole d.tail htail
  have hmantissa : Number.mantissa? (d.whole ++ d.tail) = some (d.whole ++ d.fraction, d.fraction.length) := by
    rw [Number.mantissa?, htaken, hdropped]
    rcases d.tail_cases with ⟨hnil, heq⟩ | ⟨hne, heq⟩
    · simp [heq, hnil, d.whole_ne_nil]
    · have hall : d.fraction.all Char.isDigit = true := List.all_eq_true.mpr d.isDigit_fraction
      simp [heq, hall, hne]
  rw [Number.read?, List.takeWhile_eq_self_iff.mpr hmark, List.dropWhile_eq_nil_iff.mpr hmark, hmantissa]
  rfl

end Digits

theorem fractionLength_tail (d : Digits) {rest : List Char} (hrest : Breaks rest) :
    fractionLength (d.tail ++ rest) = d.tail.length := by
  rcases d.tail_cases with ⟨-, heq⟩ | ⟨hne, heq⟩
  · rw [heq, List.nil_append, List.length_nil]
    cases rest with
    | nil => rfl
    | cons c rest => rcases hrest c rfl with rfl | rfl <;> rfl
  · have htaken : (d.fraction ++ rest).takeWhile Text.isWordDigit = d.fraction :=
      (Number.takeWhile_of_all (fun c hc => isWordDigit_of_isDigit (d.isDigit_fraction c hc)) rest
        (hrest.all_head? (by decide) (by decide))).1
    have hlength : d.fraction.length ≠ 0 := fun hzero => hne (List.length_eq_zero_iff.mp hzero)
    rw [heq, List.cons_append, fractionLength, htaken, if_neg hlength, List.length_cons]

theorem says_digits (d : Digits) : Says d.text.toList [.number d.text] := by
  intro rest hrest
  rw [Digits.text, String.toList_ofList]
  cases hwhole : d.whole with
  | nil => exact absurd hwhole d.whole_ne_nil
  | cons c whole =>
      have hdigits := d.isDigit_whole
      rw [hwhole] at hdigits
      obtain ⟨hc, hdigits⟩ := List.forall_mem_cons.mp hdigits
      have hend : (d.tail ++ rest).head?.all (!Text.isWordDigit ·) = true := by
        rcases d.tail_cases with ⟨-, heq⟩ | ⟨-, heq⟩
        · rw [heq]
          exact hrest.all_head? (by decide) (by decide)
        · rw [heq]
          exact (by decide : (!Text.isWordDigit '.') = true)
      have htaken : (whole ++ (d.tail ++ rest)).takeWhile Text.isWordDigit = whole :=
        (Number.takeWhile_of_all (fun c hc => isWordDigit_of_isDigit (hdigits c hc)) _ hend).1
      have hbody : (whole ++ (d.tail ++ rest)).take (whole.length + d.tail.length) = whole ++ d.tail := by
        rw [← List.append_assoc, ← List.length_append, List.take_left]
      have hsome : tokenAt? c (whole ++ (d.tail ++ rest)) =
          some (.number (.ofList (c :: (whole ++ d.tail))), (whole ++ d.tail).length) := by
        rw [tokenAt?, if_pos (isWordDigit_of_isDigit hc)]
        simp only [htaken, List.drop_left, fractionLength_tail d hrest, hbody, hc, ↓reduceIte, List.length_append]
      rw [List.cons_append, List.cons_append, List.append_assoc, tokens_cons hsome, ← List.append_assoc,
        List.drop_left]
      rfl

/-! ## Phrases -/

/-- The first token, if there is one, is no word of any phrase. -/
def Plain (rest : List Token) : Prop :=
  ∀ token ∈ rest.head?, ∀ entry ∈ phrases, ∀ word ∈ phraseWords entry.1, startsWith [word] [token] = false

theorem startsWith_append {words : List String} {said rest : List Token}
    (h : ∀ token ∈ rest.head?, ∀ word ∈ words, startsWith [word] [token] = false) :
    startsWith words (said ++ rest) = startsWith words said := by
  induction said generalizing words with
  | nil =>
      match words, rest with
      | [], _ => rfl
      | _ :: _, [] => rfl
      | word :: words, token :: rest =>
          have hfirst := h token rfl word List.mem_cons_self
          cases token with
          | word text =>
              simp only [startsWith, Bool.and_true] at hfirst
              simp only [List.nil_append, startsWith, hfirst, Bool.false_and]
          | number | symbol => rfl
  | cons token said ih =>
      match words, token with
      | [], _ => rfl
      | word :: words, .word text =>
          simp only [List.cons_append, startsWith]
          rw [ih fun token htoken other hother => h token htoken other (List.mem_cons_of_mem _ hother)]
      | _ :: _, .number _ | _ :: _, .symbol _ => rfl

theorem phraseAt?_append {said rest : List Token} (h : Plain rest) : phraseAt? (said ++ rest) = phraseAt? said := by
  have hstarts : ∀ entry ∈ phrases,
      startsWith (phraseWords entry.1) (said ++ rest) = startsWith (phraseWords entry.1) said := fun entry hentry =>
    startsWith_append fun token htoken => h token htoken entry hentry
  rw [phraseAt?, phraseAt?]
  generalize phrases = entries at hstarts
  induction entries with
  | nil => rfl
  | cons entry entries ih =>
      obtain ⟨hentry, hentries⟩ := List.forall_mem_cons.mp hstarts
      rw [List.findSome?_cons, List.findSome?_cons, ih hentries]
      simp only [hentry]

theorem phraseWords_ne_nil : ∀ entry ∈ phrases, phraseWords entry.1 ≠ [] := by
  decide +kernel

theorem phraseAt?_plain {token : Token} {rest : List Token} (h : Plain (token :: rest)) :
    phraseAt? (token :: rest) = none := by
  rw [← List.nil_append (token :: rest), phraseAt?_append h]
  decide +kernel

theorem plain_number (text : String) (rest : List Token) : Plain (.number text :: rest) :=
  fun _ htoken _ _ _ _ => Option.some.inj htoken ▸ rfl

theorem plain_symbol (text : String) (rest : List Token) : Plain (.symbol text :: rest) :=
  fun _ htoken _ _ _ _ => Option.some.inj htoken ▸ rfl

theorem lowerAscii_eq_self {text : String} (h : ∀ c ∈ text.toList, c.isUpper = false) : Text.lowerAscii text = text := by
  have hchars : text.toList.map Char.toLower = text.toList := by
    refine (List.map_congr_left fun c hc => ?_).trans (List.map_id' _)
    have hupper := h c hc
    rw [Char.toLower, dif_neg]
    exact of_decide_eq_false hupper
  rw [Text.lowerAscii, hchars, String.ofList_toList]

theorem IsSmall.isUpper_eq_false {word : String} (h : IsSmall word) : ∀ c ∈ word.toList, c.isUpper = false := by
  intro c hc
  have hbounds := isLower_bounds (List.all_eq_true.mp h.2 c hc)
  refine decide_eq_false fun hupper => ?_
  have hle : c.toNat ≤ 90 := UInt32.le_iff_toNat_le.mp hupper.2
  omega

theorem sameAscii_eq_false_of_ne {word other : String} (h : IsSmall word) (hother : IsSmall other) (hne : word ≠ other) :
    Text.sameAscii word other = false := by
  rw [Text.sameAscii, lowerAscii_eq_self h.isUpper_eq_false, lowerAscii_eq_self hother.isUpper_eq_false]
  exact beq_eq_false_iff_ne.mpr hne

theorem isSmall_of_mem_phraseWords : ∀ entry ∈ phrases, ∀ word ∈ phraseWords entry.1, IsSmall word := by
  decide +kernel

theorem startsWith_words (words : List String) : startsWith words (words.map .word) = true := by
  induction words with
  | nil => rfl
  | cons word words ih => rw [List.map_cons, startsWith, ih, Text.sameAscii, beq_self_eq_true, Bool.and_self]

theorem prefix_of_startsWith {words said : List String} (hwords : ∀ word ∈ words, IsSmall word)
    (hsaid : ∀ word ∈ said, IsSmall word) (h : startsWith words (said.map .word) = true) : words <+: said := by
  induction words generalizing said with
  | nil => exact List.nil_prefix
  | cons word words ih =>
      cases said with
      | nil => cases h
      | cons other said =>
          rw [List.forall_mem_cons] at hwords hsaid
          rw [List.map_cons, startsWith, Bool.and_eq_true] at h
          refine List.cons_prefix_cons.mpr ⟨?_, ih hwords.2 hsaid.2 h.2⟩
          by_contra hne
          exact Bool.false_ne_true ((sameAscii_eq_false_of_ne hwords.1 hsaid.1 hne).symm.trans h.1)

theorem pairwise_phrases : phrases.Pairwise fun earlier entry =>
    ((phraseWords earlier.1).map String.toList).isPrefixOf ((phraseWords entry.1).map String.toList) = false := by
  decide +kernel

theorem phraseAt?_words : ∀ entry ∈ phrases,
    phraseAt? ((phraseWords entry.1).map .word) = some (entry.2, (phraseWords entry.1).length) := by
  intro entry hentry
  obtain ⟨before, after, hphrases⟩ := List.append_of_mem hentry
  have hpairwise := pairwise_phrases
  rw [hphrases, List.pairwise_append] at hpairwise
  have hbefore : ∀ earlier ∈ before, startsWith (phraseWords earlier.1) ((phraseWords entry.1).map .word) = false := by
    intro earlier hearlier
    have hmem : earlier ∈ phrases := hphrases ▸ List.mem_append_left _ hearlier
    have hnot := hpairwise.2.2 earlier hearlier entry List.mem_cons_self
    rw [Bool.eq_false_iff] at hnot ⊢
    intro hstarts
    have hwords := prefix_of_startsWith (isSmall_of_mem_phraseWords earlier hmem) (isSmall_of_mem_phraseWords entry hentry)
      hstarts
    exact hnot (List.isPrefixOf_iff_prefix.mpr (hwords.map String.toList))
  rw [phraseAt?, hphrases, List.findSome?_append, Option.or_of_isNone, List.findSome?_cons]
  · simp only [startsWith_words, ↓reduceIte]
  · rw [Option.isNone_iff_eq_none, List.findSome?_eq_none_iff]
    exact fun earlier hearlier => if_neg (Bool.eq_false_iff.mp (hbefore earlier hearlier))

theorem plain_word {word : String} (hsmall : IsSmall word) (hnone : ∀ entry ∈ phrases, word ∉ phraseWords entry.1)
    (rest : List Token) : Plain (.word word :: rest) := by
  intro token htoken entry hentry other hother
  obtain rfl := Option.some.inj htoken
  have hne : other ≠ word := fun heq => hnone entry hentry (heq ▸ hother)
  rw [startsWith, startsWith, Bool.and_true]
  exact sameAscii_eq_false_of_ne (isSmall_of_mem_phraseWords entry hentry other hother) hsmall hne

theorem says_words {words : List String} (hne : words ≠ []) (h : ∀ word ∈ words, IsSmall word) :
    Says (" ".intercalate words).toList (words.map .word) := by
  rw [String.toList_intercalate]
  induction words with
  | nil => exact absurd rfl hne
  | cons word words ih =>
      obtain ⟨hword, hwords⟩ := List.forall_mem_cons.mp h
      cases words with
      | nil => simpa using says_word hword
      | cons next words =>
          have hmore := ih (by simp) hwords
          rw [List.map_cons, List.map_cons, List.intercalate_cons_cons, List.append_assoc]
          exact (says_word hword).blank hmore

theorem intercalate_phraseWords : ∀ entry ∈ phrases, " ".intercalate (phraseWords entry.1) = entry.1 := by
  decide +kernel

theorem says_phrase {entry : String × Phrase} (h : entry ∈ phrases) :
    Says entry.1.toList ((phraseWords entry.1).map .word) := by
  have hsays := says_words (phraseWords_ne_nil entry h) (isSmall_of_mem_phraseWords entry h)
  rwa [intercalate_phraseWords entry h] at hsays

end Parametric.Sentence
