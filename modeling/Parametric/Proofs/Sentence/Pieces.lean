import Mathlib
import Parametric.Proofs.Sentence.Spoken

/-!
# The tokens of translated formulas

The pieces of a spoken formula are joined to a text that is split into certain tokens: those of the formula, with a
parenthesis before the argument of every function, and the parentheses that close functions behind names and numbers.
-/

namespace Parametric.Sentence

open Formula

/-! ## Joined pieces -/

/-- What is written behind pieces that do not end with an opening parenthesis. -/
def following : List String → String
  | [] => ""
  | next :: rest => (if next == "," || next == ")" then "" else " ") ++ joinPieces (next :: rest)

theorem joinPieces_append {pieces : List String} (more : List String) (hne : pieces ≠ [])
    (hlast : ∀ piece ∈ pieces.getLast?, piece.toList.getLast? ≠ some '(') :
    joinPieces (pieces ++ more) = joinPieces pieces ++ following more := by
  induction pieces with
  | nil => exact absurd rfl hne
  | cons piece rest ih =>
      cases rest with
      | nil =>
          cases more with
          | nil => exact String.append_empty.symm
          | cons next more =>
              have hopen : (piece.toList.getLast? == some '(') = false := beq_eq_false_iff_ne.mpr (hlast piece rfl)
              simp only [List.singleton_append, joinPieces, following, hopen, Bool.false_or, String.append_assoc]
      | cons next rest =>
          have hrest := ih (List.cons_ne_nil next rest) fun last hmem => hlast last (by simpa using hmem)
          rw [List.cons_append] at hrest
          simp only [List.cons_append, joinPieces, hrest, String.append_assoc]

theorem joinPieces_open {piece : String} {rest : List String} (h : piece.toList.getLast? = some '(') (hne : rest ≠ []) :
    joinPieces (piece :: rest) = piece ++ joinPieces rest := by
  obtain ⟨next, rest, rfl⟩ := List.exists_cons_of_ne_nil hne
  simp only [joinPieces, h, BEq.rfl, Bool.true_or, if_true, String.append_empty]

/-- Pieces that are joined to a text which is split into certain tokens, whatever is written before them and after
them. -/
structure Prints (pieces : List String) (kinds : List Lexeme) : Prop where
  spells : Spells (joinPieces pieces).toList kinds
  first : ∃ piece ∈ pieces.head?, piece ≠ "," ∧ piece ≠ ")"
  last : ∃ piece ∈ pieces.getLast?, piece.toList.getLast? ≠ some '('

namespace Prints

variable {pieces others : List String} {kinds more : List Lexeme}

theorem ne_nil (h : Prints pieces kinds) : pieces ≠ [] := by
  rintro rfl
  obtain ⟨piece, hpiece, -⟩ := h.first
  cases hpiece

theorem joinPieces_append (h : Prints pieces kinds) (rest : List String) :
    joinPieces (pieces ++ rest) = joinPieces pieces ++ following rest := by
  obtain ⟨piece, hpiece, hlast⟩ := h.last
  exact Sentence.joinPieces_append rest h.ne_nil fun other hother => Option.mem_unique hpiece hother ▸ hlast

theorem following_eq (h : Prints pieces kinds) : following pieces = " " ++ joinPieces pieces := by
  obtain ⟨piece, rest, rfl⟩ := List.exists_cons_of_ne_nil h.ne_nil
  obtain ⟨first, hfirst, hcomma, hclose⟩ := h.first
  obtain rfl := Option.some.inj hfirst
  have hapart : (piece == "," || piece == ")") = false := by simp [hcomma, hclose]
  rw [following, hapart]
  rfl

theorem parenthesized (h : Prints pieces kinds) :
    Prints ("(" :: (pieces ++ [")"])) (.leftParen :: (kinds ++ [.rightParen])) where
  spells := by
    have htext : joinPieces ("(" :: (pieces ++ [")"])) = "(" ++ (joinPieces pieces ++ ")") := by
      rw [joinPieces_open rfl (by simp), h.joinPieces_append]
      rfl
    have hchars : ("(" ++ (joinPieces pieces ++ ")")).toList = '(' :: ((joinPieces pieces).toList ++ [')']) := by simp
    rw [htext, hchars]
    exact h.spells.parenthesized
  first := ⟨"(", rfl, by decide⟩
  last := ⟨")", by rw [← List.cons_append, List.getLast?_concat]; rfl, by decide⟩

theorem call (f : Function) (h : Prints pieces kinds) :
    Prints ((f.name ++ "(") :: pieces) (.ident f.name :: .leftParen :: kinds) where
  spells := by
    have hopen : (f.name ++ "(").toList.getLast? = some '(' := by simp
    have hchars : (joinPieces ((f.name ++ "(") :: pieces)).toList = f.name.toList ++ '(' :: (joinPieces pieces).toList := by
      rw [joinPieces_open hopen h.ne_nil]
      simp
    rw [hchars]
    exact (spells_word (Expr.isWord_name f)).append (h.spells.cons (by decide) (by decide) lexeme_leftParen)
      fun rest => delimits_of_isSymbolChar (by decide +kernel) _
  first := ⟨f.name ++ "(", rfl, by cases f <;> decide⟩
  last := by
    obtain ⟨piece, hpiece, hlast⟩ := h.last
    exact ⟨piece, by rw [List.getLast?_cons, Option.mem_def.mp hpiece]; rfl, hlast⟩

theorem binary (op : BinaryOperator) (h : Prints pieces kinds) (hmore : Prints others more) :
    Prints (pieces ++ op.symbol :: others) (kinds ++ op.lexeme :: more) where
  spells := by
    have hapart : (op.symbol == "," || op.symbol == ")") = false := by cases op <;> decide
    have hlast : ∀ piece ∈ [op.symbol].getLast?, piece.toList.getLast? ≠ some '(' := by cases op <;> simp <;> decide
    have hright : joinPieces (op.symbol :: others) = op.symbol ++ following others :=
      Sentence.joinPieces_append others (List.cons_ne_nil _ _) hlast
    have hchars : (joinPieces (pieces ++ op.symbol :: others)).toList =
        (joinPieces pieces).toList ++ ((Style.operator {} op).toList ++ (joinPieces others).toList) := by
      rw [h.joinPieces_append, following, hapart, hright, hmore.following_eq, Style.operator]
      simp
    rw [hchars]
    exact h.spells.binary {} op hmore.spells
  first := by
    obtain ⟨piece, hpiece, hfirst⟩ := h.first
    exact ⟨piece, by rw [List.head?_append, Option.mem_def.mp hpiece]; rfl, hfirst⟩
  last := by
    obtain ⟨piece, hpiece, hlast⟩ := hmore.last
    exact ⟨piece, by rw [List.getLast?_append, List.getLast?_cons, Option.mem_def.mp hpiece]; rfl, hlast⟩

end Prints

/-! ## Numbers and names -/

theorem spells_closers {text : List Char} {kinds : List Lexeme} (h : Spells text kinds) (count : Nat) :
    Spells (text ++ (Spoken.closers count).toList) (kinds ++ List.replicate count .rightParen) := by
  rw [Spoken.closers, String.toList_ofList]
  induction count with
  | zero => simpa using h
  | succ count ih =>
      rw [List.replicate_succ', List.replicate_succ', ← List.append_assoc, ← List.append_assoc]
      exact ih.append spells_rightParen fun _ => delimits_of_isSymbolChar (by decide +kernel) _

theorem prints_atom {text : String} {kind : Lexeme} {first : Char} (hspells : Spells text.toList [kind])
    (hfirst : text.toList.head? = some first) (hapart : first ≠ ',' ∧ first ≠ ')')
    (hlast : text.toList.getLast? ≠ some '(') (count : Nat) :
    Prints [text ++ Spoken.closers count] (kind :: List.replicate count .rightParen) where
  spells := by
    rw [joinPieces, String.toList_append]
    exact spells_closers hspells count
  first := by
    have hhead : (text ++ Spoken.closers count).toList.head? = some first := by simp [hfirst]
    refine ⟨_, rfl, fun hcomma => ?_, fun hclose => ?_⟩
    · rw [hcomma] at hhead
      exact hapart.1 (Option.some.inj hhead).symm
    · rw [hclose] at hhead
      exact hapart.2 (Option.some.inj hhead).symm
  last := by
    refine ⟨text ++ Spoken.closers count, rfl, ?_⟩
    rw [Spoken.closers, String.toList_append, String.toList_ofList, List.getLast?_append, List.getLast?_replicate]
    split
    · exact hlast
    · simp

theorem prints_number (digits : Digits) (count : Nat) :
    Prints [digits.text ++ Spoken.closers count] (.number digits.value :: List.replicate count .rightParen) := by
  obtain ⟨first, whole, hwhole⟩ := List.exists_cons_of_ne_nil digits.whole_ne_nil
  have htext : digits.text.toList = digits.whole ++ digits.tail := String.toList_ofList
  have hchar : ∀ c, c.isDigit = false → c ≠ '.' → c ∉ digits.text.toList := by
    intro c hdigit hpoint hmem
    rw [htext] at hmem
    rcases digits.isDigit_or_point c hmem with h | h
    · rw [hdigit] at h
      cases h
    · exact hpoint h
  have hfirst : digits.text.toList.head? = some first := by rw [htext, hwhole]; rfl
  have hmem : first ∈ digits.text.toList := List.mem_of_mem_head? hfirst
  refine prints_atom ?_ hfirst ⟨?_, ?_⟩ (fun hlast => ?_) count
  · rw [htext]
    exact spells_number (by simp [hwhole]) digits.isDigit_or_point digits.read?_eq
  · rintro rfl
    exact hchar _ (by decide) (by decide) hmem
  · rintro rfl
    exact hchar _ (by decide) (by decide) hmem
  · exact hchar _ (by decide) (by decide) (List.mem_of_getLast? hlast)

section Names

variable {c : Convention} (name : SpokenName)

theorem SpokenName.exists_join (hc : c.Separates) :
    ∃ words : List Word, name.normal c = .ofList (c.join words) ∧ words ≠ [] ∧ ∀ word ∈ words, word.Solid := by
  have hwords : wordsOf (" ".intercalate name.words).toList ≠ [] := by
    obtain ⟨word, words, hcons⟩ := List.exists_cons_of_ne_nil name.words_ne_nil
    have hsmall := (name.isNameWord word (hcons ▸ List.mem_cons_self)).isSmall
    have hne : word.toList ≠ [] := fun hnil => hsmall.1 (String.toList_eq_nil_iff.mp hnil)
    obtain ⟨first, rest, hfirst⟩ := List.exists_cons_of_ne_nil hne
    have hlower : first.isLower = true := List.all_eq_true.mp hsmall.2 first (hfirst ▸ List.mem_cons_self)
    have hhead : (" ".intercalate name.words).toList.head? = some first := by
      rw [String.toList_intercalate, hcons, List.map_cons, head?_intercalate hne, hfirst, List.head?_cons]
    exact wordsOf_ne_nil hhead (by simp [Char.isAlphanum, Char.isAlpha, hlower])
  obtain ⟨words, hjoin, hne, hsolid, -⟩ := Convention.exists_join_of_normalizePass (c := c)
    (Convention.normalizePass_ne_nil hwords)
  exact ⟨words, by rw [normal, Convention.normalize_eq hc, hjoin], hne, hsolid⟩

theorem SpokenName.trim_normal (hc : c.Separates) : Text.trim (name.normal c) = name.normal c := by
  obtain ⟨words, hjoin, hne, hsolid⟩ := name.exists_join hc
  rw [hjoin]
  exact Convention.trim_join hne hsolid

theorem SpokenName.fitsTrimmed_normal (hc : c.Separates) (hclose : ']' ∉ c.separator.toList) :
    FitsTrimmed (name.normal c) := by
  obtain ⟨words, hjoin, hne, hsolid⟩ := name.exists_join hc
  have htrim := name.trim_normal hc
  refine ⟨by rw [htrim, htrim], ?_, ?_⟩
  · rw [htrim, hjoin]
    intro hempty
    obtain ⟨first, hfirst, -⟩ := Convention.head?_join (c := c) hne hsolid
    rw [String.ofList_eq_empty_iff.mp hempty] at hfirst
    cases hfirst
  · rw [htrim, hjoin, String.toList_ofList]
    intro hmem
    have hallowed := Convention.allows_of_mem_join hsolid hmem
    simp [Convention.allows, hclose] at hallowed

theorem prints_name (hc : c.Separates) (hclose : ']' ∉ c.separator.toList) (count : Nat) :
    Prints [nameText (name.normal c) ++ Spoken.closers count]
      (nameLexeme (name.normal c) :: List.replicate count .rightParen) := by
  obtain ⟨words, hjoin, hne, hsolid⟩ := name.exists_join hc
  have hspells := spells_name (name.fitsTrimmed_normal hc hclose)
  by_cases hplain : isPlainName (name.normal c) = true
  · obtain ⟨first, hfirst, hfirst'⟩ := Convention.head?_join (c := c) hne hsolid
    obtain ⟨last, hlast, hlast'⟩ := Convention.getLast?_join (c := c) hne hsolid
    have htext : (nameText (name.normal c)).toList = c.join words := by
      rw [nameText, if_pos hplain, hjoin, String.toList_ofList]
    refine prints_atom hspells (by rw [htext, hfirst]) ⟨?_, ?_⟩ ?_ count
    · rintro rfl
      exact absurd hfirst' (by decide)
    · rintro rfl
      exact absurd hfirst' (by decide)
    · rw [htext, hlast]
      rintro heq
      obtain rfl := Option.some.inj heq
      exact absurd hlast' (by decide)
  · have htext : (nameText (name.normal c)).toList = '[' :: ((name.normal c).toList ++ [']']) := by
      rw [nameText, if_neg hplain]
      simp
    have hfirst : (nameText (name.normal c)).toList.head? = some '[' := by rw [htext, List.head?_cons]
    refine prints_atom hspells hfirst (by decide) ?_ count
    rw [htext, ← List.cons_append, List.getLast?_concat]
    decide

end Names

/-! ## Formulas -/

namespace Spoken

def enclosedLexemes (s : Spoken) (kinds : List Lexeme) : List Lexeme := s.enclosed .leftParen .rightParen kinds

/-- The tokens of the formula text after `unclosed` functions. -/
def lexemes (c : Convention) : Nat → Spoken → List Lexeme
  | unclosed, .number digits => .number digits.value :: List.replicate unclosed .rightParen
  | unclosed, .reference name => nameLexeme (name.normal c) :: List.replicate unclosed .rightParen
  | unclosed, .operation phrase lhs rhs =>
    lhs.enclosedLexemes (lhs.lexemes c unclosed) ++
      phrase.operator.lexeme :: rhs.enclosedLexemes (rhs.lexemes c 0)
  | unclosed, .application phrase argument =>
    .ident phrase.function.name :: .leftParen :: .leftParen :: (argument.lexemes c (unclosed + 1) ++ [.rightParen])

theorem prints_enclosed (s : Spoken) {pieces : List String} {kinds : List Lexeme} (h : Prints pieces kinds) :
    Prints (s.enclosedPieces pieces) (s.enclosedLexemes kinds) := by
  rw [enclosedPieces, enclosedLexemes, enclosed, enclosed]
  split
  · exact h
  · exact h.parenthesized

/-- The pieces of a formula are joined to a text that is split into the tokens of the formula. -/
theorem prints_pieces {c : Convention} (hc : c.Separates) (hclose : ']' ∉ c.separator.toList) :
    (s : Spoken) → ∀ unclosed, Prints (s.pieces c unclosed) (s.lexemes c unclosed)
  | .number digits, unclosed => prints_number digits unclosed
  | .reference name, unclosed => prints_name name hc hclose unclosed
  | .operation phrase lhs rhs, unclosed =>
    (prints_enclosed lhs (prints_pieces hc hclose lhs unclosed)).binary phrase.operator
      (prints_enclosed rhs (prints_pieces hc hclose rhs 0))
  | .application phrase argument, unclosed =>
    (prints_pieces hc hclose argument (unclosed + 1)).parenthesized.call phrase.function

end Spoken

end Parametric.Sentence
