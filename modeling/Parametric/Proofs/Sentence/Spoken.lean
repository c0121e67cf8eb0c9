import Mathlib
import Parametric.Proofs.Formula.Rendering
import Parametric.Proofs.Name.Validation
import Parametric.Proofs.Sentence.Phrase
import Parametric.Sentence.Translation

/-!
# Spoken formulas

Formulas as they are put into words, with parentheses around all operands that are operations or applications of
functions. They are translated piece by piece. Every function opens a parenthesis, and all that are open are closed
behind the first name or number.
-/

namespace Parametric.Sentence

open Formula

/-! ## Words -/

/-- A word that names can have: it has small letters, and it is no article, no constant and in no phrase. -/
structure IsNameWord (word : String) : Prop where
  isSmall : IsSmall word
  not_article : word ∉ articles
  not_constant : word ∉ ["pi", "true", "false"]
  not_phrase : ∀ entry ∈ phrases, word ∉ phraseWords entry.1

instance (word : String) : Decidable (IsNameWord word) :=
  decidable_of_iff (IsSmall word ∧ word ∉ articles ∧ word ∉ ["pi", "true", "false"] ∧
      ∀ entry ∈ phrases, word ∉ phraseWords entry.1)
    ⟨fun ⟨hsmall, harticle, hconstant, hphrase⟩ => ⟨hsmall, harticle, hconstant, hphrase⟩,
      fun h => ⟨h.isSmall, h.not_article, h.not_constant, h.not_phrase⟩⟩

structure SpokenName where
  words : List String
  words_ne_nil : words ≠ []
  isNameWord : ∀ word ∈ words, IsNameWord word

structure OperatorPhrase where
  operator : BinaryOperator
  text : String
  listed : (text, Phrase.operator operator.symbol) ∈ phrases

structure FunctionPhrase where
  function : Function
  text : String
  listed : (text, Phrase.function function.name) ∈ phrases

/-- A formula as it is put into words. -/
inductive Spoken where
  | number (digits : Digits)
  | reference (name : SpokenName)
  | operation (phrase : OperatorPhrase) (lhs rhs : Spoken)
  | application (phrase : FunctionPhrase) (argument : Spoken)

def SpokenName.normal (c : Convention) (name : SpokenName) : String := c.normalize (" ".intercalate name.words)

namespace Spoken

/-- Numbers and names stand without parentheses. -/
def isAtom : Spoken → Bool
  | .number _ | .reference _ => true
  | .operation .. | .application .. => false

def text : Spoken → String
  | .number digits => digits.text
  | .reference name => " ".intercalate name.words
  | .operation phrase lhs rhs =>
    Expr.parenthesized (!lhs.isAtom) lhs.text ++ " " ++ phrase.text ++ " " ++ Expr.parenthesized (!rhs.isAtom) rhs.text
  | .application phrase argument => phrase.text ++ " (" ++ argument.text ++ ")"

def formula (c : Convention) : Spoken → Term
  | .number digits => .number digits.value
  | .reference name => .reference (name.normal c)
  | .operation phrase lhs rhs => .binary phrase.operator (lhs.formula c) (rhs.formula c)
  | .application phrase argument => .call phrase.function [argument.formula c]

/-! ## Tokens -/

/-- What stands for an operand: a formula between parentheses unless it is a number or a name. -/
def enclosed {α : Type} (s : Spoken) (opening closing : α) (inner : List α) : List α :=
  if s.isAtom then inner else opening :: (inner ++ [closing])

def enclosedSaid (s : Spoken) (said : List Token) : List Token := s.enclosed (.symbol "(") (.symbol ")") said

def said : Spoken → List Token
  | .number digits => [.number digits.text]
  | .reference name => name.words.map .word
  | .operation phrase lhs rhs =>
    lhs.enclosedSaid lhs.said ++ ((phraseWords phrase.text).map .word ++ rhs.enclosedSaid rhs.said)
  | .application phrase argument =>
    (phraseWords phrase.text).map .word ++ .symbol "(" :: (argument.said ++ [.symbol ")"])

theorem says_enclosed {s : Spoken} (h : Says s.text.toList s.said) :
    Says (Expr.parenthesized (!s.isAtom) s.text).toList (s.enclosedSaid s.said) := by
  rw [enclosedSaid, enclosed]
  cases s.isAtom with
  | true => exact h
  | false =>
      have htext : (Expr.parenthesized (!false) s.text).toList = '(' :: (s.text.toList ++ [')']) := by
        simp [Expr.parenthesized]
      rw [htext]
      exact h.parenthesized

theorem says_text : (s : Spoken) → Says s.text.toList s.said
  | .number digits => says_digits digits
  | .reference name => says_words name.words_ne_nil fun word hword => (name.isNameWord word hword).isSmall
  | .operation phrase lhs rhs => by
      have hl := says_enclosed (says_text lhs)
      have hr := says_enclosed (says_text rhs)
      have htext : (operation phrase lhs rhs).text.toList = (Expr.parenthesized (!lhs.isAtom) lhs.text).toList ++
          ' ' :: (phrase.text.toList ++ ' ' :: (Expr.parenthesized (!rhs.isAtom) rhs.text).toList) := by
        simp [text]
      rw [htext]
      exact hl.blank ((says_phrase phrase.listed).blank hr)
  | .application phrase argument => by
      have htext : (application phrase argument).text.toList =
          phrase.text.toList ++ ' ' :: '(' :: (argument.text.toList ++ [')']) := by
        simp [text]
      rw [htext]
      exact (says_phrase phrase.listed).blank (says_text argument).parenthesized

theorem tokens_text (s : Spoken) : tokens s.text.toList = s.said := by
  have hsays := says_text s [] breaks_nil
  rwa [List.append_nil, tokens, List.append_nil] at hsays

theorem plain_enclosed (s : Spoken) (rest : List Token) : Plain (s.enclosedSaid s.said ++ rest) := by
  cases s with
  | number digits => exact plain_number _ _
  | reference name =>
      obtain ⟨word, words, hwords⟩ := List.exists_cons_of_ne_nil name.words_ne_nil
      have hword := name.isNameWord word (hwords ▸ List.mem_cons_self)
      rw [enclosedSaid, enclosed, isAtom, if_pos rfl, said, hwords]
      exact plain_word hword.isSmall hword.not_phrase _
  | operation | application => exact plain_symbol _ _

/-! ## Pieces -/

def closers (count : Nat) : String := .ofList (List.replicate count ')')

def enclosedPieces (s : Spoken) (pieces : List String) : List String := s.enclosed "(" ")" pieces

/-- The pieces of a formula after `unclosed` functions. -/
def pieces (c : Convention) : Nat → Spoken → List String
  | unclosed, .number digits => [digits.text ++ closers unclosed]
  | unclosed, .reference name => [nameText (name.normal c) ++ closers unclosed]
  | unclosed, .operation phrase lhs rhs =>
    lhs.enclosedPieces (lhs.pieces c unclosed) ++ phrase.operator.symbol :: rhs.enclosedPieces (rhs.pieces c 0)
  | unclosed, .application phrase argument =>
    (phrase.function.name ++ "(") :: "(" :: (argument.pieces c (unclosed + 1) ++ [")"])

end Spoken

/-! ## Drafts -/

theorem IsNameWord.isArticle_eq_false {word : String} (h : IsNameWord word) : isArticle word = false := by
  have hsmall : ∀ article ∈ articles, IsSmall article := by decide +kernel
  refine List.any_eq_false.mpr fun article harticle => ?_
  have hne : article ≠ word := fun heq => h.not_article (heq ▸ harticle)
  rw [sameAscii_eq_false_of_ne (hsmall article harticle) h.isSmall hne]
  exact Bool.false_ne_true

theorem wordsText_words (c : Convention) (name : SpokenName) : wordsText c name.words = nameText (name.normal c) := by
  have hlowered : Text.lowerAscii (" ".intercalate name.words) = " ".intercalate name.words := by
    refine lowerAscii_eq_self fun char hchar => ?_
    rw [String.toList_intercalate] at hchar
    rcases mem_intercalate hchar with hblank | ⟨chars, hchars, hchar⟩
    · rw [List.mem_singleton.mp hblank]
      rfl
    · obtain ⟨word, hword, rfl⟩ := List.mem_map.mp hchars
      exact (name.isNameWord word hword).isSmall.isUpper_eq_false char hchar
  have hconstant : ∀ constant ∈ ["pi", "true", "false"], (" ".intercalate name.words == constant) = false := by
    intro constant hmem
    refine beq_eq_false_iff_ne.mpr fun heq => ?_
    match hwords : name.words, name.words_ne_nil, name.isNameWord with
    | [word], _, hname =>
        rw [hwords, show " ".intercalate [word] = word from rfl] at heq
        exact (hname word List.mem_cons_self).not_constant (heq ▸ hmem)
    | word :: next :: words, _, _ =>
        have hblank : ' ' ∈ (" ".intercalate name.words).toList := by
          rw [hwords, String.toList_intercalate, List.map_cons, List.map_cons, List.intercalate_cons_cons]
          exact List.mem_append_left _ (List.mem_append_right _ (List.mem_singleton_self ' '))
        have hnone : ∀ constant ∈ ["pi", "true", "false"], ' ' ∉ constant.toList := by decide
        exact hnone constant hmem (heq ▸ hblank)
  have hpi := hconstant "pi" (by decide)
  have htrue := hconstant "true" (by decide)
  have hfalse := hconstant "false" (by decide)
  simp only [wordsText, hlowered, hpi, htrue, hfalse, Bool.or_self, Bool.false_eq_true, ↓reduceIte]
  rfl

namespace Draft

variable {c : Convention} {d : Draft} {token : Token} {rest : List Token}

theorem read_nil : d.read c [] = .ok d := by rw [read]

theorem read_token (h : Plain (token :: rest)) : d.read c (token :: rest) = (d.token c token).read c rest := by
  rw [read, phraseAt?_plain h]

theorem read_phrase {entry : String × Phrase} (hentry : entry ∈ phrases) (h : Plain rest) :
    d.read c ((phraseWords entry.1).map .word ++ rest) = d.phrase c entry.2 >>= fun d => d.read c rest := by
  obtain ⟨word, words, hwords⟩ := List.exists_cons_of_ne_nil (phraseWords_ne_nil entry hentry)
  have hphrase := (phraseAt?_append h).trans (phraseAt?_words entry hentry)
  rw [hwords, List.map_cons, List.cons_append] at hphrase
  have hrest : (words.map Token.word ++ rest).drop ((word :: words).length - 1) = rest := by
    rw [List.length_cons, Nat.add_sub_cancel, ← List.length_map Token.word, List.drop_left]
  rw [hwords, List.map_cons, List.cons_append, read, hphrase]
  simp only [hrest]

theorem read_words {words : List String} (h : ∀ word ∈ words, IsNameWord word) :
    d.read c (words.map .word ++ rest) = Draft.read c { d with words := words.reverse ++ d.words } rest := by
  induction words generalizing d with
  | nil => rfl
  | cons word words ih =>
      obtain ⟨hword, hwords⟩ := List.forall_mem_cons.mp h
      rw [List.map_cons, List.cons_append, read_token (plain_word hword.isSmall hword.not_phrase _), token, ih hwords,
        List.reverse_cons, List.append_assoc]
      rfl

theorem endName_of_nil (h : d.words = []) : d.endName c = d := by
  rw [endName, h]
  cases d
  cases h
  rfl

theorem endName_of_words {name : SpokenName} (hd : d.words = []) :
    Draft.endName c { d with words := name.words.reverse ++ d.words } = d.push (nameText (name.normal c)) := by
  have hwords : (name.words.reverse ++ d.words).reverse.filter (fun word => !isArticle word) = name.words := by
    rw [hd, List.append_nil, List.reverse_reverse]
    exact List.filter_eq_self.mpr fun word hword => by rw [(name.isNameWord word hword).isArticle_eq_false]; rfl
  have hempty : name.words.isEmpty = false := by simpa using name.words_ne_nil
  obtain ⟨pieces, words, unclosed, conditionals⟩ := d
  cases hd
  simp only [endName, hwords, hempty, wordsText_words]
  rfl

theorem close_zero : d.close 0 = d := by
  obtain ⟨pieces, words, unclosed, conditionals⟩ := d
  cases pieces with
  | nil => rfl
  | cons last pieces =>
      have hlast : last ++ String.ofList (List.replicate 0 ')') = last := String.append_empty
      simp only [close, hlast]

theorem conditionals_endOperand : (d.endOperand c).conditionals = d.conditionals := by
  have hclose (d : Draft) (count : Nat) : (d.close count).conditionals = d.conditionals := by
    rw [close]
    split <;> rfl
  have hname : (d.endName c).conditionals = d.conditionals := by
    rw [endName]
    split <;> rfl
  exact (hclose _ _).trans hname

theorem endOperand_of_nil (hwords : d.words = []) (hunclosed : d.unclosed = 0) : d.endOperand c = d := by
  rw [endOperand, endName_of_nil hwords, hunclosed, close_zero, ← hunclosed]

end Draft

namespace Spoken

variable {c : Convention} {d : Draft} {rest : List Token}

/-- Tokens are read, and once the operand has ended they have added pieces to a draft and closed its functions. -/
def Adds (c : Convention) (d : Draft) (tokens : List Token) (pieces : List String) : Prop :=
  ∀ rest, ∃ d' : Draft, d.read c (tokens ++ rest) = d'.read c rest ∧
    d'.endOperand c = { d with pieces := pieces.reverse ++ d.pieces, unclosed := 0 }

theorem Adds.parenthesized (hd : d.words = []) {tokens : List Token} {pieces : List String}
    (h : Adds c (d.push "(") tokens pieces) :
    Adds c d (.symbol "(" :: (tokens ++ [.symbol ")"])) ("(" :: (pieces ++ [")"])) := by
  intro rest
  obtain ⟨d', hread, hend⟩ := h (.symbol ")" :: rest)
  refine ⟨(d'.endOperand c).push ")", ?_, ?_⟩
  · have hopen : d.token c (.symbol "(") = d.push "(" := congrArg (Draft.push · "(") (Draft.endName_of_nil hd)
    rw [List.cons_append, List.append_assoc, List.singleton_append, Draft.read_token (plain_symbol _ _), hopen, hread,
      Draft.read_token (plain_symbol _ _)]
    rfl
  · have hdone : ((d'.endOperand c).push ")").words = [] ∧ ((d'.endOperand c).push ")").unclosed = 0 := by
      rw [Draft.push, hend]
      exact ⟨hd, rfl⟩
    rw [Draft.endOperand_of_nil hdone.1 hdone.2, Draft.push, hend]
    simp [Draft.push]

theorem Adds.enclosed (s : Spoken) (hd : d.words = [])
    (h : ∀ d : Draft, d.words = [] → Adds c d s.said (s.pieces c d.unclosed)) :
    Adds c d (s.enclosedSaid s.said) (s.enclosedPieces (s.pieces c d.unclosed)) := by
  rw [enclosedSaid, enclosedPieces, Spoken.enclosed, Spoken.enclosed]
  split
  · exact h d hd
  · exact (h (d.push "(") hd).parenthesized hd

section Parts

variable {lhs rhs argument : Spoken}

theorem Adds.operation (phrase : OperatorPhrase) (hd : d.words = [])
    (hl : ∀ d : Draft, d.words = [] → Adds c d lhs.said (lhs.pieces c d.unclosed))
    (hr : ∀ d : Draft, d.words = [] → Adds c d rhs.said (rhs.pieces c d.unclosed)) :
    Adds c d (operation phrase lhs rhs).said ((operation phrase lhs rhs).pieces c d.unclosed) := by
  intro rest
  obtain ⟨d₁, hread₁, hend₁⟩ := Adds.enclosed lhs hd hl
    ((phraseWords phrase.text).map .word ++ (rhs.enclosedSaid rhs.said ++ rest))
  let d₂ := (d₁.endOperand c).push phrase.operator.symbol
  have hd₂ : d₂.words = [] := by
    simp only [d₂, hend₁]
    exact hd
  have hunclosed : d₂.unclosed = 0 := by simp only [d₂, hend₁, Draft.push]
  obtain ⟨d₃, hread₃, hend₃⟩ := Adds.enclosed rhs hd₂ hr rest
  refine ⟨d₃, ?_, ?_⟩
  · rw [said, List.append_assoc, List.append_assoc, hread₁, Draft.read_phrase phrase.listed (plain_enclosed rhs rest)]
    exact hread₃
  · rw [hend₃, hunclosed]
    simp [d₂, hend₁, Draft.push, pieces]

theorem Adds.application (phrase : FunctionPhrase) (hd : d.words = [])
    (h : ∀ d : Draft, d.words = [] → Adds c d argument.said (argument.pieces c d.unclosed)) :
    Adds c d (application phrase argument).said ((application phrase argument).pieces c d.unclosed) := by
  intro rest
  let d₁ : Draft := { d.push (phrase.function.name ++ "(") with unclosed := d.unclosed + 1 }
  have hd₁ : d₁.words = [] := hd
  have hphrase : d.phrase c (.function phrase.function.name) = .ok d₁ := by
    rw [Draft.phrase, Draft.endName_of_nil hd]
  obtain ⟨d₂, hread₂, hend₂⟩ := (h (d₁.push "(") hd₁).parenthesized hd₁ rest
  refine ⟨d₂, ?_, ?_⟩
  · rw [said, List.append_assoc]
    refine (Draft.read_phrase phrase.listed (plain_symbol "(" _)).trans ?_
    rw [hphrase]
    exact hread₂
  · rw [hend₂]
    simp [d₁, Draft.push, pieces]

end Parts

/-- The tokens of a formula add its pieces. -/
theorem adds_said (c : Convention) : (s : Spoken) → ∀ d : Draft, d.words = [] → Adds c d s.said (s.pieces c d.unclosed)
  | .number digits => fun d hd rest => by
      have htoken : d.token c (.number digits.text) = d.push digits.text :=
        congrArg (Draft.push · digits.text) (Draft.endName_of_nil hd)
      have hdone : (d.push digits.text).words = [] := hd
      refine ⟨d.push digits.text, ?_, ?_⟩
      · rw [said, List.singleton_append, Draft.read_token (plain_number _ _), htoken]
      · rw [Draft.endOperand, Draft.endName_of_nil hdone]
        rfl
  | .reference name => fun d hd rest => by
      refine ⟨{ d with words := name.words.reverse ++ d.words }, Draft.read_words name.isNameWord, ?_⟩
      rw [Draft.endOperand, Draft.endName_of_words hd]
      rfl
  | .operation phrase lhs rhs => fun _ hd => .operation phrase hd (adds_said c lhs) (adds_said c rhs)
  | .application phrase argument => fun _ hd => .application phrase hd (adds_said c argument)

theorem said_ne_nil (s : Spoken) : s.said ≠ [] := by
  cases s with
  | number digits => exact List.cons_ne_nil _ _
  | reference name => exact fun hnil => name.words_ne_nil (List.map_eq_nil_iff.mp hnil)
  | operation phrase lhs rhs =>
      exact fun hnil => phraseWords_ne_nil _ phrase.listed
        (List.map_eq_nil_iff.mp (List.append_eq_nil_iff.mp (List.append_eq_nil_iff.mp hnil).2).1)
  | application phrase argument =>
      exact fun hnil => List.cons_ne_nil _ _ (List.append_eq_nil_iff.mp hnil).2

/-- Every spoken formula is translated into its pieces. -/
theorem expressionText_text (c : Convention) (s : Spoken) :
    expressionText c s.text = .ok (joinPieces (s.pieces c 0)) := by
  obtain ⟨d, hread, hend⟩ := adds_said c s {} rfl []
  have hconditionals : d.conditionals = [] := by
    rw [← Draft.conditionals_endOperand (c := c), hend]
  have hempty : ¬s.said.isEmpty = true := by simpa using s.said_ne_nil
  rw [List.append_nil, Draft.read_nil] at hread
  have hfinish : d.finish c = .ok (joinPieces (s.pieces c 0)) := by
    rw [Draft.finish, hconditionals, hend]
    simp [Draft.close_zero]
  rw [expressionText, tokens_text]
  simp only [if_neg hempty, hread]
  exact hfinish

end Spoken

end Parametric.Sentence
