import Mathlib
import Parametric.Proofs.Formula.Grammar
import Parametric.Proofs.Name
import Parametric.Proofs.Number.Text

/-!
# Tokens of written text

Texts that are split into certain tokens wherever they end, and how they are put together.
-/

namespace Parametric.Formula

/-! ## Characters -/

/-- Whether a character is an ASCII letter, an ASCII digit or an underscore. -/
def isPlainChar (c : Char) : Bool := c.isAlphanum || c == '_'

theorem isAlpha_bounds {c : Char} (h : c.isAlpha) : 65 ≤ c.toNat ∧ c.toNat ≤ 122 := by
  simp only [Char.isAlpha, Char.isUpper, Char.isLower, Bool.or_eq_true, Bool.and_eq_true, decide_eq_true_eq,
    UInt32.le_iff_toNat_le, ge_iff_le] at h
  change 65 ≤ c.toNat ∧ c.toNat ≤ 90 ∨ 97 ≤ c.toNat ∧ c.toNat ≤ 122 at h
  omega

theorem isBlank_of_isPlainChar {c : Char} (h : isPlainChar c) : Text.isBlank c = false := by
  simp only [isPlainChar, Bool.or_eq_true, beq_iff_eq] at h
  rcases h with h | rfl
  · exact Text.isBlank_of_isAlphanum h
  · decide

theorem isNameStart_of_isAlpha {c : Char} (h : c.isAlpha) : isNameStart c := by
  have := isAlpha_bounds h
  rw [isNameStart, Text.isAlphabetic, if_pos (by omega), h]
  rfl

theorem isNameChar_of_isPlainChar {c : Char} (h : isPlainChar c) : isNameChar c := by
  simp only [isPlainChar, Char.isAlphanum, Bool.or_eq_true, beq_iff_eq] at h
  simp only [isNameChar, Bool.or_eq_true, beq_iff_eq]
  rcases h with (h | h) | h
  · have := isAlpha_bounds h
    left
    left
    rw [Text.isAlphabetic, if_pos (by omega), h]
  · have := Number.isDigit_bounds h
    left
    right
    rw [Text.isNumeric, Text.isDecimalDigit, if_pos (by omega), h]
    rfl
  · exact .inr h

/-! ## Scanning -/

/-- Whether a name or a number ends before some text. -/
def Delimits (rest : List Char) : Prop := ∀ c ∈ rest.head?, isNameChar c = false ∧ isNumberChar c = false

theorem delimits_nil : Delimits [] := fun c hc => by cases hc

theorem delimits_cons {c : Char} {rest : List Char} (h : isNameChar c = false ∧ isNumberChar c = false) :
    Delimits (c :: rest) := fun d hd => by
  cases hd
  exact h

/-- Whether a text can be split into tokens. -/
def Scannable (text : List Char) : Prop := ∀ position, (scanFrom position text).isOk

/-- Whether a text is split into certain tokens wherever it ends; it does not start with what would
continue an operator. -/
structure Spells (text : List Char) (kinds : List Lexeme) : Prop where
  opens : ∃ c rest, text = c :: rest ∧ c ≠ '=' ∧ c ≠ '>'
  scans : ∀ rest, Delimits rest → ∀ position tokens, scanFrom position (text ++ rest) = .ok tokens →
    ∃ first last position', tokens = first ++ last ∧ first.map Token.kind = kinds ∧
      scanFrom position' rest = .ok last
  scannable : ∀ rest, Delimits rest → Scannable rest → Scannable (text ++ rest)

variable {text more : List Char} {kinds kinds' : List Lexeme} {c : Char} {kind : Lexeme}

theorem scanFrom_blank {position : Nat} (hc : Text.isBlank c) (rest : List Char) :
    scanFrom position (c :: rest) = scanFrom (position + 1) rest := by
  rw [scanFrom, if_pos hc]

theorem scanFrom_token {position extra : Nat} {rest : List Char} {tokens : List Token}
    (hc : Text.isBlank c = false) (hlex : lexeme c rest = .ok (kind, extra))
    (h : scanFrom position (c :: rest) = .ok tokens) :
    ∃ last, tokens = ⟨kind, position⟩ :: last ∧ scanFrom (position + 1 + extra) (rest.drop extra) = .ok last := by
  rw [scanFrom, hc, hlex] at h
  simp only [Bool.false_eq_true, if_false] at h
  cases hrest : scanFrom (position + 1 + extra) (rest.drop extra) with
  | error e =>
    rw [hrest] at h
    cases h
  | ok last =>
    rw [hrest] at h
    cases h
    exact ⟨last, rfl, rfl⟩

theorem scannable_token {extra : Nat} {rest : List Char} (hc : Text.isBlank c = false)
    (hlex : lexeme c rest = .ok (kind, extra)) (h : Scannable (rest.drop extra)) : Scannable (c :: rest) := by
  intro position
  have hrest := h (position + 1 + extra)
  rw [scanFrom, hc, hlex]
  simp only [Bool.false_eq_true, if_false]
  cases hscan : scanFrom (position + 1 + extra) (rest.drop extra) with
  | error e =>
    rw [hscan] at hrest
    cases hrest
  | ok last => rfl

theorem scannable_blank (hc : Text.isBlank c) {rest : List Char} (h : Scannable rest) : Scannable (c :: rest) := by
  intro position
  rw [scanFrom_blank hc]
  exact h (position + 1)

theorem spells_token {body : List Char} (hopens : c ≠ '=' ∧ c ≠ '>') (hc : Text.isBlank c = false)
    (hlex : ∀ rest, Delimits rest → lexeme c (body ++ rest) = .ok (kind, body.length)) :
    Spells (c :: body) [kind] where
  opens := ⟨c, body, rfl, hopens⟩
  scans := fun rest hrest position tokens h => by
    obtain ⟨last, rfl, hlast⟩ := scanFrom_token hc (hlex rest hrest) h
    rw [List.drop_left] at hlast
    exact ⟨[⟨kind, position⟩], last, _, rfl, rfl, hlast⟩
  scannable := fun rest hrest h => by
    rw [List.cons_append]
    refine scannable_token hc (hlex rest hrest) ?_
    rwa [List.drop_left]

theorem Spells.append (h : Spells text kinds) (hmore : Spells more kinds')
    (hdelimits : ∀ rest, Delimits (more ++ rest)) : Spells (text ++ more) (kinds ++ kinds') where
  opens := by
    obtain ⟨c, rest, rfl, hc⟩ := h.opens
    exact ⟨c, rest ++ more, rfl, hc⟩
  scans := fun rest hrest position tokens hscan => by
    rw [List.append_assoc] at hscan
    obtain ⟨first, last, position', rfl, hfirst, hlast⟩ := h.scans _ (hdelimits rest) _ _ hscan
    obtain ⟨second, last, position'', rfl, hsecond, hlast⟩ := hmore.scans _ hrest _ _ hlast
    exact ⟨first ++ second, last, position'', by rw [List.append_assoc],
      by rw [List.map_append, hfirst, hsecond], hlast⟩
  scannable := fun rest hrest hscan => by
    rw [List.append_assoc]
    exact h.scannable _ (hdelimits rest) (hmore.scannable rest hrest hscan)

theorem Spells.cons (h : Spells text kinds) (hopens : c ≠ '=' ∧ c ≠ '>') (hc : Text.isBlank c = false)
    (hlex : ∀ rest, lexeme c rest = .ok (kind, 0)) : Spells (c :: text) (kind :: kinds) where
  opens := ⟨c, text, rfl, hopens⟩
  scans := fun rest hrest position tokens hscan => by
    obtain ⟨last, rfl, hlast⟩ := scanFrom_token hc (hlex _) hscan
    obtain ⟨first, last, position', rfl, hfirst, hlast⟩ := h.scans _ hrest _ _ hlast
    exact ⟨⟨kind, position⟩ :: first, last, position', rfl, by rw [List.map_cons, hfirst], hlast⟩
  scannable := fun rest hrest hscan => scannable_token hc (hlex _) (h.scannable rest hrest hscan)

theorem Spells.blank (h : Spells text kinds) : Spells (' ' :: text) kinds where
  opens := ⟨' ', text, rfl, by decide⟩
  scans := fun rest hrest position tokens hscan => by
    rw [List.cons_append, scanFrom_blank (by decide)] at hscan
    exact h.scans _ hrest _ _ hscan
  scannable := fun rest hrest hscan => scannable_blank (by decide) (h.scannable rest hrest hscan)

/-! ## Parentheses, separators and operators -/

/-- Whether a character belongs to no name, number, text or bracketed name. -/
def isSymbolChar (c : Char) : Bool :=
  !isNumberChar c && c != '"' && c != '[' && !isNameChar c && !isNameStart c && !Text.isBlank c

theorem lexeme_of_isSymbolChar (h : isSymbolChar c) (rest : List Char) :
    lexeme c rest = punctuation c rest.head? := by
  simp only [isSymbolChar, Bool.and_eq_true, Bool.not_eq_true', bne_iff_ne, ne_eq] at h
  obtain ⟨⟨⟨⟨⟨hnumber, hquote⟩, hbracket⟩, -⟩, hname⟩, -⟩ := h
  unfold lexeme
  rw [if_neg (by simp [hnumber]), if_neg (by simp [hquote]), if_neg (by simp [hbracket]), if_neg (by simp [hname])]

theorem lexeme_minus (rest : List Char) : lexeme '-' rest = .ok (.minus, 0) :=
  lexeme_of_isSymbolChar (by decide +kernel) rest

theorem lexeme_leftParen (rest : List Char) : lexeme '(' rest = .ok (.leftParen, 0) :=
  lexeme_of_isSymbolChar (by decide +kernel) rest

theorem lexeme_rightParen (rest : List Char) : lexeme ')' rest = .ok (.rightParen, 0) :=
  lexeme_of_isSymbolChar (by decide +kernel) rest

theorem lexeme_comma (rest : List Char) : lexeme ',' rest = .ok (.comma, 0) :=
  lexeme_of_isSymbolChar (by decide +kernel) rest

theorem spells_rightParen : Spells [')'] [.rightParen] :=
  spells_token (by decide) (by decide) fun rest _ => lexeme_rightParen rest

theorem Spells.parenthesized (h : Spells text kinds) :
    Spells ('(' :: (text ++ [')'])) (.leftParen :: (kinds ++ [.rightParen])) :=
  have hinner := h.append spells_rightParen fun _ => delimits_cons (by decide +kernel)
  hinner.cons (by decide) (by decide) lexeme_leftParen

theorem lexeme_operator (op : BinaryOperator) {d : Char} (hd : d ≠ '=' ∧ d ≠ '>') (rest : List Char) :
    ∃ first body, op.symbol.toList = first :: body ∧ isSymbolChar first ∧
      lexeme first (body ++ d :: rest) = .ok (op.lexeme, body.length) := by
  cases op
  case add => exact ⟨'+', [], rfl, by decide +kernel, lexeme_of_isSymbolChar (by decide +kernel) _⟩
  case sub => exact ⟨'-', [], rfl, by decide +kernel, lexeme_of_isSymbolChar (by decide +kernel) _⟩
  case mul => exact ⟨'*', [], rfl, by decide +kernel, lexeme_of_isSymbolChar (by decide +kernel) _⟩
  case div => exact ⟨'/', [], rfl, by decide +kernel, lexeme_of_isSymbolChar (by decide +kernel) _⟩
  case rem => exact ⟨'%', [], rfl, by decide +kernel, lexeme_of_isSymbolChar (by decide +kernel) _⟩
  case pow => exact ⟨'^', [], rfl, by decide +kernel, lexeme_of_isSymbolChar (by decide +kernel) _⟩
  case ne => exact ⟨'<', ['>'], rfl, by decide +kernel, lexeme_of_isSymbolChar (by decide +kernel) _⟩
  case le => exact ⟨'<', ['='], rfl, by decide +kernel, lexeme_of_isSymbolChar (by decide +kernel) _⟩
  case ge => exact ⟨'>', ['='], rfl, by decide +kernel, lexeme_of_isSymbolChar (by decide +kernel) _⟩
  case eq =>
    refine ⟨'=', [], rfl, by decide +kernel, ?_⟩
    rw [lexeme_of_isSymbolChar (by decide +kernel)]
    simp [punctuation, hd.1, BinaryOperator.lexeme]
  case lt =>
    refine ⟨'<', [], rfl, by decide +kernel, ?_⟩
    rw [lexeme_of_isSymbolChar (by decide +kernel)]
    simp [punctuation, hd.1, hd.2, BinaryOperator.lexeme]
  case gt =>
    refine ⟨'>', [], rfl, by decide +kernel, ?_⟩
    rw [lexeme_of_isSymbolChar (by decide +kernel)]
    simp [punctuation, hd.1, BinaryOperator.lexeme]

theorem isBlank_of_isSymbolChar (h : isSymbolChar c) : Text.isBlank c = false := by
  simp only [isSymbolChar, Bool.and_eq_true, Bool.not_eq_true'] at h
  exact h.2

theorem delimits_of_isSymbolChar (h : isSymbolChar c) (rest : List Char) : Delimits (c :: rest) := by
  simp only [isSymbolChar, Bool.and_eq_true, Bool.not_eq_true'] at h
  exact delimits_cons ⟨h.1.1.2, h.1.1.1.1.1⟩

theorem scanFrom_operator (op : BinaryOperator) (h : Spells text kinds) {rest : List Char}
    (hrest : Delimits rest) {position : Nat} {tokens : List Token}
    (hscan : scanFrom position (op.symbol.toList ++ (text ++ rest)) = .ok tokens) :
    ∃ first last position', tokens = first ++ last ∧ first.map Token.kind = op.lexeme :: kinds ∧
      scanFrom position' rest = .ok last := by
  obtain ⟨d, body, rfl, hd⟩ := h.opens
  obtain ⟨c, symbol, hsymbol, hc, hlex⟩ := lexeme_operator op hd (body ++ rest)
  rw [hsymbol] at hscan
  obtain ⟨last, rfl, hlast⟩ := scanFrom_token (isBlank_of_isSymbolChar hc) hlex hscan
  rw [List.drop_left] at hlast
  obtain ⟨first, last, position', rfl, hfirst, hlast⟩ := h.scans _ hrest _ _ hlast
  exact ⟨⟨op.lexeme, position⟩ :: first, last, position', rfl, by rw [List.map_cons, hfirst], hlast⟩

theorem scannable_operator (op : BinaryOperator) (h : Spells text kinds) {rest : List Char} (hrest : Delimits rest)
    (hscan : Scannable rest) : Scannable (op.symbol.toList ++ (text ++ rest)) := by
  obtain ⟨d, body, rfl, hd⟩ := h.opens
  obtain ⟨c, symbol, hsymbol, hc, hlex⟩ := lexeme_operator op hd (body ++ rest)
  rw [hsymbol, List.cons_append]
  refine scannable_token (isBlank_of_isSymbolChar hc) hlex ?_
  rw [List.cons_append, List.drop_left]
  exact h.scannable rest hrest hscan

theorem delimits_symbol (op : BinaryOperator) (rest : List Char) : Delimits (op.symbol.toList ++ rest) := by
  obtain ⟨c, symbol, hsymbol, hc, -⟩ := lexeme_operator op (d := 'a') (by decide) []
  rw [hsymbol]
  exact delimits_of_isSymbolChar hc _

theorem toList_operator_spaced (letterCase : LetterCase) (op : BinaryOperator) :
    (Style.operator ⟨letterCase, true⟩ op).toList = ' ' :: (op.symbol.toList ++ [' ']) := by
  simp [Style.operator]

theorem Spells.binary (style : Style) (op : BinaryOperator) (h : Spells text kinds) (hmore : Spells more kinds') :
    Spells (text ++ ((style.operator op).toList ++ more)) (kinds ++ op.lexeme :: kinds') where
  opens := by
    obtain ⟨c, rest, rfl, hc⟩ := h.opens
    exact ⟨c, rest ++ ((style.operator op).toList ++ more), rfl, hc⟩
  scans := fun rest hrest position tokens hscan => by
    obtain ⟨letterCase, spaced⟩ := style
    rw [List.append_assoc, List.append_assoc] at hscan
    cases spaced with
    | true =>
      -- the operator reads the blank after it, not the first character of the right operand
      rw [toList_operator_spaced, List.cons_append, List.append_assoc, List.singleton_append] at hscan
      obtain ⟨first, last, position', rfl, hfirst, hlast⟩ :=
        h.scans _ (delimits_cons (by decide +kernel)) _ _ hscan
      rw [scanFrom_blank (by decide)] at hlast
      obtain ⟨second, last, position'', rfl, hsecond, hlast⟩ := scanFrom_operator op hmore.blank hrest hlast
      exact ⟨first ++ second, last, position'', by rw [List.append_assoc],
        by rw [List.map_append, hfirst, hsecond], hlast⟩
    | false =>
      have htext : (Style.operator ⟨letterCase, false⟩ op).toList = op.symbol.toList := rfl
      rw [htext] at hscan
      obtain ⟨first, last, position', rfl, hfirst, hlast⟩ := h.scans _ (delimits_symbol op _) _ _ hscan
      obtain ⟨second, last, position'', rfl, hsecond, hlast⟩ := scanFrom_operator op hmore hrest hlast
      exact ⟨first ++ second, last, position'', by rw [List.append_assoc],
        by rw [List.map_append, hfirst, hsecond], hlast⟩
  scannable := fun rest hrest hscan => by
    obtain ⟨letterCase, spaced⟩ := style
    rw [List.append_assoc, List.append_assoc]
    cases spaced with
    | true =>
      rw [toList_operator_spaced, List.cons_append, List.append_assoc, List.singleton_append]
      exact h.scannable _ (delimits_cons (by decide +kernel))
        (scannable_blank (by decide) (scannable_operator op hmore.blank hrest hscan))
    | false => exact h.scannable _ (delimits_symbol op _) (scannable_operator op hmore hrest hscan)

/-- A text that spells tokens is split into them and the end. -/
theorem Spells.tokenize {source : String} (h : Spells source.toList kinds) :
    ∃ tokens eof, Formula.tokenize source = .ok (tokens ++ [eof]) ∧ tokens.map Token.kind = kinds ∧ eof.kind = .eof := by
  have hnil : Scannable [] := fun position => by rw [scanFrom]; rfl
  have hok := h.scannable [] delimits_nil hnil 0
  rw [List.append_nil] at hok
  obtain ⟨tokens, hscan⟩ := exists_of_isOk hok
  rw [← List.append_nil source.toList] at hscan
  obtain ⟨first, last, position, rfl, hfirst, hlast⟩ := h.scans [] delimits_nil 0 _ hscan
  rw [scanFrom] at hlast
  cases hlast
  rw [List.append_nil] at hscan
  exact ⟨first, ⟨.eof, position⟩, hscan, hfirst, rfl⟩

/-! ## Names, texts and numbers -/

theorem takeWhile_isNameChar {body rest : List Char} (hbody : body.all isPlainChar) (hrest : Delimits rest) :
    (body ++ rest).takeWhile isNameChar = body := by
  have hname : ∀ a ∈ body, isNameChar a := fun a ha => isNameChar_of_isPlainChar (List.all_eq_true.mp hbody a ha)
  refine (Number.takeWhile_of_all hname rest ?_).1
  cases rest with
  | nil => rfl
  | cons c rest => simp [(hrest c rfl).1]

theorem spells_ident {body : List Char} (hc : c.isAlpha ∨ c = '_') (hbody : body.all isPlainChar) :
    Spells (c :: body) [.ident (.ofList (c :: body))] := by
  have hfacts : c ≠ '=' ∧ c ≠ '>' ∧ Text.isBlank c = false ∧ isNumberChar c = false ∧ c ≠ '"' ∧ c ≠ '[' ∧
      isNameStart c := by
    rcases hc with hc | rfl
    · have hbounds := isAlpha_bounds hc
      have hne : ∀ d : Char, d.isAlpha = false → c ≠ d := fun d hd heq => by
        rw [← heq, hc] at hd
        cases hd
      refine ⟨hne _ (by decide), hne _ (by decide), Text.isBlank_eq_false (by omega) (by omega), ?_, hne _ (by decide),
        hne _ (by decide), isNameStart_of_isAlpha hc⟩
      simp only [isNumberChar, Bool.or_eq_false_iff, beq_eq_false_iff_ne]
      refine ⟨?_, hne _ (by decide)⟩
      by_contra hdigit
      have := Number.isDigit_bounds (by simpa using hdigit)
      omega
    · decide
  obtain ⟨heq, hgt, hblank, hnumber, hquote, hbracket, hstart⟩ := hfacts
  refine spells_token ⟨heq, hgt⟩ hblank fun rest hrest => ?_
  unfold lexeme
  rw [if_neg (by simp [hnumber]), if_neg (by simp [hquote]), if_neg (by simp [hbracket]), if_pos hstart,
    takeWhile_isNameChar hbody hrest]

/-- Whether a text is a word of ASCII letters, digits and underscores. -/
def isWord (name : String) : Bool :=
  match name.toList with
  | [] => false
  | c :: rest => (c.isAlpha || c == '_') && rest.all isPlainChar

theorem spells_word {name : String} (h : isWord name) : Spells name.toList [.ident name] := by
  unfold isWord at h
  split at h
  · cases h
  · rename_i c rest hname
    simp only [Bool.and_eq_true, Bool.or_eq_true, beq_iff_eq] at h
    have hspells := spells_ident h.1 h.2
    rw [← hname, String.ofList_toList] at hspells
    exact hspells

theorem isWord_of_isPlainName {name : String} (h : isPlainName name) : isWord name := by
  unfold isPlainName at h
  unfold isWord
  cases hname : name.toList with
  | nil =>
    rw [hname] at h
    cases h
  | cons c rest =>
    rw [hname] at h
    exact (Bool.and_eq_true_iff.mp h).1

theorem isPlainChar_of_isWord {name : String} (h : isWord name) : ∀ c ∈ name.toList, isPlainChar c := by
  unfold isWord at h
  split at h
  case h_1 => cases h
  case h_2 c rest hname =>
    rw [Bool.and_eq_true, List.all_eq_true] at h
    rw [hname]
    refine List.forall_mem_cons.mpr ⟨?_, h.2⟩
    simp only [isPlainChar, Char.isAlphanum, Bool.or_eq_true, beq_iff_eq] at h ⊢
    exact h.1.imp_left .inl

theorem trim_of_isWord {name : String} (h : isWord name) : Text.trim name = name :=
  Text.trim_eq_self fun c hc => isBlank_of_isPlainChar (isPlainChar_of_isWord h c hc)

/-- Whether what is left of a name between brackets, without the blanks around it, is the same between
brackets. -/
def FitsTrimmed (name : String) : Prop := FitsBrackets (Text.trim name)

theorem FitsBrackets.fitsTrimmed {name : String} (h : FitsBrackets name) : FitsTrimmed name := by
  rwa [FitsTrimmed, h.trim_eq]

theorem fitsTrimmed_of_isWord {name : String} (h : isWord name) : FitsTrimmed name where
  trim_eq := Text.trim_trim name
  ne_empty := by
    rw [trim_of_isWord h]
    rintro rfl
    exact absurd h (by decide)
  close_notMem := fun hmem => by
    rw [trim_of_isWord h] at hmem
    exact absurd (isPlainChar_of_isWord h _ hmem) (by decide)

theorem takeWhile_bne {content : List Char} {close : Char} (h : close ∉ content) (rest : List Char) :
    (content ++ close :: rest).takeWhile (· != close) = content :=
  (Number.takeWhile_of_all (fun a ha => by simpa using fun heq : a = close => h (heq ▸ ha)) _ (by simp)).1

theorem spells_text {value : String} (h : FitsQuotes value) :
    Spells ('"' :: (value.toList ++ ['"'])) [.text value] := by
  refine spells_token (by decide) (by decide) fun rest _ => ?_
  rw [List.append_assoc, List.singleton_append, lexeme, if_neg (by decide), if_pos (by decide)]
  simp only [takeWhile_bne h]
  rw [if_neg (by simp)]
  simp

theorem spells_bracketed {name : String} (h : FitsTrimmed name) :
    Spells ('[' :: (name.toList ++ [']'])) [.bracketed (Text.trim name)] := by
  have hclose : ']' ∉ name.toList := fun hmem => h.close_notMem (Text.mem_trim hmem (by decide))
  refine spells_token (by decide) (by decide) fun rest _ => ?_
  rw [List.append_assoc, List.singleton_append, lexeme, if_neg (by decide), if_neg (by decide), if_pos (by decide)]
  simp only [takeWhile_bne hclose, String.ofList_toList]
  rw [if_neg (by simp), if_neg (by simpa using h.ne_empty)]
  simp

theorem spells_name {name : String} (h : FitsTrimmed name) :
    Spells (nameText name).toList [nameLexeme name] := by
  unfold nameText nameLexeme
  split
  case isTrue hplain => exact spells_word (isWord_of_isPlainName hplain)
  case isFalse =>
    have htext : ("[" ++ name ++ "]").toList = '[' :: (name.toList ++ [']']) := by simp
    rw [htext]
    exact spells_bracketed h

theorem exponentLength_of_delimits {rest : List Char} (h : Delimits rest) : exponentLength rest = 0 := by
  cases rest with
  | nil => rfl
  | cons c rest =>
    have hname := (h c rfl).1
    have he : c ≠ 'e' := by
      rintro rfl
      exact absurd hname (by decide)
    have hE : c ≠ 'E' := by
      rintro rfl
      exact absurd hname (by decide)
    simp [exponentLength, he, hE]

theorem spells_number {digits : List Char} {value : Float} (hne : digits ≠ [])
    (hdigits : ∀ a ∈ digits, a.isDigit ∨ a = '.') (hread : Number.read? digits = some value) :
    Spells digits [.number value] := by
  cases digits with
  | nil => exact absurd rfl hne
  | cons c body =>
    have hnumber : ∀ a ∈ c :: body, isNumberChar a := fun a ha => by
      simpa [isNumberChar] using hdigits a ha
    have hfacts : c ≠ '=' ∧ c ≠ '>' ∧ Text.isBlank c = false := by
      rcases hdigits c (by simp) with hc | rfl
      · have hbounds := Number.isDigit_bounds hc
        refine ⟨?_, ?_, Text.isBlank_eq_false (by omega) (by omega)⟩ <;> rintro rfl <;> exact absurd hc (by decide)
      · decide
    obtain ⟨heq, hgt, hblank⟩ := hfacts
    refine spells_token ⟨heq, hgt⟩ hblank fun rest hrest => ?_
    have hbody : (body ++ rest).takeWhile isNumberChar = body := by
      refine (Number.takeWhile_of_all (fun a ha => hnumber a (List.mem_cons_of_mem _ ha)) rest ?_).1
      cases rest with
      | nil => rfl
      | cons d rest => simp [(hrest d rfl).2]
    rw [lexeme, if_pos (hnumber c (by simp))]
    simp only [hbody, List.drop_left, exponentLength_of_delimits hrest, Nat.add_zero, List.take_left, hread]

end Parametric.Formula
