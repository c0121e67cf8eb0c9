import Parametric.Proofs.Formula.Reread

/-!
# Parsing

The tokens of an expression, and what each level of the parser does with the tokens before it.
-/

namespace Parametric.Formula

def BinaryOperator.lexeme : BinaryOperator → Lexeme
  | .add => .plus
  | .sub => .minus
  | .mul => .star
  | .div => .slash
  | .rem => .percent
  | .pow => .caret
  | .eq => .eq
  | .ne => .ne
  | .lt => .lt
  | .gt => .gt
  | .le => .le
  | .ge => .ge

@[simp] theorem operator?_lexeme (op : BinaryOperator) : op.lexeme.operator? = some op := by
  cases op <;> rfl

theorem operator?_eq_some {kind : Lexeme} {op : BinaryOperator} (h : kind.operator? = some op) :
    kind = op.lexeme := by
  cases kind <;> cases h <;> rfl

theorem BinaryOperator.lexeme_ne (op : BinaryOperator) : op.lexeme ≠ .eof ∧ op.lexeme ≠ .leftParen := by
  cases op <;> simp [lexeme]

/-- The token of a name. The blanks next to brackets do not belong to the name between them. -/
def nameLexeme (name : String) : Lexeme :=
  if isPlainName name then .ident name else .bracketed (Text.trim name)

namespace Expr

mutual
def lexemes (style : Style) : Term → List Lexeme
  | .number value => [.number value]
  | .text value => [.text value]
  | .boolean value => [.ident (if value then "true" else "false")]
  | .reference name => [nameLexeme name]
  | .negate operand => .minus :: operand.lexemes style
  | .binary op lhs rhs => lhs.lexemes style ++ op.lexeme :: rhs.lexemes style
  | .call function args =>
    .ident (style.function function) :: .leftParen :: (lexemesAll style args ++ [.rightParen])
  | .group inner => .leftParen :: (inner.lexemes style ++ [.rightParen])

def lexemesAll (style : Style) : List Term → List Lexeme
  | [] => []
  | [arg] => arg.lexemes style
  | arg :: rest => arg.lexemes style ++ .comma :: lexemesAll style rest
end

end Expr

/-! ## The next token -/

theorem exists_of_bind_eq_ok {ε α β : Type} {result : Except ε α} {f : α → Except ε β} {final : β}
    (h : result >>= f = .ok final) : ∃ value, result = .ok value ∧ f value = .ok final := by
  cases result with
  | error cause => cases h
  | ok value => exact ⟨value, rfl, h⟩

theorem exists_of_isOk {ε α : Type} {result : Except ε α} (h : result.isOk) : ∃ value, result = .ok value := by
  cases result with
  | error cause => cases h
  | ok value => exact ⟨value, rfl⟩

@[simp] theorem peek_cons (token : Token) (rest : List Token) : peek (token :: rest) = token := rfl

theorem eq_cons_of_kind {tokens : List Token} {kind : Lexeme} (h : (peek tokens).kind = kind)
    (hne : kind ≠ .eof) : ∃ token, tokens = token :: tokens.tail ∧ token.kind = kind := by
  cases tokens with
  | nil => exact absurd h.symm hne
  | cons token rest => exact ⟨token, rfl, h⟩

theorem closing_rightParen {token : Token} (hk : token.kind = .rightParen) (opened : Nat) (rest : List Token) :
    closing opened (token :: rest) = .ok rest := by
  simp only [closing, peek_cons, hk, List.tail_cons]

theorem eq_cons_of_closing {opened : Nat} {tokens rest : List Token} (h : closing opened tokens = .ok rest) :
    ∃ token, tokens = token :: rest ∧ token.kind = .rightParen := by
  unfold closing at h
  split at h
  case h_1 hkind =>
    cases h
    exact eq_cons_of_kind hkind (by simp)
  case h_2 | h_3 => cases h

/-- Whether the next token is no operator that binds at least as tightly as `least`. -/
def Ends (least : Nat) (tokens : List Token) : Prop :=
  ∀ op, (peek tokens).kind.operator? = some op → op.precedence < least

def EndsPhrase (tokens : List Token) : Prop :=
  (peek tokens).kind = .comma ∨ (peek tokens).kind = .rightParen ∨ (peek tokens).kind = .eof

theorem EndsPhrase.operator? {tokens : List Token} (h : EndsPhrase tokens) :
    (peek tokens).kind.operator? = none := by
  rcases h with h | h | h <;> rw [h] <;> rfl

theorem EndsPhrase.ne_leftParen {tokens : List Token} (h : EndsPhrase tokens) :
    (peek tokens).kind ≠ .leftParen := by
  rcases h with h | h | h <;> simp [h]

/-! ## Operators -/

theorem operators_of_ends {least : Nat} {tokens : List Token} (h : Ends least tokens) (depth : Nat) (e : Term) :
    operators depth least e tokens = .ok (e, tokens) := by
  unfold operators
  cases hop : (peek tokens).kind.operator? with
  | none => rfl
  | some op => simp only [if_pos (h op hop)]

theorem operators_operator {op : BinaryOperator} {least depth : Nat} {lhs : Term} {tokens : List Token}
    (hop : (peek tokens).kind.operator? = some op) (hle : least ≤ op.precedence) :
    operators (depth + 1) least lhs tokens = expression depth op.rightLevel tokens.tail >>= fun read =>
      operators depth least (.binary op lhs read.1) read.2 := by
  rw [operators]
  simp only [hop, if_neg (Nat.not_lt.mpr hle)]
  rw [← BinaryOperator.rightLevel]
  cases expression depth op.rightLevel tokens.tail <;> rfl

/-- What follows an operand: nothing that is drawn in, or an operator and its right operand. -/
theorem operators_cases {least depth : Nat} {lhs : Term} {tokens : List Token} {result : Term × List Token}
    (h : operators depth least lhs tokens = .ok result) :
    Ends least tokens ∧ result = (lhs, tokens) ∨
      ∃ op d rhs rest, (peek tokens).kind.operator? = some op ∧ least ≤ op.precedence ∧ depth = d + 1 ∧
        expression d op.rightLevel tokens.tail = .ok (rhs, rest) ∧
        operators d least (.binary op lhs rhs) rest = .ok result := by
  cases hop : (peek tokens).kind.operator? with
  | none =>
    have hends : Ends least tokens := fun op heq => by simp [hop] at heq
    rw [operators_of_ends hends] at h
    exact .inl ⟨hends, (Except.ok.inj h).symm⟩
  | some op =>
    by_cases hlt : op.precedence < least
    · have hends : Ends least tokens := fun other heq => Option.some.inj (hop.symm.trans heq) ▸ hlt
      rw [operators_of_ends hends] at h
      exact .inl ⟨hends, (Except.ok.inj h).symm⟩
    · cases depth with
      | zero =>
        rw [operators] at h
        simp only [hop, if_neg hlt] at h
        cases h
      | succ d =>
        rw [operators_operator hop (Nat.not_lt.mp hlt)] at h
        obtain ⟨⟨rhs, rest⟩, hread, hops⟩ := exists_of_bind_eq_ok h
        exact .inr ⟨op, d, rhs, rest, rfl, Nat.not_lt.mp hlt, rfl, hread, hops⟩

theorem expression_succ (depth least : Nat) (tokens : List Token) :
    expression (depth + 1) least tokens = operand (expression depth) tokens >>= fun read =>
      operators depth least read.1 read.2 := by
  rw [expression]
  cases operand (expression depth) tokens <;> rfl

theorem expression_ok {least depth : Nat} {tokens : List Token} {result : Term × List Token}
    (h : expression depth least tokens = .ok result) :
    ∃ d lhs rest, depth = d + 1 ∧ operand (expression d) tokens = .ok (lhs, rest) ∧
      operators d least lhs rest = .ok result := by
  cases depth with
  | zero => cases h
  | succ d =>
    rw [expression_succ] at h
    obtain ⟨⟨lhs, rest⟩, hread, hops⟩ := exists_of_bind_eq_ok h
    exact ⟨d, lhs, rest, rfl, hread, hops⟩

/-! ## Operands -/

section Operands

variable {item : Nat → TermReader} {token : Token} {rest : List Token} {result : Term × List Token}

theorem operand_number {value : Float} (hk : token.kind = .number value) :
    operand item (token :: rest) = .ok (.number value, rest) := by
  simp only [operand, peek_cons, hk, List.tail_cons]
  rfl

theorem operand_text {value : String} (hk : token.kind = .text value) :
    operand item (token :: rest) = .ok (.text value, rest) := by
  simp only [operand, peek_cons, hk, List.tail_cons]
  rfl

theorem operand_bracketed {name : String} (hk : token.kind = .bracketed name) :
    operand item (token :: rest) = .ok (.reference name, rest) := by
  simp only [operand, peek_cons, hk, List.tail_cons]
  rfl

theorem operand_ident {name : String} (hk : token.kind = .ident name) (hne : (peek rest).kind ≠ .leftParen) :
    operand item (token :: rest) = .ok (constantOrReference name, rest) := by
  simp only [operand, peek_cons, hk, List.tail_cons]
  rfl

theorem operand_minus (hk : token.kind = .minus) :
    operand item (token :: rest) = item negationPrecedence rest >>= fun read => .ok (.negate read.1, read.2) := by
  simp only [operand, peek_cons, hk, List.tail_cons]
  rfl

theorem operand_plus (hk : token.kind = .plus) :
    operand item (token :: rest) = item negationPrecedence rest := by
  simp only [operand, peek_cons, hk, List.tail_cons]

theorem operand_leftParen (hk : token.kind = .leftParen) :
    operand item (token :: rest) = item 0 rest >>= fun read =>
      closing token.position read.2 >>= fun after => .ok (.group read.1, after) := by
  simp only [operand, peek_cons, hk, List.tail_cons]
  rfl

theorem operand_call {name : String} (hk : token.kind = .ident name) (hparen : (peek rest).kind = .leftParen) :
    operand item (token :: rest) = functionCall (item 0) name token.position rest := by
  simp only [operand, peek_cons, hk, List.tail_cons, hparen]

end Operands

theorem functionCall_ok {item : TermReader} {name : String} {f : Function} {position : Nat} {token : Token}
    {tokens : List Token} {result : Term × List Token} (hname : Function.named? name = some f)
    (h : functionCall item name position (token :: tokens) = .ok result) :
    ∃ args, result.1 = .call f args ∧ f.accepts args.length ∧
      ((peek tokens).kind = .rightParen ∧ args = [] ∧ result.2 = tokens.tail ∨
        (peek tokens).kind ≠ .rightParen ∧
          arguments item token.position (tokens.length + 1) tokens = .ok (args, result.2)) := by
  simp only [functionCall, hname, peek_cons, List.tail_cons, List.length_cons] at h
  split at h
  case h_1 hempty =>
    obtain ⟨read, hargs, h⟩ := exists_of_bind_eq_ok h
    cases hargs
    split at h
    case isTrue haccepts =>
      cases h
      exact ⟨[], rfl, haccepts, .inl ⟨hempty, rfl, rfl⟩⟩
    case isFalse => cases h
  case h_2 hempty =>
    obtain ⟨read, hargs, h⟩ := exists_of_bind_eq_ok h
    split at h
    case isTrue haccepts =>
      cases h
      exact ⟨read.1, rfl, haccepts, .inr ⟨hempty, hargs⟩⟩
    case isFalse => cases h

/-- How an operand can have been read: the tokens that it starts with, and what was read inside it. -/
inductive OperandRead (item : Nat → TermReader) : List Token → Term → List Token → Prop where
  | number {token rest value} : token.kind = .number value → OperandRead item (token :: rest) (.number value) rest
  | text {token rest value} : token.kind = .text value → OperandRead item (token :: rest) (.text value) rest
  | bracketed {token rest name} : token.kind = .bracketed name → OperandRead item (token :: rest) (.reference name) rest
  | name {token rest name} : token.kind = .ident name →
      OperandRead item (token :: rest) (constantOrReference name) rest
  | call {token paren tokens rest name function args} : token.kind = .ident name → paren.kind = .leftParen →
      Function.named? name = some function → function.accepts args.length →
      ((peek tokens).kind = .rightParen ∧ args = [] ∧ rest = tokens.tail ∨ (peek tokens).kind ≠ .rightParen ∧
        arguments (item 0) paren.position (tokens.length + 1) tokens = .ok (args, rest)) →
      OperandRead item (token :: paren :: tokens) (.call function args) rest
  | minus {token tokens inner rest} : token.kind = .minus → item negationPrecedence tokens = .ok (inner, rest) →
      OperandRead item (token :: tokens) (.negate inner) rest
  | plus {token tokens inner rest} : token.kind = .plus → item negationPrecedence tokens = .ok (inner, rest) →
      OperandRead item (token :: tokens) inner rest
  | group {token close tokens inner rest} : token.kind = .leftParen → close.kind = .rightParen →
      item 0 tokens = .ok (inner, close :: rest) → OperandRead item (token :: tokens) (.group inner) rest

theorem operandRead_of_operand {item : Nat → TermReader} {tokens rest : List Token} {e : Term}
    (h : operand item tokens = .ok (e, rest)) : OperandRead item tokens e rest := by
  cases tokens with
  | nil => cases h
  | cons token tokens =>
    cases hk : token.kind
    case number value =>
      rw [operand_number hk] at h
      cases h
      exact .number hk
    case text value =>
      rw [operand_text hk] at h
      cases h
      exact .text hk
    case bracketed name =>
      rw [operand_bracketed hk] at h
      cases h
      exact .bracketed hk
    case ident name =>
      by_cases hparen : (peek tokens).kind = .leftParen
      · rw [operand_call hk hparen] at h
        obtain ⟨paren, htokens, hparen⟩ := eq_cons_of_kind hparen (by simp)
        rw [htokens] at h ⊢
        cases hname : Function.named? name with
        | none =>
          simp only [functionCall, hname] at h
          cases h
        | some function =>
          obtain ⟨args, rfl, haccepts, hargs⟩ := functionCall_ok hname h
          exact .call hk hparen hname haccepts hargs
      · rw [operand_ident hk hparen] at h
        cases h
        exact .name hk
    case minus =>
      rw [operand_minus hk] at h
      obtain ⟨⟨inner, after⟩, hread, heq⟩ := exists_of_bind_eq_ok h
      cases heq
      exact .minus hk hread
    case plus =>
      rw [operand_plus hk] at h
      exact .plus hk h
    case leftParen =>
      rw [operand_leftParen hk] at h
      obtain ⟨⟨inner, after⟩, hread, h⟩ := exists_of_bind_eq_ok h
      obtain ⟨last, hclose, heq⟩ := exists_of_bind_eq_ok h
      cases heq
      obtain ⟨close, rfl, hkclose⟩ := eq_cons_of_closing hclose
      exact .group hk hkclose hread
    all_goals
      simp only [operand, peek_cons, hk] at h
      cases h

theorem arguments_ok {item : TermReader} {opened bound : Nat} {tokens : List Token}
    {result : List Term × List Token} (h : arguments item opened bound tokens = .ok result) :
    ∃ arg after, item tokens = .ok (arg, after) ∧
      ((peek after).kind = .comma ∧ (∃ bound args, result.1 = arg :: args ∧
          arguments item opened bound after.tail = .ok (args, result.2)) ∨
        (peek after).kind ≠ .comma ∧ result.1 = [arg] ∧ closing opened after = .ok result.2) := by
  cases bound with
  | zero => cases h
  | succ bound =>
    obtain ⟨⟨arg, after⟩, hitem, h⟩ := exists_of_bind_eq_ok h
    refine ⟨arg, after, hitem, ?_⟩
    simp only at h
    split at h
    case h_1 hcomma =>
      obtain ⟨more, hargs, h⟩ := exists_of_bind_eq_ok h
      cases h
      exact .inl ⟨hcomma, bound, more.1, rfl, hargs⟩
    case h_2 hcomma =>
      obtain ⟨closed, hclose, h⟩ := exists_of_bind_eq_ok h
      cases h
      exact .inr ⟨hcomma, rfl, hclose⟩

theorem parseTokens_of_ne {tokens : List Token} (hne : (peek tokens).kind ≠ .eof) :
    parseTokens tokens = expression nestingLimit 0 tokens >>= fun read =>
      match (peek read.2).kind with
      | .eof => .ok read.1
      | .rightParen => errorAt .unexpectedClose read.2
      | other => errorAt (.unexpectedToken other) read.2 := by
  unfold parseTokens
  split
  · contradiction
  · rfl

theorem parseTokens_ok {tokens : List Token} {e : Term} (h : parseTokens tokens = .ok e) :
    ∃ rest, expression nestingLimit 0 tokens = .ok (e, rest) ∧ (peek rest).kind = .eof := by
  have hne : (peek tokens).kind ≠ .eof := fun heof => by
    simp only [parseTokens, heof, errorAt] at h
    cases h
  rw [parseTokens_of_ne hne] at h
  obtain ⟨⟨read, rest⟩, hread, h⟩ := exists_of_bind_eq_ok h
  simp only at h
  split at h
  case h_1 heof =>
    cases h
    exact ⟨rest, hread, heof⟩
  case h_2 | h_3 => cases h

theorem constantOrReference_plain {name : String} (h : isPlainName name) :
    constantOrReference name = .reference name := by
  unfold isPlainName at h
  split at h
  · cases h
  · simp only [Bool.and_eq_true, List.all_cons, List.all_nil, Bool.not_eq_true', Bool.and_true] at h
    obtain ⟨-, htrue, hfalse, hpi⟩ := h
    simp only [constantOrReference, htrue, hfalse, hpi]
    rfl

theorem named?_name (f : Function) : Function.named? f.name = some f := by
  cases f <;> decide +kernel

theorem named?_upperAscii (f : Function) : Function.named? (Text.upperAscii f.name) = some f := by
  cases f <;> decide +kernel

theorem named?_function (style : Style) (f : Function) : Function.named? (style.function f) = some f := by
  unfold Style.function
  split
  · exact named?_name f
  · exact named?_upperAscii f

end Parametric.Formula
