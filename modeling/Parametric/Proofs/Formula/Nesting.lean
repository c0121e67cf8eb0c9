import Parametric.Proofs.Formula.Lexing

/-!
# Levels of nesting

How many levels the parser takes for an expression. Tokens that are read as an operand or as a phrase take as many
levels as they need by themselves, whatever stands around them, and with fewer levels they are nested too deeply.
-/

namespace Parametric.Formula

/-- Whether a result is there if a depth is at least so many levels, and everything is nested too deeply if not. -/
def Needs {α : Type} (levels depth : Nat) (result : Except SyntaxError α) (value : α) : Prop :=
  if levels ≤ depth then result = .ok value else TooDeep result

section Needs

variable {α β : Type} {levels more depth : Nat} {result : Except SyntaxError α} {value : α}
  {f : α → Except SyntaxError β} {final : β}

theorem needs_zero (h : result = .ok value) : Needs 0 depth result value := by
  rwa [Needs, if_pos (Nat.zero_le _)]

theorem Needs.succ (h : Needs levels depth result value) : Needs (levels + 1) (depth + 1) result value := by
  unfold Needs at h ⊢
  simpa only [Nat.add_le_add_iff_right] using h

theorem needs_succ_zero (h : TooDeep result) : Needs (levels + 1) 0 result value := by
  rwa [Needs, if_neg (Nat.not_succ_le_zero _)]

theorem Needs.bind (h : Needs levels depth result value) (hf : Needs more depth (f value) final) :
    Needs (max levels more) depth (result >>= f) final := by
  unfold Needs at h
  split at h
  case isTrue hle =>
    rw [h]
    change Needs (max levels more) depth (f value) final
    unfold Needs at hf ⊢
    simpa only [Nat.max_le, hle, true_and] using hf
  case isFalse hlt =>
    obtain ⟨position, h⟩ := h
    have hmax : ¬max levels more ≤ depth := fun hmax => hlt (Nat.max_le.mp hmax).1
    rw [h, Needs, if_neg hmax]
    exact ⟨position, rfl⟩

theorem Needs.bind_ok (h : Needs levels depth result value) (hf : f value = .ok final) :
    Needs levels depth (result >>= f) final := by
  have hfinal : Needs 0 depth (f value) final := needs_zero hf
  have hbind := h.bind hfinal
  rwa [Nat.max_zero] at hbind

theorem Needs.tooDeep (h : Needs levels depth result value) (hlt : depth < levels) : TooDeep result := by
  rwa [Needs, if_neg (Nat.not_le.mpr hlt)] at h

theorem Needs.exists_ok_iff (h : Needs levels depth result value) :
    (∃ read, result = .ok read) ↔ levels ≤ depth := by
  refine ⟨fun ⟨read, hread⟩ => Nat.not_lt.mp fun hlt => ?_, fun hle => ⟨value, by rwa [Needs, if_pos hle] at h⟩⟩
  obtain ⟨position, herror⟩ := h.tooDeep hlt
  cases hread.symm.trans herror

end Needs

/-- Whether tokens are read as an operand that takes so many levels of the parts in it. -/
def OperandAt (levels : Nat) (kinds : List Lexeme) (e : Term) : Prop :=
  ∀ ⦃tokens rest : List Token⦄, tokens.map Token.kind = kinds → (peek rest).kind ≠ .leftParen →
    ∀ depth, Needs levels depth (operand (expression depth) (tokens ++ rest)) (e, rest)

/-- Whether tokens that no operator follows are read as an expression that takes so many levels. -/
def PhraseAt (levels : Nat) (kinds : List Lexeme) (e : Term) : Prop :=
  ∀ ⦃tokens rest : List Token⦄, tokens.map Token.kind = kinds → EndsPhrase rest →
    ∀ depth, Needs levels depth (expression depth 0 (tokens ++ rest)) (e, rest)

variable {levels more least depth : Nat} {kinds others : List Lexeme} {e lhs rhs : Term} {args : List Term}
  {tokens rest : List Token}

theorem needs_expression {result : Term × List Token} (h : ∀ depth, Needs levels depth
      (operand (expression depth) tokens >>= fun read => operators depth least read.1 read.2) result) :
    Needs (levels + 1) depth (expression depth least tokens) result := by
  cases depth with
  | zero => exact needs_succ_zero ⟨_, rfl⟩
  | succ depth =>
      rw [expression_succ]
      exact (h depth).succ

/-! ## Operands -/

theorem operandAt_number (value : Float) : OperandAt 0 [.number value] (.number value) := by
  intro tokens rest htokens _ depth
  obtain ⟨token, rfl, hk⟩ := List.map_eq_singleton_iff.mp htokens
  exact needs_zero (operand_number hk)

theorem operandAt_text (value : String) : OperandAt 0 [.text value] (.text value) := by
  intro tokens rest htokens _ depth
  obtain ⟨token, rfl, hk⟩ := List.map_eq_singleton_iff.mp htokens
  exact needs_zero (operand_text hk)

theorem operandAt_ident (name : String) : OperandAt 0 [.ident name] (constantOrReference name) := by
  intro tokens rest htokens hparen depth
  obtain ⟨token, rfl, hk⟩ := List.map_eq_singleton_iff.mp htokens
  exact needs_zero (operand_ident hk hparen)

theorem operandAt_bracketed (name : String) : OperandAt 0 [.bracketed name] (.reference name) := by
  intro tokens rest htokens _ depth
  obtain ⟨token, rfl, hk⟩ := List.map_eq_singleton_iff.mp htokens
  exact needs_zero (operand_bracketed hk)

theorem operandAt_reference (name : String) : OperandAt 0 [nameLexeme name] (.reference (Text.trim name)) := by
  unfold nameLexeme
  split
  case isTrue hplain =>
    rw [trim_of_isWord (isWord_of_isPlainName hplain), ← constantOrReference_plain hplain]
    exact operandAt_ident name
  case isFalse => exact operandAt_bracketed _

theorem operandAt_name {name : String} (htrim : Text.trim name = name) :
    OperandAt 0 [nameLexeme name] (.reference name) := by
  have hread := operandAt_reference name
  rwa [htrim] at hread

theorem PhraseAt.group (h : PhraseAt levels kinds e) :
    OperandAt levels (.leftParen :: (kinds ++ [.rightParen])) (.group e) := by
  intro tokens rest htokens _ depth
  obtain ⟨token, after, rfl, hk, hafter⟩ := List.map_eq_cons_iff.mp htokens
  obtain ⟨content, last, rfl, hcontent, hlast⟩ := List.map_eq_append_iff.mp hafter
  obtain ⟨close, rfl, hclose⟩ := List.map_eq_singleton_iff.mp hlast
  have hends : EndsPhrase (close :: rest) := .inr (.inl hclose)
  have hread := h hcontent hends depth
  rw [List.cons_append, List.append_assoc, List.singleton_append, operand_leftParen hk]
  refine hread.bind_ok ?_
  rw [closing_rightParen hclose]
  rfl

theorem PhraseAt.not_endsPhrase (h : PhraseAt levels kinds e) (htokens : tokens.map Token.kind = kinds)
    (hends : EndsPhrase rest) : ¬EndsPhrase (tokens ++ rest) := by
  intro hstart
  have hread := h htokens hends levels
  rw [Needs, if_pos (Nat.le_refl _)] at hread
  obtain ⟨depth, lhs, after, -, hoperand, -⟩ := expression_ok hread
  rcases hstart with hk | hk | hk
  all_goals
    simp only [operand, hk] at hoperand
    cases hoperand

/-! ## Calls -/

/-- Whether tokens before a closing parenthesis are read as arguments that take so many levels. -/
def ArgumentsAt (levels : Nat) (kinds : List Lexeme) (args : List Term) : Prop :=
  ∀ ⦃tokens rest : List Token⦄ ⦃close : Token⦄, tokens.map Token.kind = kinds → close.kind = .rightParen →
    ∀ depth opened bound, args.length ≤ bound →
      Needs levels depth (arguments (expression depth 0) opened bound (tokens ++ close :: rest)) (args, rest)

theorem PhraseAt.lastArgument (h : PhraseAt levels kinds e) : ArgumentsAt levels kinds [e] := by
  intro tokens rest close htokens hclose depth opened bound hbound
  obtain ⟨bound, rfl⟩ : ∃ b, bound = b + 1 := ⟨bound - 1, by simp only [List.length_singleton] at hbound; omega⟩
  have hends : EndsPhrase (close :: rest) := .inr (.inl hclose)
  refine (h htokens hends depth).bind_ok ?_
  simp only [peek_cons, hclose, closing_rightParen hclose]
  rfl

theorem PhraseAt.nextArgument (h : PhraseAt levels kinds e) (hmore : ArgumentsAt more others args) :
    ArgumentsAt (max levels more) (kinds ++ .comma :: others) (e :: args) := by
  intro tokens rest close htokens hclose depth opened bound hbound
  obtain ⟨bound, rfl⟩ : ∃ b, bound = b + 1 := ⟨bound - 1, by simp only [List.length_cons] at hbound; omega⟩
  obtain ⟨first, after, rfl, hfirst, hafter⟩ := List.map_eq_append_iff.mp htokens
  obtain ⟨comma, second, rfl, hcomma, hsecond⟩ := List.map_eq_cons_iff.mp hafter
  have hends : EndsPhrase (comma :: (second ++ close :: rest)) := .inl hcomma
  rw [List.append_assoc, List.cons_append]
  refine (h hfirst hends depth).bind ?_
  simp only [peek_cons, hcomma, List.tail_cons]
  exact (hmore hsecond hclose depth opened bound (Nat.le_of_succ_le_succ hbound)).bind_ok rfl

theorem ArgumentsAt.ne_rightParen (h : ArgumentsAt levels kinds args) (htokens : tokens.map Token.kind = kinds)
    {close : Token} (hclose : close.kind = .rightParen) : (peek (tokens ++ close :: rest)).kind ≠ .rightParen := by
  intro hk
  have hread : Needs levels levels (arguments (expression levels 0) 0 args.length (tokens ++ close :: rest))
      (args, rest) :=
    h htokens hclose levels 0 args.length (Nat.le_refl _)
  rw [Needs, if_pos (Nat.le_refl _)] at hread
  obtain ⟨arg, after, hitem, -⟩ := arguments_ok hread
  obtain ⟨depth, lhs, next, -, hoperand, -⟩ := expression_ok hitem
  simp only [operand, hk] at hoperand
  cases hoperand

theorem ArgumentsAt.call {name : String} {f : Function} (h : ArgumentsAt levels kinds args)
    (hname : Function.named? name = some f) (haccepts : f.accepts args.length)
    (hlength : args.length ≤ kinds.length + 2) :
    OperandAt levels (.ident name :: .leftParen :: (kinds ++ [.rightParen])) (.call f args) := by
  intro tokens rest htokens _ depth
  obtain ⟨token, after, rfl, hk, hafter⟩ := List.map_eq_cons_iff.mp htokens
  obtain ⟨paren, inner, rfl, hparen, hinner⟩ := List.map_eq_cons_iff.mp hafter
  obtain ⟨content, last, rfl, hcontent, hlast⟩ := List.map_eq_append_iff.mp hinner
  obtain ⟨close, rfl, hclose⟩ := List.map_eq_singleton_iff.mp hlast
  have hfirst : (peek (content ++ close :: rest)).kind ≠ .rightParen := h.ne_rightParen hcontent hclose
  have hbound : args.length ≤ (paren :: (content ++ close :: rest)).length := by
    rw [← hcontent, List.length_map] at hlength
    simp only [List.length_cons, List.length_append]
    omega
  rw [List.cons_append, List.cons_append, List.append_assoc, List.singleton_append,
    operand_call hk (by rw [peek_cons, hparen])]
  simp only [functionCall, hname, peek_cons, List.tail_cons]
  refine (h hcontent hclose depth paren.position _ hbound).bind_ok ?_
  simp only [haccepts]
  rfl

theorem operandAt_call_nil {name : String} {f : Function} (hname : Function.named? name = some f)
    (haccepts : f.accepts 0) : OperandAt 0 [.ident name, .leftParen, .rightParen] (.call f []) := by
  intro tokens rest htokens _ depth
  obtain ⟨token, after, rfl, hk, hafter⟩ := List.map_eq_cons_iff.mp htokens
  obtain ⟨paren, inner, rfl, hparen, hinner⟩ := List.map_eq_cons_iff.mp hafter
  obtain ⟨close, rfl, hclose⟩ := List.map_eq_singleton_iff.mp hinner
  rw [List.cons_append, List.cons_append, List.singleton_append, operand_call hk (by rw [peek_cons, hparen])]
  exact needs_zero (functionCall_nil hname haccepts hclose)

theorem PhraseAt.call {name : String} {f : Function} (h : PhraseAt levels kinds e)
    (hname : Function.named? name = some f) (haccepts : f.accepts 1) :
    OperandAt levels (.ident name :: .leftParen :: (kinds ++ [.rightParen])) (.call f [e]) :=
  h.lastArgument.call hname haccepts (by simp only [List.length_singleton]; omega)

/-! ## Phrases -/

theorem OperandAt.expression (h : OperandAt levels kinds e) (htokens : tokens.map Token.kind = kinds)
    (hparen : (peek rest).kind ≠ .leftParen) (hends : Ends least rest) :
    Needs (levels + 1) depth (expression depth least (tokens ++ rest)) (e, rest) :=
  needs_expression fun depth => (h htokens hparen depth).bind_ok (operators_of_ends hends depth e)

theorem OperandAt.phrase (h : OperandAt levels kinds e) : PhraseAt (levels + 1) kinds e :=
  fun _ _ htokens hends _ => h.expression htokens hends.ne_leftParen (hends.ends 0)

/-- An operator takes one level, which its right operand and all operators after it stand below. -/
theorem needs_operators {op : BinaryOperator} {token : Token} {final : Term × List Token}
    (hk : token.kind = op.lexeme) (hle : least ≤ op.precedence)
    (hr : ∀ depth, Needs more depth (expression depth op.rightLevel tokens) (rhs, rest))
    (hrest : ∀ depth, Needs levels depth (operators depth least (.binary op lhs rhs) rest) final) (depth : Nat) :
    Needs (max more levels + 1) depth (operators depth least lhs (token :: tokens)) final := by
  have hop : (peek (token :: tokens)).kind.operator? = some op := by rw [peek_cons, hk, operator?_lexeme]
  cases depth with
  | zero =>
      rw [operators]
      simp only [hop, if_neg (Nat.not_lt.mpr hle)]
      exact needs_succ_zero ⟨_, rfl⟩
  | succ depth =>
      rw [operators_operator hop hle, List.tail_cons]
      exact ((hr depth).bind (hrest depth)).succ

theorem OperandAt.binary (op : BinaryOperator) (hl : OperandAt levels kinds lhs) (hr : OperandAt more others rhs) :
    PhraseAt (max levels (more + 2) + 1) (kinds ++ op.lexeme :: others) (.binary op lhs rhs) := by
  intro tokens rest htokens hends depth
  obtain ⟨first, after, rfl, hfirst, hafter⟩ := List.map_eq_append_iff.mp htokens
  obtain ⟨token, second, rfl, hk, hsecond⟩ := List.map_eq_cons_iff.mp hafter
  rw [List.append_assoc, List.cons_append]
  refine needs_expression fun depth => (hl hfirst (by rw [peek_cons, hk]; exact op.lexeme_ne.2) depth).bind ?_
  have hright (depth : Nat) :
      Needs (more + 1) depth (Formula.expression depth op.rightLevel (second ++ rest)) (rhs, rest) :=
    hr.expression hsecond hends.ne_leftParen (hends.ends _)
  have hrest (depth : Nat) : Needs 0 depth (operators depth 0 (.binary op lhs rhs) rest) (.binary op lhs rhs, rest) :=
    needs_zero (operators_of_ends (hends.ends 0) depth _)
  have hneeds := needs_operators hk (Nat.zero_le _) hright hrest depth
  rwa [Nat.max_zero] at hneeds

/-! ## Texts -/

/-- A text that spells a phrase is read as its expression if it needs no more levels than there are. -/
theorem PhraseAt.parse {source : String} (h : PhraseAt levels kinds e) (hspells : Spells source.toList kinds) :
    Needs levels nestingLimit (Formula.parse source) e := by
  obtain ⟨tokens, eof, hscan, htokens, heof⟩ := hspells.tokenize
  have hends : EndsPhrase [eof] := .inr (.inr heof)
  have hne : (peek (tokens ++ [eof])).kind ≠ .eof := fun hk => h.not_endsPhrase htokens hends (.inr (.inr hk))
  have hparse : Formula.parse source = parseTokens (tokens ++ [eof]) := by
    rw [Formula.parse, hscan]
    rfl
  rw [hparse, parseTokens_of_ne hne]
  refine (h htokens hends nestingLimit).bind_ok ?_
  simp only [peek_cons, heof]

end Parametric.Formula
