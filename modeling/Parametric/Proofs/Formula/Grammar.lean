import Parametric.Proofs.Formula.Reading

/-!
# The grammar of formulas

Formula text is layered: comparisons of sums of products of signed powers of atoms. The parser reads a
text as an expression exactly if the grammar derives the expression, unless the text is nested too deeply.
-/

namespace Parametric.Formula

/-! ## Phrases -/

inductive Category where
  | comparison | sum | product | signed | power | atom
deriving DecidableEq, Repr

def Category.level : Category → Nat
  | .comparison => 1
  | .sum => 2
  | .product => 3
  | .signed => 4
  | .power => 5
  | .atom => 6

/-- The loosest phrases that are read from a least precedence upwards. -/
def Category.startingAt : Nat → Category
  | 0 | 1 => .comparison
  | 2 => .sum
  | 3 => .product
  | _ => .signed

/-- A layer of the grammar: a category of chains, the category of their links, and the operators that
can stand between two links. -/
inductive Layer : Category → Category → List BinaryOperator → Prop where
  | comparison : Layer .comparison .sum [.eq, .ne, .lt, .gt, .le, .ge]
  | sum : Layer .sum .product [.add, .sub]
  | product : Layer .product .signed [.mul, .div, .rem]

mutual
/-- Whether some tokens are a phrase of a category, and which expression they spell. -/
inductive Derives : Category → List Lexeme → Term → Prop where
  | link {chains links operators ts e} : Layer chains links operators →
      Derives links ts e → Derives chains ts e
  /-- Chains group to the left. -/
  | chain {chains links operators op ts us lhs rhs} : Layer chains links operators → op ∈ operators →
      Derives chains ts lhs → Derives links us rhs →
      Derives chains (ts ++ op.lexeme :: us) (.binary op lhs rhs)
  | minus {ts e} : Derives .signed ts e → Derives .signed (.minus :: ts) (.negate e)
  | plus {ts e} : Derives .signed ts e → Derives .signed (.plus :: ts) e
  | unsigned {ts e} : Derives .power ts e → Derives .signed ts e
  | base {ts e} : Derives .atom ts e → Derives .power ts e
  /-- Powers group to the right, and an exponent can have a sign. -/
  | raise {ts us lhs rhs} : Derives .atom ts lhs → Derives .signed us rhs →
      Derives .power (ts ++ .caret :: us) (.binary .pow lhs rhs)
  | number (value) : Derives .atom [.number value] (.number value)
  | text (value) : Derives .atom [.text value] (.text value)
  | bracketed (name) : Derives .atom [.bracketed name] (.reference name)
  | group {ts e} : Derives .comparison ts e → Derives .atom (.leftParen :: (ts ++ [.rightParen])) (.group e)
  | call {name function ts args} : Function.named? name = some function → function.accepts args.length →
      DerivesArguments ts args →
      Derives .atom (.ident name :: .leftParen :: (ts ++ [.rightParen])) (.call function args)
  | true {name} : Text.sameAscii name "true" → Derives .atom [.ident name] (.boolean true)
  | false {name} : Text.sameAscii name "false" → Derives .atom [.ident name] (.boolean false)
  | pi {name} : Text.sameAscii name "pi" → Derives .atom [.ident name] (.call .pi [])
  | name {name} : ¬Text.sameAscii name "true" → ¬Text.sameAscii name "false" → ¬Text.sameAscii name "pi" →
      Derives .atom [.ident name] (.reference name)

/-- Whether some tokens are the arguments of a call, and which expressions they spell. -/
inductive DerivesArguments : List Lexeme → List Term → Prop where
  | none : DerivesArguments [] []
  | last {ts e} : Derives .comparison ts e → DerivesArguments ts [e]
  | more {ts us e next rest} : Derives .comparison ts e → DerivesArguments us (next :: rest) →
      DerivesArguments (ts ++ .comma :: us) (e :: next :: rest)
end

def upToEnd : List Token → List Lexeme
  | [] => []
  | token :: rest =>
    match token.kind with
    | .eof => []
    | kind => kind :: upToEnd rest

/-! ## Levels -/

theorem Category.level_pos (c : Category) : 0 < c.level := by
  cases c <;> decide

theorem Category.level_startingAt (least : Nat) : (startingAt least).level = max 1 (min least 4) := by
  rcases least with _ | _ | _ | _ | least <;> simp only [startingAt, level]
  all_goals omega

/-- The operators of a layer bind as tightly as its chains, and its links are one level tighter. -/
theorem Layer.levels {chains links : Category} {operators : List BinaryOperator}
    (h : Layer chains links operators) :
    links.level = chains.level + 1 ∧ chains.level ≤ 3 ∧ ∀ op, op ∈ operators ↔ op.precedence = chains.level := by
  cases h
  all_goals refine ⟨rfl, by decide, fun op => by cases op <;> decide⟩

theorem BinaryOperator.precedence_pos (op : BinaryOperator) : 0 < op.precedence := by
  cases op <;> decide

/-- An operator that is not a power belongs to a layer. -/
theorem exists_layer {op : BinaryOperator} (hop : op.precedence ≤ 3) :
    ∃ chains operators, Layer chains (.startingAt op.rightLevel) operators ∧ op ∈ operators := by
  cases op
  case eq | ne | lt | gt | le | ge => exact ⟨_, _, .comparison, by decide⟩
  case add | sub => exact ⟨_, _, .sum, by decide⟩
  case mul | div | rem => exact ⟨_, _, .product, by decide⟩
  case pow => exact absurd hop (by decide)

theorem Derives.loosen {c c' : Category} {ts : List Lexeme} {e : Term} (h : Derives c ts e)
    (hle : c'.level ≤ c.level) : Derives c' ts e := by
  have hpower : Derives .atom ts e → Derives .power ts e := .base
  have hsigned : Derives .power ts e → Derives .signed ts e := .unsigned
  have hproduct : Derives .signed ts e → Derives .product ts e := .link .product
  have hsum : Derives .product ts e → Derives .sum ts e := .link .sum
  have hcomparison : Derives .sum ts e → Derives .comparison ts e := .link .comparison
  cases c <;> cases c' <;> simp only [Category.level] at hle <;> grind

/-! ## What the parser accepts -/

/-- Whether a phrase of a category can be the left operand of the operator that is the next token, if it
is one. -/
def Attaches (c : Category) (tokens : List Token) : Prop :=
  ∀ op, (peek tokens).kind.operator? = some op → op.leftLevel ≤ c.level

theorem attaches_atom (tokens : List Token) : Attaches .atom tokens := fun op _ => by
  have := op.level_cases
  simp only [Category.level]
  omega

/-- An operator that ends what is read from a precedence upwards takes it as its left operand. -/
theorem Ends.attaches {least : Nat} {c : Category} {tokens : List Token} (h : Ends least tokens)
    (hleast : least ≤ 5) (hc : least ≤ c.level + 1) : Attaches c tokens := fun op hop => by
  have := h op hop
  have := op.level_cases
  omega

/-- Whether a reader takes phrases of a category, up to an operator that is too loose. -/
def Grammatical (c : Category) (least : Nat) (item : TermReader) : Prop :=
  ∀ ⦃tokens : List Token⦄ ⦃e : Term⦄ ⦃rest : List Token⦄, item tokens = .ok (e, rest) →
    ∃ ts, tokens = ts ++ rest ∧ Derives c (ts.map Token.kind) e ∧ Ends least rest

theorem derivesArguments_arguments {item : TermReader} (hitem : Grammatical .comparison 0 item)
    (args : List Term) : ∀ {opened bound : Nat} {tokens rest : List Token},
      arguments item opened bound tokens = .ok (args, rest) →
      ∃ ts close, tokens = ts ++ close :: rest ∧ close.kind = .rightParen ∧
        DerivesArguments (ts.map Token.kind) args := by
  induction args with
  | nil =>
    intro opened bound tokens rest h
    obtain ⟨arg, after, -, ⟨-, bound', more, hargs, -⟩ | ⟨-, hargs, -⟩⟩ := arguments_ok h <;> cases hargs
  | cons first others ih =>
    intro opened bound tokens rest h
    obtain ⟨arg, after, hread, hrest⟩ := arguments_ok h
    obtain ⟨ts, rfl, harg, -⟩ := hitem hread
    rcases hrest with ⟨hcomma, bound', more, hargs, hmore⟩ | ⟨-, hargs, hclose⟩
    · cases hargs
      obtain ⟨us, close, htail, hclose, hothers⟩ := ih hmore
      obtain ⟨comma, hafter, hcomma⟩ := eq_cons_of_kind hcomma (by simp)
      refine ⟨ts ++ comma :: us, close, by rw [hafter, htail]; simp, hclose, ?_⟩
      rw [List.map_append, List.map_cons, hcomma]
      cases others with
      | nil =>
        -- a comma is followed by another argument
        obtain ⟨_, _, -, ⟨-, _, _, hargs, -⟩ | ⟨-, hargs, -⟩⟩ := arguments_ok hmore <;> cases hargs
      | cons next rest => exact .more harg hothers
    · cases hargs
      obtain ⟨close, rfl, hk⟩ := eq_cons_of_closing hclose
      exact ⟨ts, close, rfl, hk, .last harg⟩

theorem derives_call {item : TermReader} (hitem : Grammatical .comparison 0 item) {name : String} {function : Function}
    {args : List Term} {position : Nat} {token paren : Token} {tokens rest : List Token} (hk : token.kind = .ident name)
    (hparen : paren.kind = .leftParen) (hname : Function.named? name = some function)
    (haccepts : function.accepts args.length)
    (hargs : (peek tokens).kind = .rightParen ∧ args = [] ∧ rest = tokens.tail ∨ (peek tokens).kind ≠ .rightParen ∧
      arguments item position (tokens.length + 1) tokens = .ok (args, rest)) :
    ∃ ts, token :: paren :: tokens = ts ++ rest ∧ Derives .atom (ts.map Token.kind) (.call function args) := by
  suffices hphrase : ∃ ts close, tokens = ts ++ close :: rest ∧ close.kind = .rightParen ∧
      DerivesArguments (ts.map Token.kind) args by
    obtain ⟨ts, close, rfl, hclose, hderives⟩ := hphrase
    refine ⟨token :: paren :: (ts ++ [close]), by simp, ?_⟩
    simp only [List.map_cons, List.map_append, List.map_nil, hk, hparen, hclose]
    exact .call hname haccepts hderives
  rcases hargs with ⟨hclose, rfl, rfl⟩ | ⟨-, hread⟩
  · obtain ⟨close, htokens, hclose⟩ := eq_cons_of_kind hclose (by simp)
    exact ⟨[], close, htokens, hclose, .none⟩
  · exact derivesArguments_arguments hitem args hread

theorem derives_constantOrReference (name : String) : Derives .atom [.ident name] (constantOrReference name) := by
  unfold constantOrReference
  split
  case isTrue htrue => exact .true htrue
  case isFalse htrue =>
    split
    case isTrue hfalse => exact .false hfalse
    case isFalse hfalse =>
      split
      case isTrue hpi => exact .pi hpi
      case isFalse hpi => exact .name htrue hfalse hpi

theorem derives_operand {item : Nat → TermReader}
    (hitem : ∀ least ≤ 5, Grammatical (.startingAt least) least (item least)) {tokens rest : List Token}
    {e : Term} (h : operand item tokens = .ok (e, rest)) :
    ∃ ts c, tokens = ts ++ rest ∧ Derives c (ts.map Token.kind) e ∧ 4 ≤ c.level ∧ Attaches c rest := by
  have hsigned : ∀ {tokens e rest}, item negationPrecedence tokens = .ok (e, rest) → ∃ ts, tokens = ts ++ rest ∧
      Derives .signed (ts.map Token.kind) e ∧ Attaches .signed rest := fun hread => by
    obtain ⟨ts, rfl, hderives, hends⟩ := hitem negationPrecedence (by decide) hread
    exact ⟨ts, rfl, hderives, hends.attaches (by decide) (by decide)⟩
  have hatom : ∀ ts, tokens = ts ++ rest → Derives .atom (ts.map Token.kind) e →
      ∃ ts c, tokens = ts ++ rest ∧ Derives c (ts.map Token.kind) e ∧ 4 ≤ c.level ∧ Attaches c rest :=
    fun ts htokens hderives => ⟨ts, .atom, htokens, hderives, by decide, attaches_atom rest⟩
  cases operandRead_of_operand h with
  | @number token _ value hk => exact hatom [token] rfl (by simpa [hk] using .number value)
  | @text token _ value hk => exact hatom [token] rfl (by simpa [hk] using .text value)
  | @bracketed token _ name hk => exact hatom [token] rfl (by simpa [hk] using .bracketed name)
  | @name token _ name hk => exact hatom [token] rfl (by simpa [hk] using derives_constantOrReference name)
  | call hk hparen hname haccepts hargs =>
    obtain ⟨ts, heq, hderives⟩ := derives_call (hitem 0 (by decide)) hk hparen hname haccepts hargs
    exact hatom ts heq hderives
  | @minus token _ _ _ hk hread =>
    obtain ⟨ts, rfl, hderives, hattaches⟩ := hsigned hread
    exact ⟨token :: ts, .signed, rfl, by simpa [hk] using .minus hderives, by decide, hattaches⟩
  | @plus token _ _ _ hk hread =>
    obtain ⟨ts, rfl, hderives, hattaches⟩ := hsigned hread
    exact ⟨token :: ts, .signed, rfl, by simpa [hk] using .plus hderives, by decide, hattaches⟩
  | @group token close _ _ _ hk hclose hread =>
    obtain ⟨ts, rfl, hderives, -⟩ := hitem 0 (by decide) hread
    exact hatom (token :: (ts ++ [close])) (by simp) (by simpa [hk, hclose] using .group hderives)

theorem exists_derives_binary {op : BinaryOperator} {c : Category} {ts us : List Lexeme} {lhs rhs : Term}
    (hl : Derives c ts lhs) (hleft : op.leftLevel ≤ c.level) (hr : Derives (.startingAt op.rightLevel) us rhs) :
    ∃ c', c'.level = op.precedence ∧ Derives c' (ts ++ op.lexeme :: us) (.binary op lhs rhs) := by
  rcases op.level_cases with ⟨hop, hlevel, -⟩ | ⟨hop, -, -⟩
  · obtain ⟨chains, operators, layer, hmem⟩ := exists_layer hop
    have hchains := (layer.levels.2.2 op).mp hmem
    exact ⟨chains, hchains.symm, .chain layer hmem (hl.loosen (by omega)) hr⟩
  · obtain rfl : op = .pow := by cases op <;> first | rfl | exact absurd hop (by decide)
    exact ⟨.power, rfl, .raise (hl.loosen hleft) hr⟩

/-- What each level of the parser reads is a phrase, if the levels below it read phrases. -/
theorem grammatical_expression (depth : Nat) :
    (∀ least ≤ 5, Grammatical (.startingAt least) least (expression depth least)) ∧
      ∀ least ≤ 5, ∀ {c : Category} {us : List Lexeme} {lhs e : Term} {tokens rest : List Token},
        (Category.startingAt least).level ≤ c.level → Derives c us lhs → Attaches c tokens →
        operators depth least lhs tokens = .ok (e, rest) →
        ∃ ts, tokens = ts ++ rest ∧ Derives (.startingAt least) (us ++ ts.map Token.kind) e ∧
          Ends least rest := by
  induction depth using Nat.strongRecOn with
  | ind depth ih =>
    refine ⟨fun least hleast tokens e rest h => ?_, fun least hleast {c us lhs e tokens rest} hc hl hattaches h => ?_⟩
    · obtain ⟨d, lhs, after, hd, hread, hops⟩ := expression_ok h
      obtain ⟨ts, c, rfl, hl, hc, hattaches⟩ := derives_operand (ih d (by omega)).1 hread
      have hlevel : (Category.startingAt least).level ≤ c.level := by
        rw [Category.level_startingAt]
        omega
      obtain ⟨us, rfl, hderives, hends⟩ := (ih d (by omega)).2 least hleast hlevel hl hattaches hops
      exact ⟨ts ++ us, by simp, by simpa using hderives, hends⟩
    · rcases operators_cases h with ⟨hends, heq⟩ | ⟨op, d, rhs, after, hop, hle, hd, hread, hops⟩
      · cases heq
        exact ⟨[], rfl, by simpa using hl.loosen hc, hends⟩
      · -- the operation so far is the left operand of what follows
        have hlevels := op.level_cases
        have hk := operator?_eq_some hop
        obtain ⟨token, htokens, htoken⟩ := eq_cons_of_kind hk op.lexeme_ne.1
        obtain ⟨ts, htail, hr, hends⟩ := (ih d (by omega)).1 op.rightLevel (by omega) hread
        obtain ⟨c', hc', hbinary⟩ := exists_derives_binary hl (hattaches op hop) hr
        have hlevel : (Category.startingAt least).level ≤ c'.level := by
          have := op.precedence_pos
          rw [Category.level_startingAt]
          omega
        obtain ⟨vs, rfl, hderives, hends⟩ :=
          (ih d (by omega)).2 least hleast hlevel hbinary (hends.attaches (by omega) (by omega)) hops
        refine ⟨token :: ts ++ vs, by rw [htokens, htail]; simp, ?_, hends⟩
        simpa [htoken] using hderives

/-! ## What the grammar derives -/

theorem Derives.eq_cons {c : Category} {ts : List Lexeme} {e : Term} (h : Derives c ts e) :
    ∃ kind rest, ts = kind :: rest ∧ kind ≠ .rightParen ∧ kind ≠ .eof := by
  match h with
  | .link _ h | .unsigned h | .base h => exact h.eq_cons
  | .chain _ _ h _ | .raise h _ =>
    obtain ⟨kind, rest, rfl, hkind⟩ := h.eq_cons
    exact ⟨kind, _, List.cons_append, hkind⟩
  | .minus _ | .plus _ | .group _ => exact ⟨_, _, rfl, by simp⟩
  | .number _ | .text _ | .bracketed _ => exact ⟨_, _, rfl, by simp⟩
  | .call _ _ _ | .true _ | .false _ | .pi _ | .name _ _ _ => exact ⟨_, _, rfl, by simp⟩

theorem DerivesArguments.eq_cons {ts : List Lexeme} {args : List Term} (h : DerivesArguments ts args) :
    ts = [] ∧ args = [] ∨ args ≠ [] ∧ ∃ kind rest, ts = kind :: rest ∧ kind ≠ .rightParen := by
  cases h with
  | none => exact .inl ⟨rfl, rfl⟩
  | last h =>
    obtain ⟨kind, rest, rfl, hkind, -⟩ := h.eq_cons
    exact .inr ⟨by simp, kind, rest, rfl, hkind⟩
  | more h _ =>
    obtain ⟨kind, rest, rfl, hkind, -⟩ := h.eq_cons
    exact .inr ⟨by simp, kind, _, List.cons_append, hkind⟩

theorem sameAscii_eq_false {name constant other : String} (h : Text.sameAscii name constant)
    (hne : Text.lowerAscii constant ≠ Text.lowerAscii other) : ¬Text.sameAscii name other := by
  simp only [Text.sameAscii, beq_iff_eq] at h ⊢
  exact fun heq => hne (h.symm.trans heq)

theorem constantOrReference_true {name : String} (h : Text.sameAscii name "true") :
    constantOrReference name = .boolean true := by
  rw [constantOrReference, if_pos h]

theorem constantOrReference_false {name : String} (h : Text.sameAscii name "false") :
    constantOrReference name = .boolean false := by
  rw [constantOrReference, if_neg (sameAscii_eq_false h (by decide +kernel)), if_pos h]

theorem constantOrReference_pi {name : String} (h : Text.sameAscii name "pi") :
    constantOrReference name = .call .pi [] := by
  rw [constantOrReference, if_neg (sameAscii_eq_false h (by decide +kernel)),
    if_neg (sameAscii_eq_false h (by decide +kernel)), if_pos h]

/-- Whether the nesting limit stopped a reading. -/
def TooDeep {α : Type} (result : Except SyntaxError α) : Prop :=
  ∃ position, result = .error ⟨.nestedTooDeeply, position⟩

/-- Whether a reading gives a value, if the nesting limit does not stop it. -/
def Reaches {α : Type} (result : Except SyntaxError α) (value : α) : Prop :=
  result = .ok value ∨ TooDeep result

theorem Reaches.bind {α β : Type} {result : Except SyntaxError α} {value : α} {f : α → Except SyntaxError β}
    {final : β} (h : Reaches result value) (hf : Reaches (f value) final) : Reaches (result >>= f) final := by
  rcases h with rfl | ⟨position, rfl⟩
  · exact hf
  · exact .inr ⟨position, rfl⟩

section Calls

variable {item : TermReader} {tokens rest : List Token} {arg : Term} {args : List Term} {token : Token}
  {opened bound : Nat}

theorem reaches_arguments_last (hread : Reaches (item tokens) (arg, token :: rest))
    (hk : token.kind = .rightParen) : Reaches (arguments item opened bound tokens) ([arg], rest) := by
  cases bound with
  | zero => exact .inr ⟨_, rfl⟩
  | succ bound =>
    refine hread.bind ?_
    simp only [peek_cons, hk, closing_rightParen hk]
    exact .inl rfl

theorem reaches_arguments_more {more : List Token} (hread : Reaches (item tokens) (arg, token :: more))
    (hk : token.kind = .comma) (hmore : ∀ bound, Reaches (arguments item opened bound more) (args, rest)) :
    Reaches (arguments item opened bound tokens) (arg :: args, rest) := by
  cases bound with
  | zero => exact .inr ⟨_, rfl⟩
  | succ bound =>
    refine hread.bind ?_
    simp only [peek_cons, hk, List.tail_cons]
    exact (hmore bound).bind (.inl rfl)

variable {name : String} {f : Function} {position : Nat}

theorem functionCall_nil (hname : Function.named? name = some f) (haccepts : f.accepts 0) {close : Token}
    (hk : close.kind = .rightParen) :
    functionCall item name position (token :: close :: rest) = .ok (.call f [], rest) := by
  simp only [functionCall, hname, peek_cons, List.tail_cons, hk, pure_bind, List.length_nil, haccepts]
  rfl

theorem reaches_functionCall (hname : Function.named? name = some f) (haccepts : f.accepts args.length)
    (hk : (peek tokens).kind ≠ .rightParen)
    (hargs : ∀ bound, Reaches (arguments item token.position bound tokens) (args, rest)) :
    Reaches (functionCall item name position (token :: tokens)) (.call f args, rest) := by
  simp only [functionCall, hname, peek_cons, List.tail_cons]
  refine (hargs _).bind ?_
  simp only [haccepts]
  exact .inl rfl

end Calls

/-- Whether the parser resumes with an expression and the tokens after it, if the nesting limit does not
stop it. -/
def Resumes (depth least : Nat) (tokens : List Token) (e : Term) (rest : List Token) : Prop :=
  (∃ d, expression depth least tokens = operators d least e rest) ∨ TooDeep (expression depth least tokens)

section Resuming

variable {depth least : Nat} {tokens rest : List Token} {e lhs rhs : Term}

theorem resumes_of_operand (h : ∀ d, Reaches (operand (expression d) tokens) (e, rest)) :
    Resumes depth least tokens e rest := by
  cases depth with
  | zero => exact .inr ⟨_, rfl⟩
  | succ d =>
    unfold Resumes
    rw [expression_succ]
    rcases h d with hread | ⟨position, hread⟩
    · exact .inl ⟨d, by rw [hread]; rfl⟩
    · exact .inr ⟨position, by rw [hread]; rfl⟩

theorem resumes_of_name {name : String} (htokens : tokens.map Token.kind = [.ident name])
    (hparen : (peek rest).kind ≠ .leftParen) (he : constantOrReference name = e) :
    Resumes depth least (tokens ++ rest) e rest := by
  obtain ⟨token, rfl, hk⟩ := List.map_eq_singleton_iff.mp htokens
  exact resumes_of_operand fun d => .inl (he ▸ operand_ident hk hparen)

theorem resumes_group {ts : List Lexeme} (htokens : tokens.map Token.kind = .leftParen :: (ts ++ [.rightParen]))
    (hread : ∀ {content close d}, content.map Token.kind = ts → close.kind = .rightParen →
      Reaches (expression d 0 (content ++ close :: rest)) (e, close :: rest)) :
    Resumes depth least (tokens ++ rest) (.group e) rest := by
  obtain ⟨token, more, rfl, hk, hmore⟩ := List.map_eq_cons_iff.mp htokens
  obtain ⟨content, last, rfl, hcontent, hlast⟩ := List.map_eq_append_iff.mp hmore
  obtain ⟨close, rfl, hclose⟩ := List.map_eq_singleton_iff.mp hlast
  refine resumes_of_operand fun d => ?_
  rw [List.cons_append, List.append_assoc, List.singleton_append, operand_leftParen hk]
  refine (hread hcontent hclose).bind ?_
  rw [closing_rightParen hclose]
  exact .inl rfl

theorem resumes_call {name : String} {f : Function} {ts : List Lexeme} {args : List Term}
    (hname : Function.named? name = some f) (haccepts : f.accepts args.length) (hargs : DerivesArguments ts args)
    (htokens : tokens.map Token.kind = .ident name :: .leftParen :: (ts ++ [.rightParen]))
    (hread : ∀ {content close d opened bound}, content.map Token.kind = ts → close.kind = .rightParen → args ≠ [] →
      Reaches (arguments (expression d 0) opened bound (content ++ close :: rest)) (args, rest)) :
    Resumes depth least (tokens ++ rest) (.call f args) rest := by
  obtain ⟨token, more, rfl, hk, hmore⟩ := List.map_eq_cons_iff.mp htokens
  obtain ⟨paren, tail, rfl, hkparen, htail⟩ := List.map_eq_cons_iff.mp hmore
  obtain ⟨content, last, rfl, hcontent, hlast⟩ := List.map_eq_append_iff.mp htail
  obtain ⟨close, rfl, hclose⟩ := List.map_eq_singleton_iff.mp hlast
  refine resumes_of_operand fun d => ?_
  rw [List.cons_append, List.cons_append, List.append_assoc, List.singleton_append,
    operand_call hk (by rw [peek_cons, hkparen])]
  rcases hargs.eq_cons with ⟨rfl, rfl⟩ | ⟨hne, kind, kinds, rfl, hkind⟩
  · obtain rfl := List.map_eq_nil_iff.mp hcontent
    exact .inl (functionCall_nil hname haccepts hclose)
  · refine reaches_functionCall hname haccepts ?_ fun _ => hread hcontent hclose hne
    obtain ⟨first, others, rfl, hfirst, -⟩ := List.map_eq_cons_iff.mp hcontent
    rw [List.cons_append, peek_cons, hfirst]
    exact hkind

theorem Resumes.reaches (h : Resumes depth least tokens e rest) (hends : Ends least rest) :
    Reaches (expression depth least tokens) (e, rest) := by
  rcases h with ⟨d, hread⟩ | hdeep
  · exact .inl (hread.trans (operators_of_ends hends d e))
  · exact .inr hdeep

theorem Resumes.operator {op : BinaryOperator} {token : Token} {more : List Token}
    (h : Resumes depth least tokens lhs (token :: more)) (hk : token.kind = op.lexeme) (hle : least ≤ op.precedence)
    (hr : ∀ d, Reaches (expression d op.rightLevel more) (rhs, rest)) :
    Resumes depth least tokens (.binary op lhs rhs) rest := by
  rcases h with ⟨d, hread⟩ | hdeep
  · have hop : (peek (token :: more)).kind.operator? = some op := by rw [peek_cons, hk, operator?_lexeme]
    unfold Resumes
    rw [hread]
    cases d with
    | zero =>
      rw [operators]
      simp only [hop, if_neg (Nat.not_lt.mpr hle)]
      exact .inr ⟨_, rfl⟩
    | succ d =>
      rw [operators_operator hop hle, List.tail_cons]
      rcases hr d with hright | ⟨position, hright⟩
      · exact .inl ⟨d, by rw [hright]; rfl⟩
      · exact .inr ⟨position, by rw [hright]; rfl⟩
  · exact .inr hdeep

end Resuming

theorem Attaches.ends {least : Nat} {c : Category} {tokens : List Token} (h : Attaches c tokens)
    (hc : c.level < least) : Ends least tokens := fun op hop => by
  have := h op hop
  have := op.level_cases
  omega

theorem Attaches.tighten {c c' : Category} {tokens : List Token} (h : Attaches c tokens)
    (hle : c.level ≤ c'.level) : Attaches c' tokens := fun op hop => Nat.le_trans (h op hop) hle

theorem Attaches.signed {tokens : List Token} (h : Attaches .power tokens) : Attaches .signed tokens := fun op hop => by
  have := h op hop
  have := op.level_cases
  simp only [Category.level] at *
  omega

theorem Attaches.ends_signed {tokens : List Token} (h : Attaches .signed tokens) : Ends negationPrecedence tokens :=
  fun op hop => by
    have := h op hop
    have := op.level_cases
    simp only [Category.level, negationPrecedence] at *
    omega

theorem EndsPhrase.attaches {tokens : List Token} (h : EndsPhrase tokens) (c : Category) : Attaches c tokens :=
  fun op hop => by simp [h.operator?] at hop

theorem EndsPhrase.ends {tokens : List Token} (h : EndsPhrase tokens) (least : Nat) : Ends least tokens :=
  fun op hop => by simp [h.operator?] at hop

theorem attaches_cons {c : Category} {op : BinaryOperator} {token : Token} {rest : List Token}
    (hk : token.kind = op.lexeme) (hle : op.leftLevel ≤ c.level) : Attaches c (token :: rest) := fun other hother => by
  rw [peek_cons, hk, operator?_lexeme] at hother
  cases hother
  exact hle

mutual
/-- The parser reads a phrase as the expression that it spells, and resumes after it. -/
theorem Derives.resumes {c : Category} {ts : List Lexeme} {e : Term} (h : Derives c ts e)
    {tokens rest : List Token} (hts : tokens.map Token.kind = ts) (hparen : (peek rest).kind ≠ .leftParen)
    (hattaches : Attaches c rest) {depth least : Nat} (hleast : least ≤ 5)
    (hlevel : (Category.startingAt least).level ≤ c.level) :
    Resumes depth least (tokens ++ rest) e rest := by
  -- by recursion on the derivation; what may follow a phrase (`Attaches`) only gets stricter on the way down
  match h with
  | .link layer h =>
    have hlinks := layer.levels.1
    exact h.resumes hts hparen (hattaches.tighten (by omega)) hleast (by omega)
  | @Derives.chain _ _ _ op _ _ _ _ layer hmem hl hr =>
    obtain ⟨first, more, rfl, hfirst, hmore⟩ := List.map_eq_append_iff.mp hts
    obtain ⟨token, second, rfl, hk, hsecond⟩ := List.map_eq_cons_iff.mp hmore
    obtain ⟨hlinks, hchains, hoperators⟩ := layer.levels
    have hop := (hoperators op).mp hmem
    have hlevels := op.level_cases
    rw [Category.level_startingAt] at hlevel
    rw [List.append_assoc, List.cons_append]
    -- the parser never sees the chain as a whole: it reads the left part, meets `op` and goes on from there
    have hleft : Resumes depth least (first ++ token :: (second ++ rest)) _ (token :: (second ++ rest)) :=
      hl.resumes hfirst (by rw [peek_cons, hk]; exact op.lexeme_ne.2) (attaches_cons hk (by omega)) hleast
      (by rw [Category.level_startingAt]; omega)
    refine hleft.operator hk (by omega) fun d => ?_
    refine (hr.resumes hsecond hparen (hattaches.tighten (by omega)) (by omega) ?_).reaches
      (hattaches.ends (by omega))
    rw [Category.level_startingAt]
    omega
  | .minus h =>
    obtain ⟨token, more, rfl, hk, hmore⟩ := List.map_eq_cons_iff.mp hts
    refine resumes_of_operand fun d => ?_
    rw [List.cons_append, operand_minus hk]
    exact ((h.resumes hmore hparen hattaches (by decide) (by decide)).reaches
      (hattaches.ends_signed)).bind (.inl rfl)
  | .plus h =>
    obtain ⟨token, more, rfl, hk, hmore⟩ := List.map_eq_cons_iff.mp hts
    refine resumes_of_operand fun d => ?_
    rw [List.cons_append, operand_plus hk]
    exact (h.resumes hmore hparen hattaches (by decide) (by decide)).reaches (hattaches.ends_signed)
  | .unsigned h | .base h =>
    exact h.resumes hts hparen (hattaches.tighten (by decide)) hleast
      (Nat.le_trans hlevel (by decide))
  | .raise hl hr =>
    obtain ⟨first, more, rfl, hfirst, hmore⟩ := List.map_eq_append_iff.mp hts
    obtain ⟨token, second, rfl, hk, hsecond⟩ := List.map_eq_cons_iff.mp hmore
    rw [List.append_assoc, List.cons_append]
    have hleft : Resumes depth least (first ++ token :: (second ++ rest)) _ (token :: (second ++ rest)) :=
      hl.resumes hfirst (by simp [hk]) (attaches_atom _) hleast (Nat.le_trans hlevel (by decide))
    refine Resumes.operator hleft (show token.kind = BinaryOperator.pow.lexeme from hk) hleast fun d => ?_
    exact (hr.resumes hsecond hparen hattaches.signed (by decide) (by decide)).reaches
      (hattaches.signed.ends (by decide))
  | .number value =>
    obtain ⟨token, rfl, hk⟩ := List.map_eq_singleton_iff.mp hts
    exact resumes_of_operand fun d => .inl (operand_number hk)
  | .text value =>
    obtain ⟨token, rfl, hk⟩ := List.map_eq_singleton_iff.mp hts
    exact resumes_of_operand fun d => .inl (operand_text hk)
  | .bracketed name =>
    obtain ⟨token, rfl, hk⟩ := List.map_eq_singleton_iff.mp hts
    exact resumes_of_operand fun d => .inl (operand_bracketed hk)
  | .group h =>
    refine resumes_group hts fun hcontent hclose => ?_
    have hends : EndsPhrase (_ :: rest) := .inr (.inl hclose)
    exact (h.resumes hcontent hends.ne_leftParen (hends.attaches _) (by decide) (by decide)).reaches
      (hends.ends 0)
  | .call hname haccepts hargs =>
    exact resumes_call hname haccepts hargs hts fun hcontent hclose hne => hargs.reaches hcontent hclose hne
  | .true hname => exact resumes_of_name hts hparen (constantOrReference_true hname)
  | .false hname => exact resumes_of_name hts hparen (constantOrReference_false hname)
  | .pi hname => exact resumes_of_name hts hparen (constantOrReference_pi hname)
  | .name htrue hfalse hpi =>
    exact resumes_of_name hts hparen (by rw [constantOrReference, if_neg htrue, if_neg hfalse, if_neg hpi])

theorem DerivesArguments.reaches {ts : List Lexeme} {args : List Term} (h : DerivesArguments ts args)
    {tokens rest : List Token} (hts : tokens.map Token.kind = ts) {close : Token} (hclose : close.kind = .rightParen)
    (hne : args ≠ []) {depth opened bound : Nat} :
    Reaches (arguments (expression depth 0) opened bound (tokens ++ close :: rest)) (args, rest) := by
  match h with
  | .none => exact absurd rfl hne
  | .last h =>
    have hends : EndsPhrase (close :: rest) := .inr (.inl hclose)
    exact reaches_arguments_last ((h.resumes hts hends.ne_leftParen (hends.attaches _) (by decide)
      (by decide)).reaches (hends.ends 0)) hclose
  | .more h hmore =>
    obtain ⟨first, tail, rfl, hfirst, htail⟩ := List.map_eq_append_iff.mp hts
    obtain ⟨comma, second, rfl, hcomma, hsecond⟩ := List.map_eq_cons_iff.mp htail
    rw [List.append_assoc, List.cons_append]
    have hends : EndsPhrase (comma :: (second ++ close :: rest)) := .inl hcomma
    exact reaches_arguments_more ((h.resumes hfirst hends.ne_leftParen (hends.attaches _) (by decide)
      (by decide)).reaches (hends.ends 0)) hcomma fun bound => hmore.reaches hsecond hclose (by simp)
end

/-! ## Whole texts -/

mutual
theorem Derives.eof_notMem {c : Category} {ts : List Lexeme} {e : Term} (h : Derives c ts e) : .eof ∉ ts := by
  match h with
  | .link _ h | .unsigned h | .base h => exact h.eof_notMem
  | @Derives.chain _ _ _ op _ _ _ _ _ _ hl hr =>
    simp [hl.eof_notMem, hr.eof_notMem, op.lexeme_ne.1.symm]
  | .raise hl hr => simp [hl.eof_notMem, hr.eof_notMem]
  | .minus h | .plus h | .group h => simp [h.eof_notMem]
  | .call _ _ h => simp [h.eof_notMem]
  | .number _ | .text _ | .bracketed _ => simp
  | .true _ | .false _ | .pi _ | .name _ _ _ => simp

theorem DerivesArguments.eof_notMem {ts : List Lexeme} {args : List Term} (h : DerivesArguments ts args) :
    .eof ∉ ts := by
  match h with
  | .none => simp
  | .last h => exact h.eof_notMem
  | .more h hmore => simp [h.eof_notMem, hmore.eof_notMem]
end

theorem upToEnd_append {ts rest : List Token} (hts : .eof ∉ ts.map Token.kind) (hrest : (peek rest).kind = .eof) :
    upToEnd (ts ++ rest) = ts.map Token.kind := by
  induction ts with
  | nil =>
    cases rest with
    | nil => rfl
    | cons token rest =>
      rw [peek_cons] at hrest
      simp [upToEnd, hrest]
  | cons token ts ih =>
    simp only [List.map_cons, List.mem_cons, not_or] at hts
    rw [List.cons_append, List.map_cons, upToEnd, ih hts.2]
    split
    · rename_i heof
      exact absurd heof.symm hts.1
    · rfl

theorem exists_append_upToEnd (tokens : List Token) :
    ∃ ts rest, tokens = ts ++ rest ∧ ts.map Token.kind = upToEnd tokens ∧ (peek rest).kind = .eof := by
  induction tokens with
  | nil => exact ⟨[], [], rfl, rfl, rfl⟩
  | cons token tokens ih =>
    obtain ⟨ts, rest, heq, hts, hrest⟩ := ih
    unfold upToEnd
    split
    case h_1 heof => exact ⟨[], token :: tokens, rfl, rfl, heof⟩
    case h_2 => exact ⟨token :: ts, rest, by rw [heq]; rfl, by rw [List.map_cons, hts], hrest⟩

theorem derives_of_parseTokens {tokens : List Token} {e : Term} (h : parseTokens tokens = .ok e) :
    Derives .comparison (upToEnd tokens) e := by
  obtain ⟨rest, hread, heof⟩ := parseTokens_ok h
  obtain ⟨ts, rfl, hderives, -⟩ := (grammatical_expression nestingLimit).1 0 (by decide) hread
  rw [upToEnd_append hderives.eof_notMem heof]
  exact hderives

theorem Derives.reaches_parseTokens {tokens : List Token} {e : Term}
    (h : Derives .comparison (upToEnd tokens) e) : Reaches (parseTokens tokens) e := by
  obtain ⟨ts, rest, rfl, hts, heof⟩ := exists_append_upToEnd tokens
  have hends : EndsPhrase rest := .inr (.inr heof)
  obtain ⟨kind, kinds, hcons, -, hkind⟩ := h.eq_cons
  obtain ⟨token, more, rfl, rfl, -⟩ := List.map_eq_cons_iff.mp (hts.trans hcons)
  have hread : Reaches (expression nestingLimit 0 (token :: more ++ rest)) (e, rest) :=
    (h.resumes hts hends.ne_leftParen (hends.attaches _) (by decide) (by decide)).reaches (hends.ends 0)
  rw [parseTokens_of_ne (by exact hkind)]
  refine hread.bind ?_
  simp only [heof]
  exact .inl rfl

/-- A text is read as an expression that its tokens spell, and a text whose tokens spell an expression is
read as the expression, or is nested too deeply. -/
theorem parse_derives {source : String} {tokens : List Token} (h : tokenize source = .ok tokens) (e : Term) :
    (parse source = .ok e → Derives .comparison (upToEnd tokens) e) ∧
      (Derives .comparison (upToEnd tokens) e → parse source = .ok e ∨ TooDeep (parse source)) := by
  have hparse : parse source = parseTokens tokens := by
    rw [parse, h]
    rfl
  rw [hparse]
  exact ⟨derives_of_parseTokens, Derives.reaches_parseTokens⟩

/-- Powers bind tighter than the sign before them, and an exponent can have a sign of its own. -/
theorem derives_signed_power : ∃ tokens e, tokenize "-a ^ -b ^ 2 * (c + pi) <> if(d, e, TRUE) % [f g]" = .ok tokens ∧
    parse "-a ^ -b ^ 2 * (c + pi) <> if(d, e, TRUE) % [f g]" = .ok e ∧ Derives .comparison (upToEnd tokens) e := by
  have htokens : (tokenize "-a ^ -b ^ 2 * (c + pi) <> if(d, e, TRUE) % [f g]").isOk := by decide +kernel
  have hparse : (parse "-a ^ -b ^ 2 * (c + pi) <> if(d, e, TRUE) % [f g]").isOk := by decide +kernel
  obtain ⟨tokens, htokens⟩ := exists_of_isOk htokens
  obtain ⟨e, hparse⟩ := exists_of_isOk hparse
  exact ⟨tokens, e, htokens, hparse, (parse_derives htokens e).1 hparse⟩

end Parametric.Formula
