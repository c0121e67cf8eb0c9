import Parametric.Proofs.Formula.Height
import Parametric.Proofs.Formula.Nesting
import Parametric.Proofs.Formula.Parsed
import Parametric.Proofs.Formula.Rendering

/-!
# Reading back within the nesting limit

How many levels the parser takes for the text of an expression. The text of an expression that was parsed
can take more levels than there are, because parentheses are dropped and added when it is written: a group
at the left end of a chain is read on levels of its own, and as part of the chain it is not.
-/

namespace Parametric.Formula

theorem Ends.mono {least more : Nat} {tokens : List Token} (h : Ends least tokens) (hle : least ≤ more) :
    Ends more tokens :=
  fun op hop => Nat.lt_of_lt_of_le (h op hop) hle

theorem ends_cons {least : Nat} {op : BinaryOperator} {token : Token} {rest : List Token}
    (hk : token.kind = op.lexeme) (hlt : op.precedence < least) : Ends least (token :: rest) := fun other hother => by
  rw [peek_cons, hk, operator?_lexeme] at hother
  cases hother
  exact hlt

namespace Expr

def chainLength : Term → Nat
  | .binary _ lhs _ => lhs.chainLength + 1
  | _ => 0

mutual
/-- The levels that the parts of an expression take below the level where the expression starts. Every
operator of its chain takes one, and its right operand is read below it. -/
def innerLevels : Term → Nat
  | .number _ | .text _ | .boolean _ | .reference _ => 0
  | .negate operand => operand.innerLevels + 1
  | .binary _ lhs rhs => max lhs.innerLevels (lhs.chainLength + 1 + (rhs.innerLevels + 1))
  | .call _ args => greatestLevels args
  | .group inner => inner.innerLevels + 1

def greatestLevels : List Term → Nat
  | [] => 0
  | e :: rest => max (e.innerLevels + 1) (greatestLevels rest)
end

/-- The levels that the parser takes for an expression whose parentheses are all written. -/
def levels (e : Term) : Nat := e.innerLevels + 1

theorem chainLength_le (e : Term) : e.chainLength ≤ e.innerLevels := by
  cases e with
  | binary op lhs rhs =>
    simp only [chainLength, innerLevels]
    omega
  | _ => exact Nat.zero_le _

variable {style : Style}

theorem length_lexemes_pos (e : Term) : 0 < (e.lexemes style).length := by
  cases e <;> simp [lexemes]

theorem length_le_lexemesAll (args : List Term) : args.length ≤ (lexemesAll style args).length := by
  induction args with
  | nil => exact Nat.le_refl _
  | cons arg rest ih =>
      cases rest with
      | nil => exact arg.length_lexemes_pos
      | cons next more =>
          simp only [lexemesAll, List.length_append, List.length_cons] at ih ⊢
          omega

/-- Whether the parser takes the levels of an expression for its tokens, and those that the operators after
them take below the chain of the expression. -/
def ReadsOn (style : Style) (e : Term) : Prop :=
  ∀ ⦃tokens rest : List Token⦄ ⦃least more : Nat⦄ ⦃final : Term × List Token⦄,
    tokens.map Token.kind = e.lexemes style → least ≤ e.level → Ends e.edge rest → (peek rest).kind ≠ .leftParen →
    (∀ depth, Needs more depth (operators depth least (e.mapNames Text.trim) rest) final) →
    ∀ depth, Needs (max e.innerLevels (e.chainLength + more)) depth
      (operand (expression depth) (tokens ++ rest) >>= fun read => operators depth least read.1 read.2) final

section Reading

variable {e lhs rhs : Term} {tokens rest : List Token} {least : Nat}

theorem ReadsOn.expression (h : ReadsOn style e) (htokens : tokens.map Token.kind = e.lexemes style)
    (hleast : least ≤ e.level) (hedge : Ends e.edge rest) (hends : Ends least rest)
    (hparen : (peek rest).kind ≠ .leftParen) (depth : Nat) :
    Needs e.levels depth (expression depth least (tokens ++ rest)) (e.mapNames Text.trim, rest) := by
  refine needs_expression fun depth => ?_
  have hneeds := h htokens hleast hedge hparen (fun depth => needs_zero (operators_of_ends hends depth _)) depth
  rwa [Nat.add_zero, Nat.max_eq_left e.chainLength_le] at hneeds

theorem ReadsOn.phrase (h : ReadsOn style e) : PhraseAt e.levels (e.lexemes style) (e.mapNames Text.trim) :=
  fun _ _ htokens hends depth =>
    h.expression htokens (Nat.zero_le _) (hends.ends _) (hends.ends _) hends.ne_leftParen depth

theorem readsOn_of_operandAt (h : OperandAt e.innerLevels (e.lexemes style) (e.mapNames Text.trim))
    (hchain : e.chainLength = 0) : ReadsOn style e := by
  intro tokens rest least more final htokens _ _ hparen hmore depth
  rw [hchain, Nat.zero_add]
  exact (h htokens hparen depth).bind (hmore depth)

theorem ReadsOn.negate (h : ReadsOn style e) (hlevel : negationPrecedence ≤ e.level) : ReadsOn style (.negate e) := by
  intro tokens rest least more final htokens _ hedge hparen hmore depth
  obtain ⟨token, inner, rfl, hk, hinner⟩ := List.map_eq_cons_iff.mp htokens
  have hread := h.expression hinner hlevel (hedge.mono (Nat.min_le_right _ _))
    (hedge.mono (Nat.min_le_left _ _)) hparen depth
  have hoperand : Needs e.levels depth (operand (Formula.expression depth) (token :: (inner ++ rest)))
      (mapNames Text.trim (.negate e), rest) := by
    rw [operand_minus hk]
    exact hread.bind_ok rfl
  rw [show chainLength (.negate e) = 0 from rfl, Nat.zero_add]
  exact hoperand.bind (hmore depth)

/-- The operators after the left operand of an operation are the operation and what follows it. -/
theorem ReadsOn.binary {op : BinaryOperator} (hl : ReadsOn style lhs) (hr : ReadsOn style rhs)
    (hc : (Expr.binary op lhs rhs).Canonical) : ReadsOn style (.binary op lhs rhs) := by
  intro tokens rest least more final htokens hleast hedge hparen hmore depth
  obtain ⟨hlhs, -, hleft, hright⟩ := hc
  obtain ⟨first, after, rfl, hfirst, hafter⟩ := List.map_eq_append_iff.mp htokens
  obtain ⟨token, second, rfl, hk, hsecond⟩ := List.map_eq_cons_iff.mp hafter
  have hop := op.level_cases
  have hinto := le_edge lhs hlhs op.leftLevel hleft
  have hread (depth : Nat) := hr.expression hsecond hright (hedge.mono (Nat.min_le_right _ _))
    (hedge.mono (Nat.min_le_left _ _)) hparen depth
  have hoperators := needs_operators hk hleast hread hmore
  have hneeds := hl hfirst (Nat.le_trans hleast (show op.precedence ≤ lhs.level by omega))
    (ends_cons hk (by omega)) (by rw [peek_cons, hk]; exact op.lexeme_ne.2) hoperators depth
  have hlevels : max lhs.innerLevels (lhs.chainLength + (max rhs.levels more + 1)) =
      max (Expr.binary op lhs rhs).innerLevels ((Expr.binary op lhs rhs).chainLength + more) := by
    simp only [innerLevels, chainLength, levels]
    omega
  rwa [hlevels, ← List.cons_append, ← List.append_assoc] at hneeds

end Reading

mutual
/-- A canonical expression takes the levels that it has. -/
theorem readsOn : (e : Term) → e.Canonical → ReadsOn style e
  | .number value, _ => readsOn_of_operandAt (operandAt_number value) rfl
  | .text value, _ => readsOn_of_operandAt (operandAt_text value) rfl
  | .boolean true, _ => readsOn_of_operandAt (operandAt_ident "true") rfl
  | .boolean false, _ => readsOn_of_operandAt (operandAt_ident "false") rfl
  | .reference name, _ => readsOn_of_operandAt (operandAt_reference name) rfl
  | .negate operand, hc => (readsOn operand hc.1).negate hc.2
  | .binary _ lhs rhs, hc => (readsOn lhs hc.1).binary (readsOn rhs hc.2.1) hc
  | .call function args, hc => by
    cases args with
    | nil => exact readsOn_of_operandAt (operandAt_call_nil (named?_function style function) hc.1) rfl
    | cons arg more =>
      have hargs := (argumentsAt (arg :: more) hc.2 (List.cons_ne_nil _ _)).call (named?_function style function)
        ((length_mapNamesAll Text.trim (arg :: more)).symm ▸ hc.1)
        ((length_mapNamesAll Text.trim (arg :: more)).symm ▸ Nat.le_add_right_of_le (length_le_lexemesAll _))
      exact readsOn_of_operandAt hargs rfl
  | .group inner, hc => readsOn_of_operandAt (readsOn inner hc).phrase.group rfl

theorem argumentsAt : (args : List Term) → AllCanonical args → args ≠ [] →
    ArgumentsAt (greatestLevels args) (lexemesAll style args) (mapNamesAll Text.trim args)
  | [], _, hne => absurd rfl hne
  | [arg], hc, _ => (readsOn arg hc.1).phrase.lastArgument
  | arg :: next :: more, hc, _ =>
    (readsOn arg hc.1).phrase.nextArgument (argumentsAt (next :: more) hc.2 (List.cons_ne_nil _ _))
end

/-! ## Texts -/

/-- A text that spells a canonical expression is read as the expression if there are enough levels. -/
theorem needs_parse {source : String} {e : Term} (hc : e.Canonical) (h : Spells source.toList (e.lexemes style)) :
    Needs e.levels nestingLimit (parse source) (e.mapNames Text.trim) :=
  (readsOn e hc).phrase.parse h

theorem needs_parse_render {source : String} {e₀ e : Term} (hparse : parse source = .ok e₀)
    (he : e = e₀ ∨ e = (optimize e₀).expr) (hfinite : e.hasFiniteNumbers) (style : Style) :
    Needs e.reread.levels nestingLimit (parse (e.render style)) e.reread := by
  have h := readable_optimize_of_parse hparse he
  have hspells := spells_render style e (h.mono fun _ hname => hname.fitsTrimmed) hfinite
  have hneeds := needs_parse (canonical_reread e h) hspells
  rwa [mapNames_eq_self fun name hname => (h.fits name (names_reread e ▸ hname)).trim_eq] at hneeds

/-- The text of an expression that was parsed is accepted exactly if what it is read as takes no more levels
than the parser has. Otherwise it is nested too deeply. -/
theorem parse_render_isOk_iff {source : String} {e₀ e : Term} (hparse : parse source = .ok e₀)
    (he : e = e₀ ∨ e = (optimize e₀).expr) (hfinite : e.hasFiniteNumbers) (style : Style) :
    ((∃ e', parse (e.render style) = .ok e') ↔ e.reread.levels ≤ nestingLimit) ∧
      (nestingLimit < e.reread.levels → TooDeep (parse (e.render style))) := by
  have hneeds := needs_parse_render hparse he hfinite style
  exact ⟨hneeds.exists_ok_iff, hneeds.tooDeep⟩

/-! ## Sums of sums -/

section Sums

variable {e : Term} {count : Nat}

theorem canonical_summed (hc : e.Canonical) (hlevel : 2 ≤ e.level) : (summed count e).Canonical := by
  induction count generalizing e with
  | zero => exact hc
  | succ count ih => exact ih ⟨hc, trivial, hlevel, show 3 ≤ 6 by decide⟩ (Nat.le_refl _)

theorem lexemes_reference : (Expr.reference "a" : Term).lexemes style = [.ident "a"] :=
  congrArg (fun kind => [kind]) (if_pos (by decide +kernel))

theorem lexemes_summed : (summed count e).lexemes style = e.lexemes style ++ summandLexemes count := by
  induction count generalizing e with
  | zero => exact (List.append_nil _).symm
  | succ count ih =>
    rw [summed, ih, lexemes, lexemes_reference, List.append_assoc]
    rfl

theorem names_summed {name : String} : name ∈ (summed count e).names → name ∈ e.names ∨ name = "a" := by
  induction count generalizing e with
  | zero => exact .inl
  | succ count ih =>
    intro h
    rcases ih h with h | h
    · simpa [names] using h
    · exact .inr h

theorem hasFiniteNumbers_summed (h : e.hasFiniteNumbers) : (summed count e).hasFiniteNumbers := by
  induction count generalizing e with
  | zero => exact h
  | succ count ih => exact ih (by rw [hasFiniteNumbers, h]; rfl)

theorem reread_summed (h : needsParensLeft .add e = false) : (summed count e).reread = summed count e.reread := by
  induction count generalizing e with
  | zero => rfl
  | succ count ih =>
    have hread : (Expr.binary .add e (.reference "a")).reread = .binary .add e.reread (.reference "a") := by
      rw [reread, h]
      rfl
    rw [summed, ih rfl, hread, summed]

theorem innerLevels_summed : (summed (count + 1) e).innerLevels = max e.innerLevels (e.chainLength + count + 2) := by
  induction count generalizing e with
  | zero => rfl
  | succ count ih =>
    rw [summed, ih]
    simp only [innerLevels, chainLength]
    omega

end Sums

/-- A sum of names that starts with the sum of two names in parentheses. -/
def sumOfSum (count : Nat) : Term := summed count (.group (summed 1 (.reference "a")))

def sumOfSumText (count : Nat) : String := .ofList ('(' :: ('a' :: summandText 1 ++ ')' :: summandText count))

theorem spells_sumOfSumText (count : Nat) : Spells (sumOfSumText count).toList ((sumOfSum count).lexemes style) := by
  have hname : Spells ['a'] [.ident "a"] := @spells_word "a" (by decide +kernel)
  have hsum := spells_summandText (spells_summandText hname 1).parenthesized count
  rw [sumOfSum, lexemes_summed, lexemes, lexemes_summed, lexemes_reference]
  simpa [sumOfSumText] using hsum

theorem hasFiniteNumbers_sumOfSum (count : Nat) : (sumOfSum count).hasFiniteNumbers :=
  hasFiniteNumbers_summed (by decide)

theorem reread_sumOfSum (count : Nat) : (sumOfSum count).reread = summed (count + 1) (.reference "a") := by
  rw [sumOfSum, reread_summed rfl, reread, reread_summed rfl]
  rfl

theorem levels_reread_sumOfSum (count : Nat) : (sumOfSum (count + 1)).reread.levels = count + 4 := by
  rw [reread_sumOfSum, levels, innerLevels_summed]
  simp only [innerLevels, chainLength]
  omega

theorem parse_sumOfSumText {count : Nat} (h : count + 3 ≤ nestingLimit) :
    parse (sumOfSumText (count + 1)) = .ok (sumOfSum (count + 1)) := by
  have hcanonical : (sumOfSum (count + 1)).Canonical :=
    canonical_summed (canonical_summed (e := .reference "a") trivial (by decide)) (show 2 ≤ 6 by decide)
  have hnames : (sumOfSum (count + 1)).mapNames Text.trim = sumOfSum (count + 1) := by
    refine mapNames_eq_self fun name hname => ?_
    obtain rfl : name = "a" := (names_summed hname).elim (fun h => (names_summed h).elim (by simp [names]) id) id
    decide +kernel
  have hlevels : (sumOfSum (count + 1)).levels ≤ nestingLimit := by
    rw [sumOfSum, levels, innerLevels_summed]
    simp only [innerLevels, chainLength, summed]
    unfold nestingLimit at h ⊢
    omega
  have hspells : Spells (sumOfSumText (count + 1)).toList ((sumOfSum (count + 1)).lexemes {}) := spells_sumOfSumText _
  have hneeds := needs_parse hcanonical hspells
  rwa [Needs, if_pos hlevels, hnames] at hneeds

/-- In the text of the sum there are no parentheses, and it takes one level more than the sum. -/
theorem exists_parse_render_sumOfSum_iff {count : Nat} (h : count + 3 ≤ nestingLimit) (style : Style) :
    (∃ e', parse ((sumOfSum (count + 1)).render style) = .ok e') ↔ count + 4 ≤ nestingLimit := by
  rw [← levels_reread_sumOfSum]
  exact (needs_parse_render (parse_sumOfSumText h) (.inl rfl) (hasFiniteNumbers_sumOfSum _) style).exists_ok_iff

/-- The longest sum of this form that can be read back. -/
theorem parse_render_sumOfSum : parse (sumOfSumText 253) = .ok (sumOfSum 253) ∧
    (sumOfSum 253).hasFiniteNumbers ∧ (sumOfSum 253).reread.levels = nestingLimit ∧
    ∃ e', parse ((sumOfSum 253).render {}) = .ok e' := by
  have hparse : parse (sumOfSumText 253) = .ok (sumOfSum 253) := parse_sumOfSumText (by decide)
  have hlevels : (sumOfSum 253).reread.levels = nestingLimit := levels_reread_sumOfSum 252
  have hfinite := hasFiniteNumbers_sumOfSum 253
  have hread := (parse_render_isOk_iff hparse (.inl rfl) hfinite {}).1.mpr (Nat.le_of_eq hlevels)
  exact ⟨hparse, hfinite, hlevels, hread⟩

/-- With one more name the sum is accepted and its text is not. -/
theorem not_parse_render_sumOfSum : parse (sumOfSumText 254) = .ok (sumOfSum 254) ∧
    (sumOfSum 254).hasFiniteNumbers ∧ ∀ style, ¬∃ e', parse ((sumOfSum 254).render style) = .ok e' := by
  have hiff := @exists_parse_render_sumOfSum_iff 253 (by decide)
  exact ⟨parse_sumOfSumText (by decide), hasFiniteNumbers_sumOfSum 254, fun style haccepted =>
    absurd ((hiff style).mp haccepted) (by decide)⟩

end Expr

end Parametric.Formula
