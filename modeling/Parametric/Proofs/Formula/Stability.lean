import Parametric.Proofs.Formula.Roundtrip

/-!
# Stable texts

What the text of an expression is read as is written with the same text, although it is in general
another tree: parentheses became groups, chains are grouped to the left, and negative literals became
negations.
-/

namespace Parametric.Formula.Expr

/-! ## What the printer looks at -/

/-- The operator that an expression applies last, through parentheses. -/
def operator? : Term → Option BinaryOperator
  | .binary op _ _ => some op
  | .group inner => inner.operator?
  | _ => none

theorem continuesChain_eq (op : BinaryOperator) :
    (rhs : Term) → continuesChain op rhs = ((op == .add || op == .mul) && rhs.operator? == some op)
  | .number _ | .text _ | .boolean _ | .reference _ | .negate _ | .call _ _ => by cases op <;> rfl
  | .binary inner _ _ => by cases op <;> cases inner <;> rfl
  | .group inner => continuesChain_eq op inner

@[simp] theorem render_enclosed (style : Style) (needed : Bool) (e : Term) :
    (enclosed needed e).render style = e.render style := by
  cases needed <;> rfl

@[simp] theorem precedence?_enclosed (needed : Bool) (e : Term) : (enclosed needed e).precedence? = e.precedence? := by
  cases needed <;> rfl

@[simp] theorem operator?_enclosed (needed : Bool) (e : Term) : (enclosed needed e).operator? = e.operator? := by
  cases needed <;> rfl

theorem graft_graft {op inner : BinaryOperator} (h : inner.precedence = op.precedence) (lhs first : Term) :
    (rhs : Term) → graft op lhs (graft inner first rhs) = graft inner (graft op lhs first) rhs
  | .binary last second third => by
    by_cases hlast : last.precedence = inner.precedence
    · simp only [graft, if_pos hlast, if_pos (hlast.trans h), graft_graft h lhs first second]
    · simp only [graft, if_neg hlast, if_pos h]
  | .number _ | .text _ | .boolean _ | .reference _ | .negate _ | .call _ _ | .group _ => by
    simp only [graft, if_pos h]

theorem precedence?_graft (op : BinaryOperator) (lhs rhs : Term) :
    (graft op lhs rhs).precedence? = some op.precedence := by
  unfold graft
  split
  case h_1 inner first second =>
    split
    case isTrue h => exact congrArg some h
    case isFalse => rfl
  case h_2 => rfl

theorem precedence?_join (op : BinaryOperator) (lhs rhs : Term) :
    (join op lhs rhs).precedence? = some op.precedence := by
  unfold join
  split
  · rfl
  · exact precedence?_graft op lhs rhs

theorem operator?_graft {op : BinaryOperator} {rhs : Term} (lhs : Term)
    (h : rhs.level = op.precedence → rhs.operator? = some op) : (graft op lhs rhs).operator? = some op := by
  unfold graft
  split
  case h_1 inner first second =>
    split
    case isTrue heq => exact h heq
    case isFalse => rfl
  case h_2 => rfl

theorem not_abs_lt_zero {x : Float} (h : x.isFinite) : ¬x.abs < 0.0 := by
  obtain ⟨d, hd⟩ := Number.exists_ofFloat? h
  exact fun hlt => Bool.false_ne_true ((Number.lt_zero_iff (Number.ofFloat?_abs hd)).mp hlt).1

theorem precedence?_reread : (e : Term) → e.hasFiniteNumbers → e.reread.precedence? = e.precedence?
  | .number value, hfinite => by
    simp only [reread, precedence?, Numeral.isNegative, decide_eq_true_eq]
    split
    · rfl
    · simp [precedence?, Numeral.isNegative, not_abs_lt_zero hfinite]
  | .text _, _ | .boolean _, _ | .reference _, _ | .negate _, _ | .call _ _, _ => rfl
  | .binary op lhs rhs, _ => precedence?_join op _ _
  | .group inner, hfinite => precedence?_reread inner hfinite

theorem operator?_reread : (e : Term) → e.reread.operator? = e.operator?
  | .number value => by
    rw [reread]
    split <;> rfl
  | .text _ | .boolean _ | .reference _ | .negate _ | .call _ _ => rfl
  | .binary op lhs rhs => by
    rw [reread, join]
    split
    case isTrue => rfl
    case isFalse hgroups =>
      refine operator?_graft _ fun hlevel => ?_
      cases hparens : needsParensRight op rhs with
      | true =>
        rw [hparens] at hlevel
        have := op.precedence_le
        exact absurd hlevel (Nat.ne_of_gt (Nat.lt_succ_of_le this))
      | false =>
        rw [hparens] at hlevel
        have hchain := continuesChain_of_level_le (by simpa using hgroups) hparens (Nat.le_of_eq hlevel)
        rw [continuesChain_eq, Bool.and_eq_true, beq_iff_eq] at hchain
        exact (operator?_reread rhs).trans hchain.2
  | .group inner => operator?_reread inner

section Parentheses

variable {e : Term}

theorem isLooserThan_reread (hfinite : e.hasFiniteNumbers) (needed : Bool) (level : Nat) :
    (enclosed needed e.reread).isLooserThan level = e.isLooserThan level := by
  rw [isLooserThan, isLooserThan, precedence?_enclosed, precedence?_reread e hfinite]

theorem needsParensLeft_reread (hfinite : e.hasFiniteNumbers) (op : BinaryOperator) (needed : Bool) :
    needsParensLeft op (enclosed needed e.reread) = needsParensLeft op e := by
  rw [needsParensLeft, needsParensLeft, isLooserThan_reread hfinite, isLooserThan_reread hfinite]

theorem needsParensRight_reread (hfinite : e.hasFiniteNumbers) (op : BinaryOperator) (needed : Bool) :
    needsParensRight op (enclosed needed e.reread) = needsParensRight op e := by
  rw [needsParensRight, needsParensRight, continuesChain_eq, continuesChain_eq, operator?_enclosed,
    operator?_reread, isLooserThan_reread hfinite, isLooserThan_reread hfinite]

theorem isLooserThan_eq_false {level : Nat} (hlevel : level ≤ e.reread.level) : e.isLooserThan level = false := by
  rw [level_reread] at hlevel
  unfold isLooserThan
  cases hp : e.precedence? with
  | none => rfl
  | some p =>
    rw [hp, Option.getD_some] at hlevel
    simpa using hlevel

end Parentheses

/-! ## Texts -/

/-- What an expression is read as is written like the expression, also after it was hung into a chain. -/
structure Stable (style : Style) (e : Term) : Prop where
  render_eq : e.reread.render style = e.render style
  render_graft : ∀ op lhs, op.precedence ≤ 3 → op.precedence ≤ e.reread.level →
    (graft op lhs e.reread).render style =
      parenthesized (needsParensLeft op lhs) (lhs.render style) ++ style.operator op ++ e.render style

section Operations

variable {style : Style} {op : BinaryOperator} {e lhs rhs : Term}

theorem render_graft_of_lt (hfinite : e.hasFiniteNumbers) (h : e.reread.render style = e.render style)
    (hop : op.precedence ≤ 3) (hlt : op.precedence < e.reread.level) (lhs : Term) :
    (graft op lhs e.reread).render style =
      parenthesized (needsParensLeft op lhs) (lhs.render style) ++ style.operator op ++ e.render style := by
  have hparens : needsParensRight op e.reread = false := by
    rw [show e.reread = enclosed false e.reread from rfl, needsParensRight_reread hfinite, needsParensRight,
      op.groupsRight_eq_false hop, isLooserThan_eq_false hlt]
    rfl
  rw [graft_of_ne lhs (Nat.ne_of_gt hlt), render, hparens, h]
  rfl

theorem Stable.of_tight (hfinite : e.hasFiniteNumbers) (h : e.reread.render style = e.render style)
    (hlevel : 3 < e.reread.level) : Stable style e where
  render_eq := h
  render_graft _ lhs hop _ := render_graft_of_lt hfinite h hop (by omega) lhs

theorem Stable.render_right (h : Stable style rhs) (hfinite : rhs.hasFiniteNumbers) (hop : op.precedence ≤ 3)
    (lhs : Term) :
    (graft op lhs (enclosed (needsParensRight op rhs) rhs.reread)).render style =
      parenthesized (needsParensLeft op lhs) (lhs.render style) ++ style.operator op ++
        parenthesized (needsParensRight op rhs) (rhs.render style) := by
  cases hparens : needsParensRight op rhs with
  | true =>
    have hlevel : (enclosed true rhs.reread).level ≠ op.precedence :=
      Nat.ne_of_gt (Nat.lt_of_le_of_lt hop (show 3 < 6 by decide))
    rw [graft_of_ne lhs hlevel, render, needsParensRight_reread hfinite, hparens, render_enclosed, h.render_eq]
  | false => exact h.render_graft op lhs hop (precedence_le_of_needsParensRight hparens)

theorem Stable.render_left {inner : BinaryOperator} (h : Stable style e) (hfinite : e.hasFiniteNumbers)
    (hop : op.precedence ≤ 3) (hinner : inner.precedence = op.precedence) (lhs : Term) :
    (graft op lhs (enclosed (needsParensLeft inner e) e.reread)).render style =
      parenthesized (needsParensLeft op lhs) (lhs.render style) ++ style.operator op ++
        parenthesized (needsParensLeft inner e) (e.render style) := by
  have hgroups := inner.groupsRight_eq_false (hinner ▸ hop)
  cases hparens : needsParensLeft inner e with
  | true =>
    have hloose : needsParensRight op e = true := by
      have hlooser : e.isLooserThan op.precedence = true := by
        rwa [needsParensLeft, hgroups, if_neg (by decide), hinner] at hparens
      have hmono : e.isLooserThan (op.precedence + 1) = true := by
        unfold isLooserThan at hlooser ⊢
        rw [Option.any_eq_true] at hlooser ⊢
        obtain ⟨p, hp, hlt⟩ := hlooser
        exact ⟨p, hp, by simp only [decide_eq_true_eq] at hlt ⊢; omega⟩
      rw [needsParensRight, op.groupsRight_eq_false hop, if_neg (by decide), hmono, hlooser]
      rfl
    have hlevel : (enclosed true e.reread).level ≠ op.precedence :=
      Nat.ne_of_gt (Nat.lt_of_le_of_lt hop (show 3 < 6 by decide))
    rw [graft_of_ne lhs hlevel, render, needsParensRight_reread hfinite, hloose, render_enclosed, h.render_eq]
  | false =>
    refine h.render_graft op lhs hop ?_
    have hlevel := leftLevel_le hparens
    rwa [BinaryOperator.leftLevel, hgroups, if_neg (by decide), hinner] at hlevel

theorem Stable.binary (hl : Stable style lhs) (hr : Stable style rhs) (hfinitel : lhs.hasFiniteNumbers)
    (hfiniter : rhs.hasFiniteNumbers) : Stable style (.binary op lhs rhs) := by
  have hfinite : (Expr.binary op lhs rhs).hasFiniteNumbers := by rw [hasFiniteNumbers, hfinitel, hfiniter]; rfl
  have hrender : (reread (.binary op lhs rhs)).render style = (Expr.binary op lhs rhs).render style := by
    rw [reread, join]
    cases hgroups : op.groupsRight with
    | true =>
      rw [if_pos rfl, render, render, needsParensLeft_reread hfinitel, needsParensRight_reread hfiniter,
        render_enclosed, render_enclosed, hl.render_eq, hr.render_eq]
    | false =>
      have hop : op.precedence ≤ 3 := by cases op <;> first | decide | cases hgroups
      rw [if_neg (by decide), hr.render_right hfiniter hop, needsParensLeft_reread hfinitel, render_enclosed,
        hl.render_eq, render]
  refine ⟨hrender, fun outer first houter hle => ?_⟩
  have hlevel : (reread (.binary op lhs rhs)).level = op.precedence := level_join op _ _
  rcases Nat.lt_or_eq_of_le hle with hlt | heq
  · exact render_graft_of_lt hfinite hrender houter hlt first
  · -- the chain of the operation goes on to the left
    have hinner : op.precedence = outer.precedence := (heq.trans hlevel).symm
    have hop : op.precedence ≤ 3 := hinner ▸ houter
    have hparens : ∀ operand, needsParensLeft op (graft outer first operand) = false := fun operand => by
      simp [needsParensLeft, op.groupsRight_eq_false hop, isLooserThan, precedence?_graft, hinner]
    rw [reread, join, op.groupsRight_eq_false hop, if_neg (by decide), graft_graft hinner,
      hr.render_right hfiniter hop, hparens, hl.render_left hfinitel houter hinner, render]
    simp only [parenthesized, Bool.false_eq_true, if_false, String.append_assoc]

end Operations

mutual
/-- Every expression with finite literals is stable. -/
theorem stable (style : Style) : (e : Term) → e.hasFiniteNumbers → Stable style e
  | .number value, hfinite => by
    refine .of_tight hfinite ?_ ?_
    · have hnonnegative := not_abs_lt_zero hfinite
      have htext := numberText_abs hfinite
      rw [reread]
      split
      case isTrue hlt =>
        rw [if_pos hlt] at htext
        simp [render, isLooserThan, precedence?, Numeral.isNegative, hnonnegative, parenthesized, Numeral.text, htext]
      case isFalse hlt =>
        rw [if_neg hlt, String.empty_append] at htext
        exact htext.symm
    · rw [reread]
      split
      · exact show 3 < 4 by decide
      · exact show 3 < 6 by decide
  | .text _, hfinite | .boolean _, hfinite | .reference _, hfinite =>
    .of_tight hfinite rfl (show 3 < 6 by decide)
  | .negate operand, hfinite => by
    refine .of_tight hfinite ?_ (show 3 < 4 by decide)
    rw [reread, render, render, isLooserThan_reread (e := operand) hfinite, render_enclosed,
      (stable style operand hfinite).render_eq]
  | .binary op lhs rhs, hfinite => by
    rw [hasFiniteNumbers, Bool.and_eq_true] at hfinite
    exact (stable style lhs hfinite.1).binary (stable style rhs hfinite.2) hfinite.1 hfinite.2
  | .call function args, hfinite => by
    refine .of_tight hfinite ?_ (show 3 < 6 by decide)
    rw [reread, render, render, renderArgs_rereadAll style args hfinite]
  | .group inner, hfinite => by
    have ih := stable style inner hfinite
    exact ⟨ih.render_eq, ih.render_graft⟩

theorem renderArgs_rereadAll (style : Style) : (args : List Term) → haveFiniteNumbers args →
    renderArgs style (rereadAll args) = renderArgs style args
  | [], _ => rfl
  | [arg], hfinite => by
    rw [haveFiniteNumbers, Bool.and_eq_true] at hfinite
    exact (stable style arg hfinite.1).render_eq
  | arg :: next :: more, hfinite => by
    rw [haveFiniteNumbers, Bool.and_eq_true] at hfinite
    have ih := renderArgs_rereadAll style (next :: more) hfinite.2
    simp only [rereadAll, renderArgs, (stable style arg hfinite.1).render_eq] at ih ⊢
    rw [ih]
end

/-- What the text of an expression is read as has the same text, and the same references in the same
order. -/
theorem render_parse_render {source : String} {style : Style} {e₀ e e' : Term} (hparse : parse source = .ok e₀)
    (he : e = e₀ ∨ e = (optimize e₀).expr) (hfinite : e.hasFiniteNumbers)
    (hread : parse (e.render style) = .ok e') : e'.render style = e.render style ∧ e'.references = e.references := by
  obtain rfl := parse_render (readable_optimize_of_parse hparse he) hfinite hread
  refine ⟨(stable style e hfinite).render_eq, ?_⟩
  rw [references, references, names_reread]

/-- A chain is grouped to the left when it is read back, and written as before. -/
theorem render_parse_render_chain : ∃ e e', parse "a + ((b) + SQRT(x * (y * 2)))" = .ok e ∧
    e.hasFiniteNumbers ∧ parse (e.render ⟨.upper, false⟩) = .ok e' ∧ e' ≠ e ∧
    e'.render ⟨.upper, false⟩ = e.render ⟨.upper, false⟩ ∧ e'.references = e.references := by
  obtain ⟨e, e', hparse, hread, h⟩ := exists_of_readings "a + ((b) + SQRT(x * (y * 2)))" ⟨.upper, false⟩
    (p := fun e e' => e.hasFiniteNumbers && e'.parts.length != e.parts.length) (by decide +kernel)
  rw [Bool.and_eq_true, bne_iff_ne] at h
  refine ⟨e, e', hparse, h.1, hread, fun heq => h.2 (by rw [heq]), ?_⟩
  exact render_parse_render hparse (.inl rfl) h.1 hread

end Parametric.Formula.Expr
