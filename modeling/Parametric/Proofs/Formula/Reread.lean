import Parametric.Formula.Parser
import Parametric.Formula.Printer

/-!
# Reading back what was written

What the parser makes of a written expression: the parentheses that were written are groups, other
groups are gone, negative literals are negations, and an operand that shares the chain of its
operator is hung into it at the left end.
-/

namespace Parametric.Formula

/-- The level of an operand that no operator takes apart. -/
def closedLevel : Nat := 6

def BinaryOperator.leftLevel (op : BinaryOperator) : Nat :=
  if op.groupsRight then op.precedence + 1 else op.precedence

def BinaryOperator.rightLevel (op : BinaryOperator) : Nat :=
  if op.groupsRight then op.precedence else op.precedence + 1

theorem BinaryOperator.precedence_le (op : BinaryOperator) : op.precedence ≤ 5 := by
  cases op <;> decide

theorem BinaryOperator.level_cases (op : BinaryOperator) :
    op.precedence ≤ 3 ∧ op.leftLevel = op.precedence ∧ op.rightLevel = op.precedence + 1 ∨
      op.precedence = 5 ∧ op.leftLevel = 6 ∧ op.rightLevel = 5 := by
  cases op <;> decide

theorem BinaryOperator.groupsRight_eq_false {op : BinaryOperator} (h : op.precedence ≤ 3) :
    op.groupsRight = false := by
  cases op <;> first | rfl | exact absurd h (by decide)

namespace Expr

/-! ## Trees as the parser builds them -/

/-- How tightly the outermost operation of a parsed expression binds. -/
def level : Term → Nat
  | .binary op _ _ => op.precedence
  | .negate _ => negationPrecedence
  | _ => closedLevel

/-- The least precedence of an operator that would be drawn into an expression it follows. -/
def edge : Term → Nat
  | .binary op _ rhs => min op.rightLevel rhs.edge
  | .negate operand => min negationPrecedence operand.edge
  | _ => closedLevel

mutual
/-- Whether every operand binds tightly enough for its place. -/
def Canonical : Term → Prop
  | .negate operand => operand.Canonical ∧ negationPrecedence ≤ operand.level
  | .binary op lhs rhs =>
    lhs.Canonical ∧ rhs.Canonical ∧ op.leftLevel ≤ lhs.level ∧ op.rightLevel ≤ rhs.level
  | .call function args => function.accepts args.length ∧ AllCanonical args
  | .group inner => inner.Canonical
  | _ => True

def AllCanonical : List Term → Prop
  | [] => True
  | e :: rest => e.Canonical ∧ AllCanonical rest
end

theorem le_edge : (e : Term) → e.Canonical → ∀ k ≤ e.level, k ≤ e.edge ∧ (k ≤ 3 → k < e.edge)
  | .binary op lhs rhs, hc, k, hk => by
    obtain ⟨-, hrhs, -, hright⟩ := hc
    have ih := le_edge rhs hrhs op.rightLevel hright
    simp only [level] at hk
    simp only [edge]
    have := op.level_cases
    omega
  | .negate operand, hc, k, hk => by
    have ih := le_edge operand hc.1 negationPrecedence hc.2
    simp only [level, negationPrecedence] at hk ih
    simp only [edge, negationPrecedence]
    omega
  | .number _, _, k, hk | .text _, _, k, hk | .boolean _, _, k, hk | .reference _, _, k, hk
  | .call _ _, _, k, hk | .group _, _, k, hk => by
    simp only [level, closedLevel] at hk
    simp only [edge, closedLevel]
    omega

/-! ## Chains -/

/-- An operation whose right operand is hung into the chain at its left end. -/
def graft (op : BinaryOperator) (lhs : Term) : Term → Term
  | .binary inner first second =>
    if inner.precedence = op.precedence then .binary inner (graft op lhs first) second
    else .binary op lhs (.binary inner first second)
  | rhs => .binary op lhs rhs

theorem graft_of_ne {op : BinaryOperator} (lhs : Term) {rhs : Term} (h : rhs.level ≠ op.precedence) :
    graft op lhs rhs = .binary op lhs rhs := by
  cases rhs with
  | binary inner first second => exact if_neg h
  | _ => rfl

/-- The expression that a left operand, an operator and a right operand are read as. -/
def join (op : BinaryOperator) (lhs rhs : Term) : Term :=
  if op.groupsRight then .binary op lhs rhs else graft op lhs rhs

/-- An operand as it stands in an operation, in parentheses where they are needed. -/
def enclosed (needed : Bool) (e : Term) : Term := if needed then .group e else e

mutual
/-- The expression that the text of an expression is read as. -/
def reread : Term → Term
  | .number value => if value < 0.0 then .negate (.number value.abs) else .number value.abs
  | .text value => .text value
  | .boolean value => .boolean value
  | .reference name => .reference name
  | .negate operand => .negate (enclosed (operand.isLooserThan negationPrecedence) operand.reread)
  | .binary op lhs rhs =>
    join op (enclosed (needsParensLeft op lhs) lhs.reread) (enclosed (needsParensRight op rhs) rhs.reread)
  | .call function args => .call function (rereadAll args)
  | .group inner => inner.reread

def rereadAll : List Term → List Term
  | [] => []
  | e :: rest => e.reread :: rereadAll rest
end

@[simp] theorem length_rereadAll (args : List Term) : (rereadAll args).length = args.length := by
  induction args with
  | nil => rfl
  | cons e rest ih => simp only [rereadAll, List.length_cons, ih]

theorem level_graft (op : BinaryOperator) (lhs rhs : Term) : (graft op lhs rhs).level = op.precedence := by
  unfold graft
  split
  case h_1 inner first second =>
    split
    case isTrue h => exact h
    case isFalse => rfl
  case h_2 => rfl

theorem level_join (op : BinaryOperator) (lhs rhs : Term) : (join op lhs rhs).level = op.precedence := by
  unfold join
  split
  · rfl
  · exact level_graft op lhs rhs

theorem level_reread : (e : Term) → e.reread.level = e.precedence?.getD closedLevel
  | .number value => by
    simp only [reread, precedence?, Numeral.isNegative, decide_eq_true_eq]
    split <;> rfl
  | .text _ | .boolean _ | .reference _ | .call _ _ => rfl
  | .negate _ => rfl
  | .binary op lhs rhs => by
    simp only [reread, precedence?, level_join, Option.getD_some]
  | .group inner => by
    simp only [reread, precedence?]
    exact level_reread inner

theorem le_level_reread {e : Term} {k : Nat} (hk : k ≤ closedLevel) (h : e.isLooserThan k = false) :
    k ≤ e.reread.level := by
  rw [level_reread]
  unfold isLooserThan at h
  cases hp : e.precedence? with
  | none => exact hk
  | some p =>
    rw [hp] at h
    simpa using h

theorem canonical_graft {op : BinaryOperator} (hop : op.precedence ≤ 3) {lhs : Term} (hl : lhs.Canonical)
    (hlevel : op.leftLevel ≤ lhs.level) :
    (rhs : Term) → rhs.Canonical → op.precedence ≤ rhs.level → (graft op lhs rhs).Canonical
  | .binary inner first second, hr, hrlevel => by
    unfold graft
    split
    case isTrue h =>
      obtain ⟨hfirst, hsecond, hleft, hright⟩ := hr
      have hinner := inner.level_cases
      refine ⟨canonical_graft hop hl hlevel first hfirst (by omega), hsecond, ?_, hright⟩
      rw [level_graft]
      omega
    case isFalse h =>
      simp only [level] at hrlevel
      refine ⟨hl, hr, hlevel, ?_⟩
      have := op.level_cases
      simp only [level]
      omega
  | .negate operand, hr, _ => by
    refine ⟨hl, hr, hlevel, ?_⟩
    have := op.level_cases
    simp only [level, negationPrecedence]
    omega
  | .number _, hr, _ | .text _, hr, _ | .boolean _, hr, _ | .reference _, hr, _ | .call _ _, hr, _
  | .group _, hr, _ => by
    refine ⟨hl, hr, hlevel, ?_⟩
    have := op.level_cases
    simp only [level, closedLevel]
    omega

theorem canonical_enclosed {e : Term} (needed : Bool) (h : e.Canonical) : (enclosed needed e).Canonical := by
  cases needed <;> exact h

theorem le_level_enclosed {e : Term} {needed : Bool} {k : Nat} (hk : k ≤ closedLevel)
    (h : needed = false → k ≤ e.level) : k ≤ (enclosed needed e).level := by
  cases needed with
  | true => exact hk
  | false => exact h rfl

theorem leftLevel_le {op : BinaryOperator} {lhs : Term} (h : needsParensLeft op lhs = false) :
    op.leftLevel ≤ lhs.reread.level := by
  have hop := op.level_cases
  unfold needsParensLeft at h
  unfold BinaryOperator.leftLevel
  split at h
  case isTrue hg =>
    rw [if_pos hg]
    exact le_level_reread (by simp only [closedLevel]; omega) h
  case isFalse hg =>
    rw [if_neg hg]
    exact le_level_reread (by simp only [closedLevel]; omega) h

theorem precedence_le_of_needsParensRight {op : BinaryOperator} {rhs : Term}
    (h : needsParensRight op rhs = false) : op.precedence ≤ rhs.reread.level := by
  have hop := op.level_cases
  unfold needsParensRight at h
  split at h
  case isTrue => exact le_level_reread (by simp only [closedLevel]; omega) h
  case isFalse =>
    rcases (Bool.and_eq_false_iff.mp h) with h | h
    · have := le_level_reread (e := rhs) (k := op.precedence + 1) (by simp only [closedLevel]; omega) h
      omega
    · exact le_level_reread (by simp only [closedLevel]; omega) (Bool.or_eq_false_iff.mp h).1

end Expr

/-! ## Readable expressions -/

/-- Whether a name is the same between brackets, where it ends with the first closing one. -/
structure FitsBrackets (name : String) : Prop where
  trim_eq : Text.trim name = name
  ne_empty : name ≠ ""
  close_notMem : ']' ∉ name.toList

def FitsQuotes (value : String) : Prop := '"' ∉ value.toList

namespace Expr

mutual
/-- Whether the texts of an expression fit their quotes and its names fit in some sense, and its calls have
as many arguments as their functions accept. -/
def Readable (fits : String → Prop) : Term → Prop
  | .text value => FitsQuotes value
  | .reference name => fits name
  | .negate operand => operand.Readable fits
  | .binary _ lhs rhs => lhs.Readable fits ∧ rhs.Readable fits
  | .call function args => function.accepts args.length ∧ AllReadable fits args
  | .group inner => inner.Readable fits
  | _ => True

def AllReadable (fits : String → Prop) : List Term → Prop
  | [] => True
  | e :: rest => e.Readable fits ∧ AllReadable fits rest
end

variable {fits : String → Prop}

mutual
/-- What is read back is as the parser builds it. -/
theorem canonical_reread : (e : Term) → e.Readable fits → e.reread.Canonical
  | .number value, _ => by
    simp only [reread]
    split
    · exact ⟨trivial, show 4 ≤ 6 by decide⟩
    · trivial
  | .text _, _ | .boolean _, _ | .reference _, _ => trivial
  | .negate operand, h => by
    refine ⟨canonical_enclosed _ (canonical_reread operand h), ?_⟩
    exact le_level_enclosed (by decide) fun hn => le_level_reread (by decide) hn
  | .binary op lhs rhs, h => by
    have hop := op.level_cases
    have hl := canonical_enclosed (needsParensLeft op lhs) (canonical_reread lhs h.1)
    have hr := canonical_enclosed (needsParensRight op rhs) (canonical_reread rhs h.2)
    have hleft : op.leftLevel ≤ (enclosed (needsParensLeft op lhs) lhs.reread).level :=
      le_level_enclosed (by simp only [closedLevel]; omega) leftLevel_le
    have hright : op.precedence ≤ (enclosed (needsParensRight op rhs) rhs.reread).level :=
      le_level_enclosed (by simp only [closedLevel]; omega) precedence_le_of_needsParensRight
    simp only [reread, join]
    split
    case isTrue hg =>
      refine ⟨hl, hr, hleft, ?_⟩
      rwa [BinaryOperator.rightLevel, if_pos hg]
    case isFalse hg =>
      refine canonical_graft ?_ hl hleft _ hr hright
      rw [BinaryOperator.leftLevel, if_neg hg] at hop
      omega
  | .call function args, h => by
    refine ⟨?_, canonical_rereadAll args h.2⟩
    rw [length_rereadAll]
    exact h.1
  | .group inner, h => canonical_reread inner h

theorem canonical_rereadAll : (args : List Term) → AllReadable fits args → AllCanonical (rereadAll args)
  | [], _ => trivial
  | e :: rest, h => ⟨canonical_reread e h.1, canonical_rereadAll rest h.2⟩
end

end Expr

end Parametric.Formula
