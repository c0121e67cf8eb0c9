import Parametric.Proofs.Formula.Optimization

/-!
# One simplification is enough

The rules of simplification as a relation of their own. Every rule gives a literal or an operand that is
simplified already, so no rule applies anywhere in a simplified expression.
-/

namespace Parametric.Formula

namespace Expr

variable {ν : Type} [Arithmetic ν]

/-! ## Rules -/

/-- An expression that a rule rewrites as a whole. Operations on literals are folded only if they have a
literal as their value, which is up to the arithmetic. -/
inductive IsRedex : Expr ν → Prop
  | group (inner : Expr ν) : IsRedex (.group inner)
  | negation (x : ν) : IsRedex (.negate (.number x))
  | operation {op : BinaryOperator} {x y : ν} {literal : Expr ν} (h : evalBinary op x y = some literal) :
      IsRedex (.binary op (.number x) (.number y))
  | unit {op : BinaryOperator} {lhs rhs e : Expr ν} (h : DropsUnit op lhs rhs e) : IsRedex (.binary op lhs rhs)
  | choice (condition : Bool) (e other : Expr ν) : IsRedex (.call .cond [.boolean condition, e, other])
  | application {function : Function} {args : List (Expr ν)} {literal : Expr ν}
      (h : evalCall function args = some literal) : IsRedex (.call function args)

/-- No rule applies to any part of an expression. -/
def IsNormal (e : Expr ν) : Prop := ∀ part ∈ e.parts, ¬part.IsRedex

/-! ## Where no rule applies -/

variable {op : BinaryOperator} {function : Function} {lhs rhs e : Expr ν} {args : List (Expr ν)}

theorem simplifyNegate_eq_self (h : ¬(Expr.negate e).IsRedex) : simplifyNegate e = (.negate e, 0) := by
  cases e with
  | number x => exact absurd (.negation x) h
  | _ => rfl

theorem simplifyBinary_eq_self (h : ¬(Expr.binary op lhs rhs).IsRedex) :
    simplifyBinary op lhs rhs = (.binary op lhs rhs, 0) := by
  simp only [simplifyBinary]
  split
  case h_1 literal hfolded =>
    split at hfolded
    · exact absurd (.operation hfolded) h
    · cases hfolded
  case h_2 =>
    split
    case h_1 e hunit => exact absurd (.unit (dropsUnit_of_withoutUnit hunit)) h
    case h_2 => rfl

theorem simplifyCall_eq_self (h : ¬(Expr.call function args).IsRedex) :
    simplifyCall function args = (.call function args, 0) := by
  unfold simplifyCall
  split
  case h_1 value other => exact absurd (.choice true value other) h
  case h_2 other value => exact absurd (.choice false other value) h
  case h_3 =>
    split
    case h_1 literal hfolded => exact absurd (.application hfolded) h
    case h_2 => rfl

/-! ## What rules give -/

theorem isNormal_number (x : ν) : (Expr.number x).IsNormal := by
  simp only [IsNormal, parts, List.mem_singleton, forall_eq]
  exact nofun

theorem isNormal_boolean (b : Bool) : (Expr.boolean b : Expr ν).IsNormal := by
  simp only [IsNormal, parts, List.mem_singleton, forall_eq]
  exact nofun

theorem isNormal_negate : (Expr.negate e).IsNormal ↔ ¬(Expr.negate e).IsRedex ∧ e.IsNormal := by
  simp only [IsNormal, parts, List.forall_mem_cons]

theorem isNormal_binary :
    (Expr.binary op lhs rhs).IsNormal ↔ ¬(Expr.binary op lhs rhs).IsRedex ∧ lhs.IsNormal ∧ rhs.IsNormal := by
  simp only [IsNormal, parts, List.forall_mem_cons, List.forall_mem_append]

theorem isNormal_call :
    (Expr.call function args).IsNormal ↔ ¬(Expr.call function args).IsRedex ∧ ∀ arg ∈ args, arg.IsNormal := by
  simp only [IsNormal, parts, List.forall_mem_cons, mem_partsAll]
  exact and_congr_right fun _ => ⟨fun h arg harg part hpart => h part ⟨arg, harg, hpart⟩,
    fun h part ⟨arg, harg, hpart⟩ => h arg harg part hpart⟩

theorem simplifyBinary_of_isRedex (h : (Expr.binary op lhs rhs).IsRedex) :
    (∃ value, (simplifyBinary op lhs rhs).1 = .number value) ∨
      (∃ value, (simplifyBinary op lhs rhs).1 = .boolean value) ∨
      (simplifyBinary op lhs rhs).1 = lhs ∨ (simplifyBinary op lhs rhs).1 = rhs := by
  simp only [simplifyBinary]
  split
  case h_1 literal hfolded =>
    split at hfolded
    · exact (evalBinary_eq_some hfolded).imp_right .inl
    · cases hfolded
  case h_2 hfolded =>
    split
    case h_1 e hunit => exact .inr (.inr (by cases dropsUnit_of_withoutUnit hunit <;> simp))
    case h_2 hunit =>
      cases h with
      | operation hliteral => exact absurd (hfolded.symm.trans hliteral) (by simp)
      | unit hdrops => exact absurd hunit hdrops.withoutUnit_ne_none

theorem simplifyCall_of_isRedex (h : (Expr.call function args).IsRedex) :
    (∃ value, (simplifyCall function args).1 = .number value) ∨
      (∃ value, (simplifyCall function args).1 = .boolean value) ∨ (simplifyCall function args).1 ∈ args := by
  unfold simplifyCall
  split
  case h_1 value other => exact .inr (.inr (by simp))
  case h_2 other value => exact .inr (.inr (by simp))
  case h_3 hother htrue hfalse =>
    split
    case h_1 literal hfolded => exact (evalCall_eq_some hfolded).imp_right .inl
    case h_2 hfolded =>
      cases h with
      | choice condition e other => cases condition <;> simp_all
      | application hliteral => exact absurd (hfolded.symm.trans hliteral) (by simp)

/-! ## Simplified expressions -/

theorem isNormal_simplifyNegate (h : e.IsNormal) : (simplifyNegate e).1.IsNormal := by
  by_cases hredex : (Expr.negate e).IsRedex
  · cases hredex with
    | negation x => exact isNormal_number _
  · rw [simplifyNegate_eq_self hredex]
    exact isNormal_negate.mpr ⟨hredex, h⟩

theorem isNormal_simplifyBinary (hl : lhs.IsNormal) (hr : rhs.IsNormal) :
    (simplifyBinary op lhs rhs).1.IsNormal := by
  by_cases hredex : (Expr.binary op lhs rhs).IsRedex
  · rcases simplifyBinary_of_isRedex hredex with ⟨value, heq⟩ | ⟨value, heq⟩ | heq | heq
    · exact heq ▸ isNormal_number value
    · exact heq ▸ isNormal_boolean value
    · rwa [heq]
    · rwa [heq]
  · rw [simplifyBinary_eq_self hredex]
    exact isNormal_binary.mpr ⟨hredex, hl, hr⟩

theorem isNormal_simplifyCall (h : ∀ arg ∈ args, arg.IsNormal) : (simplifyCall function args).1.IsNormal := by
  by_cases hredex : (Expr.call function args).IsRedex
  · rcases simplifyCall_of_isRedex hredex with ⟨value, heq⟩ | ⟨value, heq⟩ | hmem
    · exact heq ▸ isNormal_number value
    · exact heq ▸ isNormal_boolean value
    · exact h _ hmem
  · rw [simplifyCall_eq_self hredex]
    exact isNormal_call.mpr ⟨hredex, h⟩

mutual
/-- No rule applies to any part of a simplified expression. -/
theorem isNormal_simplify : (e : Expr ν) → e.simplify.1.IsNormal
  | .number x => isNormal_number x
  | .text _ | .reference _ => by
    simp only [IsNormal, simplify, parts, List.mem_singleton, forall_eq]
    exact nofun
  | .boolean b => isNormal_boolean b
  | .negate operand => isNormal_simplifyNegate (isNormal_simplify operand)
  | .binary _ lhs rhs => isNormal_simplifyBinary (isNormal_simplify lhs) (isNormal_simplify rhs)
  | .call _ args => isNormal_simplifyCall (isNormal_simplifyAll args)
  | .group inner => isNormal_simplify inner

theorem isNormal_simplifyAll : (args : List (Expr ν)) → ∀ arg ∈ (simplifyAll args).1, arg.IsNormal
  | [] => nofun
  | e :: rest => List.forall_mem_cons.mpr ⟨isNormal_simplify e, isNormal_simplifyAll rest⟩
end

mutual
/-- Simplification leaves an expression to which no rule applies as it is. -/
theorem simplify_of_isNormal : (e : Expr ν) → e.IsNormal → e.simplify = (e, 0)
  | .number _, _ | .text _, _ | .boolean _, _ | .reference _, _ => rfl
  | .negate operand, h => by
    obtain ⟨hredex, hoperand⟩ := isNormal_negate.mp h
    simp only [simplify, simplify_of_isNormal operand hoperand, simplifyNegate_eq_self hredex]
  | .binary op lhs rhs, h => by
    obtain ⟨hredex, hl, hr⟩ := isNormal_binary.mp h
    simp only [simplify, simplify_of_isNormal lhs hl, simplify_of_isNormal rhs hr,
      simplifyBinary_eq_self hredex]
  | .call function args, h => by
    obtain ⟨hredex, hargs⟩ := isNormal_call.mp h
    simp only [simplify, simplifyAll_of_isNormal args hargs, simplifyCall_eq_self hredex]
  | .group inner, h => absurd (.group inner) (h (.group inner) List.mem_cons_self)

theorem simplifyAll_of_isNormal :
    (args : List (Expr ν)) → (∀ arg ∈ args, arg.IsNormal) → simplifyAll args = (args, 0)
  | [], _ => rfl
  | e :: rest, h => by
    obtain ⟨he, hrest⟩ := List.forall_mem_cons.mp h
    simp only [simplifyAll, simplify_of_isNormal e he, simplifyAll_of_isNormal rest hrest]
end

/-- No rule applies to any part of an optimized expression. To optimize it once more takes no rewrites and
gives the same expression with the same warnings. This depends neither on what the operations and functions
on literals are, nor on where they have no literal as their value. -/
theorem optimize_optimize (e : Expr ν) :
    (optimize e).expr.IsNormal ∧ optimize (optimize e).expr = ⟨(optimize e).expr, 0, (optimize e).warnings⟩ := by
  have hnormal : (optimize e).expr.IsNormal := isNormal_simplify e
  refine ⟨hnormal, ?_⟩
  have hsame : (optimize e).expr.simplify = ((optimize e).expr, 0) := simplify_of_isNormal _ hnormal
  rw [optimize, hsame]
  rfl

end Expr

end Parametric.Formula
