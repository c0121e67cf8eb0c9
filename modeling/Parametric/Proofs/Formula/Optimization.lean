import Parametric.Proofs.Formula.Meaning
import Parametric.Proofs.Formula.References

/-!
# Simplification keeps the meaning

A simplified expression has the value of the expression under every reading of the operators in
which units are units and what is folded has the value of its literal.
-/

namespace Parametric.Formula

namespace Expr

/-! ## What is folded -/

/-- The literal that an application of an operator or a function to literals is folded to. -/
def folded? : Term → Option Term
  | .negate (.number value) => some (.number (Arithmetic.negate value))
  | .binary op (.number a) (.number b) => evalBinary op a b
  | .call function args => evalCall function args
  | _ => none

/-- An application with the literal that takes its place, if it is folded. -/
def folding (e : Term) : List (Term × Term) := (e.folded?.map (e, ·)).toList

mutual
/-- The applications that are folded while an expression is simplified, with their literals. Their
operands are simplified already. -/
def foldings : Term → List (Term × Term)
  | .negate operand => operand.foldings ++ folding (.negate operand.simplify.1)
  | .binary op lhs rhs =>
    lhs.foldings ++ rhs.foldings ++ folding (.binary op lhs.simplify.1 rhs.simplify.1)
  | .call function args => foldingsAll args ++ folding (.call function (simplifyAll args).1)
  | .group inner => inner.foldings
  | _ => []

/-- The applications that are folded while the expressions of a list are simplified. -/
def foldingsAll : List Term → List (Term × Term)
  | [] => []
  | e :: rest => e.foldings ++ foldingsAll rest
end

@[simp] theorem mem_folding {e literal : Term} {app : Term} :
    (app, literal) ∈ folding e ↔ e.folded? = some literal ∧ app = e := by
  simp only [folding, Option.mem_toList, Option.map_eq_some_iff, Prod.mk.injEq]
  constructor
  · rintro ⟨_, h, rfl, rfl⟩
    exact ⟨h, rfl⟩
  · rintro ⟨h, rfl⟩
    exact ⟨_, h, rfl, rfl⟩

mutual
theorem folded?_of_mem_foldings {app literal : Term} :
    (e : Term) → (app, literal) ∈ e.foldings → app.folded? = some literal
  | .negate operand, h => by
    rw [foldings, List.mem_append, mem_folding] at h
    rcases h with h | ⟨h, rfl⟩
    · exact folded?_of_mem_foldings operand h
    · exact h
  | .binary op lhs rhs, h => by
    rw [foldings, List.mem_append, List.mem_append, mem_folding] at h
    rcases h with (h | h) | ⟨h, rfl⟩
    · exact folded?_of_mem_foldings lhs h
    · exact folded?_of_mem_foldings rhs h
    · exact h
  | .call function args, h => by
    rw [foldings, List.mem_append, mem_folding] at h
    rcases h with h | ⟨h, rfl⟩
    · exact folded?_of_mem_foldingsAll args h
    · exact h
  | .group inner, h => folded?_of_mem_foldings inner h

theorem folded?_of_mem_foldingsAll {app literal : Term} :
    (args : List Term) → (app, literal) ∈ foldingsAll args → app.folded? = some literal
  | e :: rest, h => by
    rw [foldingsAll, List.mem_append] at h
    exact h.elim (folded?_of_mem_foldings e) (folded?_of_mem_foldingsAll rest)
end

/-! ## Groups -/

section Groups

variable {ν : Type}

theorem mem_partsAll {part : Expr ν} {args : List (Expr ν)} :
    part ∈ partsAll args ↔ ∃ e ∈ args, part ∈ e.parts := by
  induction args with
  | nil => simp [partsAll]
  | cons e rest ih => simp [partsAll, ih]

variable [Arithmetic ν] {inner : Expr ν}

theorem group_notMem_simplifyNegate {e : Expr ν} (h : .group inner ∉ e.parts) :
    .group inner ∉ (simplifyNegate e).1.parts := by
  cases e with
  | number | text | boolean | reference => simp [simplifyNegate, parts]
  | _ => simpa [simplifyNegate, parts] using h

theorem group_notMem_simplifyBinary {op : BinaryOperator} {lhs rhs : Expr ν} (hl : .group inner ∉ lhs.parts)
    (hr : .group inner ∉ rhs.parts) : .group inner ∉ (simplifyBinary op lhs rhs).1.parts := by
  rcases simplifyBinary_cases op lhs rhs with ⟨value, heq⟩ | ⟨value, heq⟩ | hmem
  · rw [heq]
    simp [parts]
  · rw [heq]
    simp [parts]
  · simp only [List.mem_cons, List.not_mem_nil, or_false] at hmem
    rcases hmem with heq | heq | heq
    · rwa [heq]
    · rwa [heq]
    · rw [heq]
      simp [parts, hl, hr]

theorem group_notMem_simplifyCall {function : Function} {args : List (Expr ν)}
    (h : .group inner ∉ partsAll args) : .group inner ∉ (simplifyCall function args).1.parts := by
  rcases simplifyCall_cases function args with ⟨value, heq⟩ | ⟨value, heq⟩ | hmem | heq
  · rw [heq]
    simp [parts]
  · rw [heq]
    simp [parts]
  · exact fun hpart => h (mem_partsAll.mpr ⟨_, hmem, hpart⟩)
  · rw [heq]
    simp [parts, h]

mutual
theorem group_notMem_simplify : (e : Expr ν) → .group inner ∉ e.simplify.1.parts
  | .number _ | .text _ | .boolean _ | .reference _ => by simp [simplify, parts]
  | .negate operand => group_notMem_simplifyNegate (group_notMem_simplify operand)
  | .binary _ lhs rhs => group_notMem_simplifyBinary (group_notMem_simplify lhs) (group_notMem_simplify rhs)
  | .call _ args => group_notMem_simplifyCall (group_notMem_simplifyAll args)
  | .group content => group_notMem_simplify content

theorem group_notMem_simplifyAll : (args : List (Expr ν)) → .group inner ∉ partsAll (simplifyAll args).1
  | [] => by simp [simplifyAll, partsAll]
  | e :: rest => by
    simp only [simplifyAll, partsAll, List.mem_append]
    exact fun h => h.elim (group_notMem_simplify e) (group_notMem_simplifyAll rest)
end

end Groups

end Expr

/-! ## Values -/

namespace Interpretation

open Parametric.Formula.Expr

variable {V : Type} {I : Interpretation V}

/-- Ones and zeros are units, and conditionals choose. A zero may have a minus sign. -/
structure Unital (I : Interpretation V) : Prop where
  mul_one : ∀ one : Float, one == 1.0 → ∀ x, I.binary .mul x (I.number one) = x
  one_mul : ∀ one : Float, one == 1.0 → ∀ x, I.binary .mul (I.number one) x = x
  add_zero : ∀ zero : Float, zero == 0.0 → ∀ x, I.binary .add x (I.number zero) = x
  zero_add : ∀ zero : Float, zero == 0.0 → ∀ x, I.binary .add (I.number zero) x = x
  sub_zero : ∀ zero : Float, zero == 0.0 → ∀ x, I.binary .sub x (I.number zero) = x
  div_one : ∀ one : Float, one == 1.0 → ∀ x, I.binary .div x (I.number one) = x
  pow_one : ∀ one : Float, one == 1.0 → ∀ x, I.binary .pow x (I.number one) = x
  cond_true : ∀ x y, I.call .cond [I.boolean true, x, y] = x
  cond_false : ∀ x y, I.call .cond [I.boolean false, x, y] = y

/-- Every application has the value of the literal that takes its place. -/
def Keeps (I : Interpretation V) (foldings : List (Term × Term)) : Prop :=
  ∀ folding ∈ foldings, I.eval folding.1 = I.eval folding.2

theorem keeps_append {foldings others : List (Term × Term)} :
    I.Keeps (foldings ++ others) ↔ I.Keeps foldings ∧ I.Keeps others := by
  simp only [Keeps, List.forall_mem_append]

theorem Keeps.eval_eq {e literal : Term} (h : I.Keeps (folding e)) (hfolded : e.folded? = some literal) :
    I.eval literal = I.eval e :=
  (h (e, literal) (mem_folding.mpr ⟨hfolded, rfl⟩)).symm

theorem eval_simplifyNegate {e : Term} (h : I.Keeps (folding (.negate e))) :
    I.eval (simplifyNegate e).1 = I.eval (.negate e) := by
  cases e with
  | number value => exact h.eval_eq rfl
  | _ => rfl

theorem Unital.eval_withoutUnit (hI : I.Unital) {op : BinaryOperator} {lhs rhs e : Term}
    (h : withoutUnit op lhs rhs = some e) : I.eval e = I.eval (.binary op lhs rhs) := by
  rw [eval]
  cases dropsUnit_of_withoutUnit h with
  | mulOne _ hone => exact (hI.mul_one _ hone _).symm
  | oneMul _ hone => exact (hI.one_mul _ hone _).symm
  | addZero _ hzero => exact (hI.add_zero _ hzero _).symm
  | zeroAdd _ hzero => exact (hI.zero_add _ hzero _).symm
  | subZero _ hzero => exact (hI.sub_zero _ hzero _).symm
  | divOne _ hone => exact (hI.div_one _ hone _).symm
  | powOne _ hone => exact (hI.pow_one _ hone _).symm

theorem Unital.eval_simplifyBinary (hI : I.Unital) {op : BinaryOperator} {lhs rhs : Term}
    (h : I.Keeps (folding (.binary op lhs rhs))) :
    I.eval (simplifyBinary op lhs rhs).1 = I.eval (.binary op lhs rhs) := by
  simp only [simplifyBinary]
  split
  case h_1 e hfolded =>
    split at hfolded
    · exact h.eval_eq hfolded
    · cases hfolded
  case h_2 =>
    split
    case h_1 e hunit => exact hI.eval_withoutUnit hunit
    case h_2 => rfl

theorem Unital.eval_simplifyCall (hI : I.Unital) {function : Function} {args : List Term}
    (h : I.Keeps (folding (.call function args))) :
    I.eval (simplifyCall function args).1 = I.eval (.call function args) := by
  unfold simplifyCall
  split
  case h_1 value other => exact (hI.cond_true _ _).symm
  case h_2 other value => exact (hI.cond_false _ _).symm
  case h_3 =>
    split
    case h_1 e hfolded => exact h.eval_eq hfolded
    case h_2 => rfl

mutual
/-- A simplified expression has the value of the expression, if what is folded keeps its value. -/
theorem Unital.eval_simplify (hI : I.Unital) :
    (e : Term) → I.Keeps e.foldings → I.eval e.simplify.1 = I.eval e
  | .number _, _ | .text _, _ | .boolean _, _ | .reference _, _ => rfl
  | .negate operand, h => by
    rw [foldings, keeps_append] at h
    calc I.eval (simplifyNegate operand.simplify.1).1
      _ = I.eval (.negate operand.simplify.1) := eval_simplifyNegate h.2
      _ = I.eval (.negate operand) := by rw [eval, eval, hI.eval_simplify operand h.1]
  | .binary op lhs rhs, h => by
    rw [foldings, keeps_append, keeps_append] at h
    calc I.eval (simplifyBinary op lhs.simplify.1 rhs.simplify.1).1
      _ = I.eval (.binary op lhs.simplify.1 rhs.simplify.1) := hI.eval_simplifyBinary h.2
      _ = I.eval (.binary op lhs rhs) := by
        rw [eval, eval, hI.eval_simplify lhs h.1.1, hI.eval_simplify rhs h.1.2]
  | .call function args, h => by
    rw [foldings, keeps_append] at h
    calc I.eval (simplifyCall function (simplifyAll args).1).1
      _ = I.eval (.call function (simplifyAll args).1) := hI.eval_simplifyCall h.2
      _ = I.eval (.call function args) := by rw [eval, eval, hI.evalAll_simplifyAll args h.1]
  | .group inner, h => hI.eval_simplify inner h

theorem Unital.evalAll_simplifyAll (hI : I.Unital) :
    (args : List Term) → I.Keeps (foldingsAll args) → I.evalAll (simplifyAll args).1 = I.evalAll args
  | [], _ => rfl
  | e :: rest, h => by
    rw [foldingsAll, keeps_append] at h
    simp only [simplifyAll, evalAll, hI.eval_simplify e h.1, hI.evalAll_simplifyAll rest h.2]
end

/-- Optimization keeps the value, references nothing new, and leaves no parentheses. Only what is
folded in the expression has to keep its value: literals are rounded when they are folded, and asked
of all literals at once that would leave a single value. -/
theorem Unital.eval_optimize (hI : I.Unital) {e : Term} (hkeeps : I.Keeps e.foldings) :
    I.eval (optimize e).expr = I.eval e ∧
      (∀ name ∈ (optimize e).expr.names, name ∈ e.names) ∧
      (∀ key ∈ (optimize e).expr.references.map keyOf, key ∈ e.references.map keyOf) ∧
      ∀ inner, .group inner ∉ (optimize e).expr.parts :=
  ⟨hI.eval_simplify e hkeeps, fun _ => names_simplify e, keys_references_optimize e,
    fun _ => group_notMem_simplify e⟩

/-! ## Rational numbers -/

/-- The value of a floating-point number; infinities and NaN count as zero. -/
def rationalValue : Float.Model.UnpackedFloat → ℚ
  | .finite sign mantissa exponent _ => sign.apply mantissa * 2 ^ exponent
  | _ => 0

/-- Exact values as rational numbers, with truth values as one and zero. Texts, and functions and
powers without a rational value, count as zero. -/
def rational (value : String → ℚ) : Interpretation ℚ where
  number x := rationalValue x.toModel.unpack
  text _ := 0
  boolean b := if b then 1 else 0
  name := value
  negate x := -x
  binary
    | .add, x, y => x + y
    | .sub, x, y => x - y
    | .mul, x, y => x * y
    | .div, x, y => x / y
    | .rem, x, y => x - y * ((x / y).num.tdiv (x / y).den : ℤ)
    | .pow, x, y => if y.den = 1 then x ^ y.num else 0
    | .eq, x, y => if x = y then 1 else 0
    | .ne, x, y => if x ≠ y then 1 else 0
    | .lt, x, y => if x < y then 1 else 0
    | .gt, x, y => if y < x then 1 else 0
    | .le, x, y => if x ≤ y then 1 else 0
    | .ge, x, y => if y ≤ x then 1 else 0
  call
    | .cond, [condition, x, y] => if condition = 0 then y else x
    | .not, [condition] => if condition = 0 then 1 else 0
    | .and, conditions => if 0 ∈ conditions then 0 else 1
    | .or, conditions => if ∃ condition ∈ conditions, condition ≠ 0 then 1 else 0
    | .abs, [x] => |x|
    | .round, [x] => round x
    | _, _ => 0

theorem eq_of_beq_one {u : Float.Model.UnpackedFloat} (h : u.beq (1.0 : Float).toModel.unpack) :
    u = .finite .positive (2 ^ 52) (-52) (by decide) := by
  have hone : (1.0 : Float).toModel.unpack = .finite .positive (2 ^ 52) (-52) (by decide) :=
    Number.unpack_of_ofFloat? (d := ⟨false, 2 ^ 52, -52⟩) (by decide +kernel)
  rw [hone] at h
  cases u with
  | notANumber => cases h
  | infinity sign => cases sign <;> cases h
  | zero sign => cases h
  | finite sign mantissa exponent hpos =>
    cases sign with
    | negative => cases h
    | positive =>
      simp [Float.Model.UnpackedFloat.beq, Float.Model.UnpackedFloat.compare] at h
      obtain ⟨rfl, rfl⟩ := h
      rfl

theorem exists_of_beq_zero {u : Float.Model.UnpackedFloat} (h : u.beq (0.0 : Float).toModel.unpack) :
    ∃ sign, u = .zero sign := by
  rw [Number.unpack_zero] at h
  cases u with
  | notANumber => cases h
  | infinity sign => cases sign <;> cases h
  | zero sign => exact ⟨sign, rfl⟩
  | finite sign mantissa exponent hpos => cases sign <;> cases h

theorem rationalValue_of_beq_one {one : Float} (h : one == 1.0) : rationalValue one.toModel.unpack = 1 := by
  rw [eq_of_beq_one h]
  norm_num [rationalValue, Float.Model.UnpackedFloat.Sign.apply]

theorem rationalValue_of_beq_zero {zero : Float} (h : zero == 0.0) : rationalValue zero.toModel.unpack = 0 := by
  obtain ⟨sign, hzero⟩ := exists_of_beq_zero h
  rw [hzero]
  rfl

theorem rational_unital (value : String → ℚ) : (rational value).Unital where
  mul_one one h x := by simp [rational, rationalValue_of_beq_one h]
  one_mul one h x := by simp [rational, rationalValue_of_beq_one h]
  add_zero zero h x := by simp [rational, rationalValue_of_beq_zero h]
  zero_add zero h x := by simp [rational, rationalValue_of_beq_zero h]
  sub_zero zero h x := by simp [rational, rationalValue_of_beq_zero h]
  div_one one h x := by simp [rational, rationalValue_of_beq_one h]
  pow_one one h x := by simp [rational, rationalValue_of_beq_one h]
  cond_true x y := by simp [rational]
  cond_false x y := by simp [rational]

/-- The expression `if(not(false), (x), y) * 1 + -0`, where a call and a negation are folded. -/
def redundant : Term :=
  .binary .add
    (.binary .mul (.call .cond [.call .not [.boolean false], .group (.reference "x"), .reference "y"]) (.number 1.0))
    (.negate (.number 0.0))

theorem eval_optimize_redundant :
    (rational fun _ => 2).Unital ∧ (rational fun _ => 2).Keeps redundant.foldings ∧
      (rational fun _ => 2).eval (optimize redundant).expr = (rational fun _ => 2).eval redundant ∧
      (∀ name ∈ (optimize redundant).expr.names, name ∈ redundant.names) ∧
      (∀ key ∈ (optimize redundant).expr.references.map keyOf, key ∈ redundant.references.map keyOf) ∧
      ∀ inner, .group inner ∉ (optimize redundant).expr.parts := by
  have hfoldings : redundant.foldings = [(.call .not [.boolean false], .boolean true),
      (.negate (.number 0.0), .number (-0.0))] := by rfl
  have hzero : rationalValue (0.0 : Float).toModel.unpack = 0 := rationalValue_of_beq_zero (by decide +kernel)
  have hnegative : rationalValue (-0.0 : Float).toModel.unpack = 0 :=
    rationalValue_of_beq_zero (by decide +kernel)
  have hkeeps : (rational fun _ => 2).Keeps redundant.foldings := by
    rw [hfoldings]
    simp [Keeps, eval, evalAll, rational, hzero, hnegative]
  exact ⟨rational_unital _, hkeeps, (rational_unital _).eval_optimize hkeeps⟩

end Interpretation

end Parametric.Formula
