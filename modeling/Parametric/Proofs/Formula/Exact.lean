import Mathlib.Algebra.Order.Floor.Ring
import Mathlib.Data.Rat.Floor
import Parametric.Proofs.Formula.References

/-!
# Exact values of simplified expressions

With rational numbers as literals, folding is exact apart from its rounding. A simplified expression has the
value of the expression in which every operation on constants is rounded, so it divides by zero exactly
where rounding makes a divisor vanish.
-/

namespace Parametric.Formula

/-! ## Rational literals -/

/-- A rational number rounded to twelve decimal places, halves away from zero. -/
def roundRational (x : ℚ) : ℚ :=
  (if x < 0 then -(⌊-x * 10 ^ 12 + 1 / 2⌋ : ℚ) else ⌊x * 10 ^ 12 + 1 / 2⌋) / 10 ^ 12

/-- The value of an operation on rational numbers, if it is one of the four basic ones and does not divide
by zero. -/
def operateRational : BinaryOperator → ℚ → ℚ → Option ℚ
  | .add, x, y => some (x + y)
  | .sub, x, y => some (x - y)
  | .mul, x, y => some (x * y)
  | .div, x, y => if y = 0 then none else some (x / y)
  | _, _, _ => none

/-- Exact arithmetic, of which the results are rounded when they are folded. -/
instance : Arithmetic ℚ where
  isNegative x := x < 0
  text x := toString x
  isZero x := x = 0
  isOne x := x = 1
  negate x := -x
  add x y := (operateRational .add x y).map roundRational
  sub x y := (operateRational .sub x y).map roundRational
  mul x y := (operateRational .mul x y).map roundRational
  div x y := (operateRational .div x y).map roundRational
  rem _ _ := none
  pow _ _ := none
  eq x y := x = y
  lt x y := x < y
  le x y := x ≤ y
  apply _ _ := none

namespace Expr

def IsBasic (op : BinaryOperator) : Prop := op = .add ∨ op = .sub ∨ op = .mul ∨ op = .div

/-- Whether an expression consists of numbers, references, the four basic operators, negations and
parentheses. -/
def IsBasicArithmetic {ν : Type} : Expr ν → Prop
  | .number _ | .reference _ => True
  | .negate operand => operand.IsBasicArithmetic
  | .binary op lhs rhs => IsBasic op ∧ lhs.IsBasicArithmetic ∧ rhs.IsBasicArithmetic
  | .group inner => inner.IsBasicArithmetic
  | _ => False

/-- The value of an expression in which the result of every operation without references is rounded. There
is none where the expression divides by zero. -/
def valueRoundedBy? (round : ℚ → ℚ) (value : String → ℚ) : Expr ℚ → Option ℚ
  | .number x => some x
  | .reference name => some (value name)
  | .negate operand => (operand.valueRoundedBy? round value).map (-·)
  | .binary op lhs rhs =>
    (lhs.valueRoundedBy? round value).bind fun x =>
      (rhs.valueRoundedBy? round value).bind fun y =>
        (operateRational op x y).map (if lhs.names = [] ∧ rhs.names = [] then round else id)
  | .group inner => inner.valueRoundedBy? round value
  | _ => none

/-- The exact value of an expression, if it does not divide by zero. -/
def value? (value : String → ℚ) (e : Expr ℚ) : Option ℚ := e.valueRoundedBy? id value

variable {value : String → ℚ} {op : BinaryOperator} {lhs rhs l r e s : Expr ℚ} {x y : ℚ}

@[simp] theorem value?_number : (Expr.number x).value? value = some x := rfl

@[simp] theorem value?_negate : (Expr.negate e).value? value = (e.value? value).map (-·) := rfl

theorem value?_binary : (Expr.binary op lhs rhs).value? value =
    (lhs.value? value).bind fun x => (rhs.value? value).bind fun y => operateRational op x y := by
  simp only [value?, valueRoundedBy?, ite_self, Option.map_id_fun, id_eq]

theorem evalBinary_eq_map (h : IsBasic op) :
    evalBinary op x y = (operateRational op x y).map fun z => .number (roundRational z) := by
  rcases h with rfl | rfl | rfl | rfl
  all_goals
    simp only [evalBinary, Arithmetic.add, Arithmetic.sub, Arithmetic.mul, Arithmetic.div, Option.map_map]
    rfl

theorem DropsUnit.value?_eq (h : DropsUnit op lhs rhs e) (hop : IsBasic op) :
    e.value? value = (Expr.binary op lhs rhs).value? value := by
  have isOne_eq : ∀ {one : ℚ}, Arithmetic.isOne one = true → one = 1 := of_decide_eq_true
  have isZero_eq : ∀ {zero : ℚ}, Arithmetic.isZero zero = true → zero = 0 := of_decide_eq_true
  rw [value?_binary]
  cases h with
  | mulOne _ hone | oneMul _ hone | divOne _ hone => simp [operateRational, isOne_eq hone]
  | addZero _ hzero | zeroAdd _ hzero | subZero _ hzero => simp [operateRational, isZero_eq hzero]
  | powOne => simp [IsBasic] at hop

theorem DropsUnit.names_eq (h : DropsUnit op lhs rhs e) : e.names = lhs.names ++ rhs.names := by
  cases h <;> simp [names]

/-! ## Simplified expressions -/

/-- An expression `s` has the value that `e` has with rounding, and it is a literal if `e` has no references. -/
structure Rounds (value : String → ℚ) (e s : Expr ℚ) : Prop where
  value_eq : s.value? value = e.valueRoundedBy? roundRational value
  names : s.names = [] ↔ e.names = []
  constant : e.names = [] → ∀ x, e.valueRoundedBy? roundRational value = some x → s = .number x

theorem Rounds.negate (h : Rounds value e s) : Rounds value (.negate e) (simplifyNegate s).1 := by
  have hvalue : (simplifyNegate s).1.value? value = (s.value? value).map (-·) := by
    cases s <;> rfl
  constructor
  case value_eq => rw [hvalue, h.value_eq, valueRoundedBy?]
  case names => rw [names_simplifyNegate, h.names, Expr.names]
  case constant =>
    intro hnames x hx
    obtain ⟨y, hy, rfl⟩ := Option.map_eq_some_iff.mp hx
    rw [h.constant hnames y hy]
    rfl

theorem Rounds.fold (hl : Rounds value lhs (.number x)) (hr : Rounds value rhs (.number y)) (hop : IsBasic op) :
    Rounds value (.binary op lhs rhs) (simplifyBinary op (.number x) (.number y)).1 := by
  have hvalue : (Expr.binary op lhs rhs).valueRoundedBy? roundRational value =
      (operateRational op x y).map roundRational := by
    rw [valueRoundedBy?, ← hl.value_eq, ← hr.value_eq, if_pos ⟨hl.names.mp rfl, hr.names.mp rfl⟩]
    rfl
  have hnames : (Expr.binary op lhs rhs).names = [] := by
    rw [Expr.names, hl.names.mp rfl, hr.names.mp rfl]
    rfl
  cases hz : operateRational op x y with
  | some z =>
    have hfolded : (simplifyBinary op (.number x) (.number y)).1 = .number (roundRational z) := by
      simp only [simplifyBinary, evalBinary_eq_map hop, hz, Option.map_some]
    rw [hfolded]
    constructor
    case value_eq => rw [hvalue, hz, value?_number, Option.map_some]
    case names => rw [hnames, Expr.names]
    case constant =>
      intro _ w hw
      rw [hvalue, hz] at hw
      rw [← Option.some.inj hw]
  | none =>
    -- Only a division by zero has no value, and zero is no unit of the division.
    obtain ⟨rfl, rfl⟩ : op = .div ∧ y = 0 := by
      rcases hop with rfl | rfl | rfl | rfl <;> simp_all [operateRational]
    have hkept : simplifyBinary .div (.number x) (.number 0) = (.binary .div (.number x) (.number 0), 0) := by
      simp [simplifyBinary, evalBinary, Arithmetic.div, operateRational, withoutUnit, isOne, number?, Arithmetic.isOne]
    rw [hkept]
    constructor
    case value_eq =>
      rw [hvalue, hz, value?_binary, value?_number, value?_number, Option.bind_some, Option.bind_some, hz]
      rfl
    case names => rw [hnames, Expr.names, Expr.names, Expr.names, List.append_nil]
    case constant =>
      intro _ w hw
      rw [hvalue, hz] at hw
      cases hw

theorem Rounds.binary (hl : Rounds value lhs l) (hr : Rounds value rhs r) (hop : IsBasic op) :
    Rounds value (.binary op lhs rhs) (simplifyBinary op l r).1 := by
  by_cases hnumbers : ∃ x y, l = .number x ∧ r = .number y
  · obtain ⟨x, y, rfl, rfl⟩ := hnumbers
    exact hl.fold hr hop
  · -- Constants whose values are there are literals, so there is nothing to round.
    have hvalue : (Expr.binary op lhs rhs).valueRoundedBy? roundRational value =
        (Expr.binary op l r).value? value := by
      rw [value?_binary, hl.value_eq, hr.value_eq, valueRoundedBy?]
      refine Option.bind_congr fun x hx => Option.bind_congr fun y hy => ?_
      rw [if_neg, Option.map_id_fun, id_eq]
      rintro ⟨hlnames, hrnames⟩
      exact hnumbers ⟨x, y, hl.constant hlnames x hx, hr.constant hrnames y hy⟩
    have hconstant : (Expr.binary op lhs rhs).names = [] →
        ∀ x, (Expr.binary op lhs rhs).valueRoundedBy? roundRational value ≠ some x := by
      intro hnames z hz
      rw [Expr.names, List.append_eq_nil_iff] at hnames
      rw [valueRoundedBy?] at hz
      obtain ⟨x, hx, hz⟩ := Option.bind_eq_some_iff.mp hz
      obtain ⟨y, hy, -⟩ := Option.bind_eq_some_iff.mp hz
      exact hnumbers ⟨x, y, hl.constant hnames.1 x hx, hr.constant hnames.2 y hy⟩
    have hsimple : (simplifyBinary op l r).1 = (withoutUnit op l r).getD (.binary op l r) := by
      simp only [simplifyBinary]
      split
      case h_1 literal hfolded =>
        split at hfolded
        · exact absurd ⟨_, _, rfl, rfl⟩ hnumbers
        · cases hfolded
      case h_2 => cases withoutUnit op l r <;> rfl
    have hnames : (Expr.binary op lhs rhs).names = [] ↔ l.names ++ r.names = [] := by
      rw [Expr.names, List.append_eq_nil_iff, List.append_eq_nil_iff, hl.names, hr.names]
    rw [hsimple]
    cases hunit : withoutUnit op l r with
    | some e =>
      have hdrops := dropsUnit_of_withoutUnit hunit
      constructor
      case value_eq => rw [hvalue, Option.getD_some, hdrops.value?_eq hop]
      case names => rw [hnames, Option.getD_some, hdrops.names_eq]
      case constant => exact fun hclosed x hx => absurd hx (hconstant hclosed x)
    | none =>
      constructor
      case value_eq => rw [hvalue, Option.getD_none]
      case names => rw [hnames, Option.getD_none, Expr.names]
      case constant => exact fun hclosed x hx => absurd hx (hconstant hclosed x)

/-- Simplification rounds the result of every operation on constants and changes nothing else. -/
theorem rounds_simplify : (e : Expr ℚ) → e.IsBasicArithmetic → Rounds value e e.simplify.1
  | .number x, _ => ⟨rfl, .rfl, fun _ _ h => congrArg Expr.number (Option.some.inj h)⟩
  | .reference name, _ => ⟨rfl, .rfl, fun h => by simp [names] at h⟩
  | .negate operand, h => (rounds_simplify operand h).negate
  | .binary _ lhs rhs, h => (rounds_simplify lhs h.2.1).binary (rounds_simplify rhs h.2.2) h.1
  | .group inner, h =>
    have hinner := rounds_simplify inner h
    ⟨hinner.value_eq, hinner.names, hinner.constant⟩

/-- An optimized expression divides only by non-zero values exactly if the expression does once the result of
every operation on constants is rounded, and then the two have the same value. -/
theorem value?_optimize (h : e.IsBasicArithmetic) :
    (((optimize e).expr.value? value).isSome ↔ (e.valueRoundedBy? roundRational value).isSome) ∧
      (optimize e).expr.value? value = e.valueRoundedBy? roundRational value := by
  have hvalue : (optimize e).expr.value? value = e.valueRoundedBy? roundRational value :=
    (rounds_simplify e h).value_eq
  exact ⟨by rw [hvalue], hvalue⟩

/-- The divisor of `width / (1 - 0.5)` is folded, and it is still not zero. -/
theorem value?_optimize_half :
    let e : Expr ℚ := .binary .div (.reference "width") (.group (.binary .sub (.number 1) (.number (1 / 2))))
    e.IsBasicArithmetic ∧ (e.valueRoundedBy? roundRational fun _ => 3).isSome ∧
      ((optimize e).expr.value? fun _ => 3).isSome := by
  intro e
  have hbasic : e.IsBasicArithmetic := by simp [e, IsBasicArithmetic, IsBasic]
  have hvalue : (e.valueRoundedBy? roundRational fun _ => 3).isSome := by decide +kernel
  exact ⟨hbasic, hvalue, (value?_optimize hbasic).1.mpr hvalue⟩

/-- The divisor of `1 / (0.0000001 * 0.0000001)` is not zero, but it is rounded to zero. -/
theorem exists_optimize_div_zero : ∃ (e : Expr ℚ) (value : String → ℚ), e.IsBasicArithmetic ∧
    (e.value? value).isSome ∧ ¬((optimize e).expr.value? value).isSome := by
  let small : Expr ℚ := .number (1 / 10 ^ 7)
  refine ⟨.binary .div (.number 1) (.group (.binary .mul small small)), fun _ => 0, ?_, ?_, ?_⟩
  · simp [small, IsBasicArithmetic, IsBasic]
  · decide +kernel
  · decide +kernel

end Expr

end Parametric.Formula
