import Parametric.Proofs.Formula.Rendering
import Parametric.Proofs.Number.Bits

/-!
# What expressions mean

Values of expressions under any reading of the operators, and when an expression means what its
text is read as.
-/

namespace Parametric.Formula

/-- A reading of literals, names, operators and functions as values of a type. -/
structure Interpretation (V : Type) where
  number : Float → V
  text : String → V
  boolean : Bool → V
  /-- The value of a name, given by its key. -/
  name : String → V
  negate : V → V
  binary : BinaryOperator → V → V → V
  call : Function → List V → V

namespace Interpretation

variable {V : Type}

mutual
/-- The value of an expression; a group has the value of its content. -/
def eval (I : Interpretation V) : Term → V
  | .number value => I.number value
  | .text value => I.text value
  | .boolean value => I.boolean value
  | .reference name => I.name (keyOf name)
  | .negate operand => I.negate (I.eval operand)
  | .binary op lhs rhs => I.binary op (I.eval lhs) (I.eval rhs)
  | .call function args => I.call function (I.evalAll args)
  | .group inner => I.eval inner

def evalAll (I : Interpretation V) : List Term → List V
  | [] => []
  | e :: rest => I.eval e :: I.evalAll rest
end

/-- Sums and products may be regrouped to the left, and a negative literal is the negation of its
absolute value. -/
structure Lawful (I : Interpretation V) : Prop where
  add_add : ∀ x y z, I.binary .add x (I.binary .add y z) = I.binary .add (I.binary .add x y) z
  add_sub : ∀ x y z, I.binary .add x (I.binary .sub y z) = I.binary .sub (I.binary .add x y) z
  mul_mul : ∀ x y z, I.binary .mul x (I.binary .mul y z) = I.binary .mul (I.binary .mul x y) z
  mul_div : ∀ x y z, I.binary .mul x (I.binary .div y z) = I.binary .div (I.binary .mul x y) z
  number_of_lt_zero : ∀ x : Float, x < 0.0 → I.number x = I.negate (I.number x.abs)

@[simp] theorem eval_enclosed (I : Interpretation V) (needed : Bool) (e : Term) :
    I.eval (Expr.enclosed needed e) = I.eval e := by
  cases needed <;> rfl

end Interpretation

/-! ## Remainders and negative zeros -/

def isNegativeZero (x : Float) : Bool := x.toBits.toNat == 2 ^ 63

namespace Expr

/-- Whether the chain of products that an expression starts with contains a remainder. -/
def startsWithRemainder : Term → Bool
  | .binary op lhs _ => op.precedence == 3 && (op == .rem || lhs.startsWithRemainder)
  | .group inner => inner.startsWithRemainder
  | _ => false

mutual
/-- Whether an operand that is written into the chain before it starts with a remainder, so that the
remainder takes in what stands before the operand. -/
def capturesRemainder : Term → Bool
  | .binary op lhs rhs =>
    continuesChain op rhs && rhs.startsWithRemainder || lhs.capturesRemainder || rhs.capturesRemainder
  | .negate operand => operand.capturesRemainder
  | .call _ args => captureRemainder args
  | .group inner => inner.capturesRemainder
  | _ => false

def captureRemainder : List Term → Bool
  | [] => false
  | e :: rest => e.capturesRemainder || captureRemainder rest
end

mutual
/-- Whether a literal is zero with a minus sign, which is not written. -/
def hasNegativeZero : Term → Bool
  | .number value => isNegativeZero value
  | .binary _ lhs rhs => lhs.hasNegativeZero || rhs.hasNegativeZero
  | .negate operand => operand.hasNegativeZero
  | .call _ args => haveNegativeZero args
  | .group inner => inner.hasNegativeZero
  | _ => false

def haveNegativeZero : List Term → Bool
  | [] => false
  | e :: rest => e.hasNegativeZero || haveNegativeZero rest
end

/-- How many remainders stand in the chain of products that a parsed expression starts with. -/
def chainRemainders : Term → Nat
  | .binary op lhs _ =>
    if op.precedence = 3 then (if op = .rem then 1 else 0) + lhs.chainRemainders else 0
  | _ => 0

theorem chainRemainders_eq_zero {e : Term} (h : e.level ≠ 3) : e.chainRemainders = 0 := by
  cases e with
  | binary op lhs rhs => exact if_neg h
  | _ => rfl

theorem chainRemainders_graft {op : BinaryOperator} (hop : op.precedence = 3) (lhs : Term) :
    (rhs : Term) → (graft op lhs rhs).chainRemainders =
      (if op = .rem then 1 else 0) + lhs.chainRemainders + rhs.chainRemainders
  | .binary inner first second => by
    unfold graft
    split
    case isTrue h =>
      have hinner : inner.precedence = 3 := h.trans hop
      simp only [chainRemainders, if_pos hinner, chainRemainders_graft hop lhs first]
      omega
    case isFalse h =>
      have hinner : inner.precedence ≠ 3 := fun heq => h (heq.trans hop.symm)
      simp only [chainRemainders, if_pos hop, if_neg hinner, Nat.add_zero]
  | .number _ | .text _ | .boolean _ | .reference _ | .negate _ | .call _ _ | .group _ => by
    simp only [graft, chainRemainders, if_pos hop, Nat.add_zero]

@[simp] theorem chainRemainders_enclosed_pos {needed : Bool} {e : Term} :
    0 < (enclosed needed e).chainRemainders ↔ needed = false ∧ 0 < e.chainRemainders := by
  cases needed <;> simp [enclosed, chainRemainders]

/-- A right operand without parentheses that starts with as loose an operator shares the chain. -/
theorem continuesChain_of_level_le {op : BinaryOperator} {rhs : Term} (hop : op.groupsRight = false)
    (h : needsParensRight op rhs = false) (hlevel : rhs.reread.level ≤ op.precedence) :
    continuesChain op rhs := by
  unfold needsParensRight at h
  rw [hop, if_neg (by decide)] at h
  cases hloose : rhs.isLooserThan (op.precedence + 1) with
  | false =>
    have hop := op.level_cases
    have := le_level_reread (k := op.precedence + 1) (by simp only [closedLevel]; omega) hloose
    omega
  | true =>
    rw [hloose, Bool.true_and, Bool.or_eq_false_iff, Bool.not_eq_false'] at h
    exact h.2

theorem chainRemainders_reread_binary {op : BinaryOperator} (hop : op.precedence = 3) (lhs rhs : Term) :
    (reread (.binary op lhs rhs)).chainRemainders =
      (if op = .rem then 1 else 0) + (enclosed (needsParensLeft op lhs) lhs.reread).chainRemainders +
        (enclosed (needsParensRight op rhs) rhs.reread).chainRemainders := by
  rw [reread, join, op.groupsRight_eq_false (Nat.le_of_eq hop), if_neg (by simp), chainRemainders_graft hop]

/-- A chain holds a remainder if its last operator is one, or one of its operands brings one in. -/
theorem chainRemainders_reread_binary_pos {op : BinaryOperator} (hop : op.precedence = 3) (lhs rhs : Term) :
    0 < (reread (.binary op lhs rhs)).chainRemainders ↔
      op = .rem ∨ needsParensLeft op lhs = false ∧ 0 < lhs.reread.chainRemainders ∨
        needsParensRight op rhs = false ∧ 0 < rhs.reread.chainRemainders := by
  rw [chainRemainders_reread_binary hop, ← chainRemainders_enclosed_pos, ← chainRemainders_enclosed_pos]
  by_cases hrem : op = .rem
  · simp only [hrem, if_true, true_or, iff_true]
    omega
  · simp only [hrem, if_false, false_or]
    omega

theorem precedence?_of_startsWithRemainder :
    (e : Term) → e.startsWithRemainder → e.precedence? = some 3
  | .binary op lhs rhs, h => by
    simp only [startsWithRemainder, Bool.and_eq_true, beq_iff_eq] at h
    rw [precedence?, h.1]
  | .group inner, h => precedence?_of_startsWithRemainder inner h

theorem chainRemainders_pos : (e : Term) → e.startsWithRemainder → 0 < e.reread.chainRemainders
  | .binary op lhs rhs, h => by
    simp only [startsWithRemainder, Bool.and_eq_true, Bool.or_eq_true, beq_iff_eq] at h
    obtain ⟨hop, h⟩ := h
    rw [chainRemainders_reread_binary_pos hop]
    refine h.imp_right fun h => .inl ⟨?_, chainRemainders_pos lhs h⟩
    simp [needsParensLeft, op.groupsRight_eq_false (Nat.le_of_eq hop), isLooserThan,
      precedence?_of_startsWithRemainder lhs h, hop]
  | .group inner, h => chainRemainders_pos inner h

/-- A remainder at the start of what is read was there before, or was captured. -/
theorem startsWithRemainder_or_capturesRemainder :
    (e : Term) → 0 < e.reread.chainRemainders → e.startsWithRemainder ∨ e.capturesRemainder
  | .binary op lhs rhs, h => by
    by_cases hop : op.precedence = 3
    · simp only [startsWithRemainder, capturesRemainder, hop, Bool.and_eq_true, Bool.or_eq_true, beq_iff_eq,
        true_and]
      rcases (chainRemainders_reread_binary_pos hop lhs rhs).mp h with hrem | ⟨-, hl⟩ | ⟨hparens, hr⟩
      · exact .inl (.inl hrem)
      · exact (startsWithRemainder_or_capturesRemainder lhs hl).imp .inr fun hc => .inl (.inr hc)
      · have hlevel : rhs.reread.level = 3 := by
          by_contra hne
          rw [chainRemainders_eq_zero hne] at hr
          cases hr
        have hchain := continuesChain_of_level_le (op.groupsRight_eq_false (Nat.le_of_eq hop)) hparens (by omega)
        right
        rcases startsWithRemainder_or_capturesRemainder rhs hr with hs | hc
        · exact .inl (.inl ⟨hchain, hs⟩)
        · exact .inr hc
    · have hlevel : (reread (.binary op lhs rhs)).level ≠ 3 := by
        rw [reread, level_join]
        exact hop
      rw [chainRemainders_eq_zero hlevel] at h
      cases h
  | .group inner, h => startsWithRemainder_or_capturesRemainder inner h
  | .number value, h => by
    rw [reread] at h
    split at h <;> cases h

theorem op_of_continuesChain {op : BinaryOperator} {rhs : Term} (h : continuesChain op rhs) :
    op = .add ∨ op = .mul := by
  unfold continuesChain at h
  split at h
  · exact .inl rfl
  · exact .inr rfl
  · cases h

theorem level_ne_of_not_continuesChain {op : BinaryOperator} {rhs : Term} (hop : op.groupsRight = false)
    (h : needsParensRight op rhs = false) (hchain : ¬continuesChain op rhs) : rhs.reread.level ≠ op.precedence :=
  fun heq => hchain (continuesChain_of_level_le hop h (Nat.le_of_eq heq))

end Expr

/-! ## Regrouping -/

namespace Interpretation

open Parametric.Formula.Expr

variable {V : Type} {I : Interpretation V}

theorem eval_graft_of_ne {op : BinaryOperator} (lhs : Term) {rhs : Term} (h : rhs.level ≠ op.precedence) :
    I.eval (graft op lhs rhs) = I.binary op (I.eval lhs) (I.eval rhs) := by
  rw [graft_of_ne lhs h, eval]

theorem Lawful.eval_graft (hI : I.Lawful) {op : BinaryOperator} (hop : op = .add ∨ op = .mul) (lhs : Term) :
    (rhs : Term) → (op = .mul → rhs.chainRemainders = 0) →
      I.eval (graft op lhs rhs) = I.binary op (I.eval lhs) (I.eval rhs)
  | .binary inner first second, h => by
    by_cases heq : inner.precedence = op.precedence
    · rw [graft, if_pos heq]
      -- the law of the outermost operator of the chain takes `lhs` in, the induction passes it down
      rcases hop with rfl | rfl
      · have ih := hI.eval_graft (.inl rfl) lhs first nofun
        simp only [eval, ih]
        cases inner
        case add => exact (hI.add_add _ _ _).symm
        case sub => exact (hI.add_sub _ _ _).symm
        all_goals cases heq
      · have hzero := h rfl
        rw [chainRemainders, if_pos (show inner.precedence = 3 from heq)] at hzero
        have ih := hI.eval_graft (.inr rfl) lhs first fun _ => by omega
        simp only [eval, ih]
        cases inner
        case mul => exact (hI.mul_mul _ _ _).symm
        case div => exact (hI.mul_div _ _ _).symm
        case rem =>
          rw [if_pos rfl] at hzero
          omega
        all_goals cases heq
    · exact eval_graft_of_ne lhs heq
  | .number _, _ | .text _, _ | .boolean _, _ | .reference _, _ | .negate _, _ | .call _ _, _ | .group _, _ => rfl

/-- An operation has the same value after its right operand was written into its chain. -/
theorem Lawful.eval_join (hI : I.Lawful) {op : BinaryOperator} {rhs : Term} (lhs : Term)
    (hstart : ¬(continuesChain op rhs && rhs.startsWithRemainder)) (hcapture : ¬rhs.capturesRemainder) :
    I.eval (join op lhs (enclosed (needsParensRight op rhs) rhs.reread)) =
      I.binary op (I.eval lhs) (I.eval rhs.reread) := by
  unfold join
  cases hgroups : op.groupsRight with
  | true => simp [eval]
  | false =>
    rw [if_neg (by simp)]
    cases hparens : needsParensRight op rhs with
    | true =>
      have hle := op.precedence_le
      exact eval_graft_of_ne lhs (Nat.ne_of_gt (Nat.lt_succ_of_le hle))
    | false =>
      by_cases hchain : continuesChain op rhs
      · refine hI.eval_graft (op_of_continuesChain hchain) lhs rhs.reread fun _ => ?_
        by_contra hne
        rcases startsWithRemainder_or_capturesRemainder rhs (Nat.pos_of_ne_zero hne) with hs | hc
        · exact hstart (by rw [hchain, hs]; rfl)
        · exact hcapture hc
      · exact eval_graft_of_ne lhs (level_ne_of_not_continuesChain hgroups hparens hchain)

theorem Lawful.eval_reread_number (hI : I.Lawful) {x : Float} (hfinite : x.isFinite)
    (hzero : isNegativeZero x = false) : I.eval (reread (.number x)) = I.number x := by
  rw [reread]
  split
  case isTrue hneg => exact (hI.number_of_lt_zero x hneg).symm
  case isFalse hneg =>
    rw [isNegativeZero, beq_eq_false_iff_ne] at hzero
    rw [Number.abs_eq_self hfinite hneg hzero, eval]

mutual
/-- An expression without captured remainders and negative zeros means what its text is read as. -/
theorem Lawful.eval_reread (hI : I.Lawful) : (e : Term) → e.hasFiniteNumbers → e.capturesRemainder = false →
    e.hasNegativeZero = false → I.eval e.reread = I.eval e
  | .number value, hfinite, _, hzero => hI.eval_reread_number hfinite hzero
  | .text _, _, _, _ | .boolean _, _, _, _ | .reference _, _, _, _ => rfl
  | .negate operand, hfinite, hcapture, hzero => by
    rw [reread, eval, eval_enclosed, eval, hI.eval_reread operand hfinite hcapture hzero]
  | .binary op lhs rhs, hfinite, hcapture, hzero => by
    simp only [hasFiniteNumbers, Bool.and_eq_true] at hfinite
    simp only [capturesRemainder, hasNegativeZero, Bool.or_eq_false_iff] at hcapture hzero
    rw [reread, hI.eval_join _ (by simp [hcapture.1.1]) (by simp [hcapture.2]), eval_enclosed, eval,
      hI.eval_reread lhs hfinite.1 hcapture.1.2 hzero.1, hI.eval_reread rhs hfinite.2 hcapture.2 hzero.2]
  | .call function args, hfinite, hcapture, hzero => by
    rw [reread, eval, eval, hI.evalAll_rereadAll args hfinite hcapture hzero]
  | .group inner, hfinite, hcapture, hzero => hI.eval_reread inner hfinite hcapture hzero

theorem Lawful.evalAll_rereadAll (hI : I.Lawful) : (args : List Term) → haveFiniteNumbers args →
    captureRemainder args = false → haveNegativeZero args = false → I.evalAll (rereadAll args) = I.evalAll args
  | [], _, _, _ => rfl
  | e :: rest, hfinite, hcapture, hzero => by
    simp only [haveFiniteNumbers, Bool.and_eq_true] at hfinite
    simp only [captureRemainder, haveNegativeZero, Bool.or_eq_false_iff] at hcapture hzero
    rw [rereadAll, evalAll, evalAll, hI.eval_reread e hfinite.1 hcapture.1 hzero.1,
      hI.evalAll_rereadAll rest hfinite.2 hcapture.2 hzero.2]
end

end Interpretation

end Parametric.Formula
