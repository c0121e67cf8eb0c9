import Mathlib
import Parametric.Formula.Inference
import Parametric.Proofs.Number.Text

/-!
# Exponents of lengths

The rules of inference with exponents of any size. The inferred dimension is the exact one unless nothing is known
about it: where an exponent does not fit into eight bits nothing is known about the dimension, and every rule hands
that on.
-/

namespace Parametric.Number

open Float.Model Float.Model.UnpackedFloat

variable {x y : Float} {d d' : Dyadic}

/-- A number with a smaller exponent is smaller, as only the least exponent allows for short mantissas. -/
theorem Dyadic.Canonical.value_lt (h : d.Canonical) (h' : d'.Canonical)
    (hlt : d.exponent < d'.exponent ∨ d.exponent = d'.exponent ∧ d.mantissa < d'.mantissa) : d.value < d'.value := by
  rcases hlt with hexp | ⟨hexp, hmantissa⟩
  · have hleast := h.least_le
    have hfull : 2 ^ 52 ≤ d'.mantissa := h'.full.resolve_right (by omega)
    calc d.value < 2 ^ 53 * 2 ^ d.exponent := by
            have hm := h.mantissa_lt
            unfold Dyadic.value
            gcongr
            exact_mod_cast hm
      _ = 2 ^ 52 * 2 ^ (d.exponent + 1) := by rw [zpow_add_one₀ (by norm_num)]; ring
      _ ≤ d'.mantissa * 2 ^ d'.exponent := by
            gcongr
            · exact_mod_cast hfull
            · norm_num
            · omega
  · unfold Dyadic.value
    rw [hexp]
    gcongr

theorem value_lt_of_lt (hd : Dyadic.ofFloat? x = some d) (hd' : Dyadic.ofFloat? y = some d')
    (hsign : d.negative = false) (hsign' : d'.negative = false) (h : x < y) : d.value < d'.value := by
  have hlt : x.toModel.unpack.lt y.toModel.unpack = true := of_decide_eq_true h
  rw [unpack_of_ofFloat? hd, unpack_of_ofFloat? hd'] at hlt
  unfold Dyadic.unpacked at hlt
  split at hlt
  case isTrue hz =>
    split at hlt
    case isTrue => simp [UnpackedFloat.lt, UnpackedFloat.compare] at hlt
    case isFalse hz' =>
      have hpos : (0 : ℚ) < d'.mantissa := by exact_mod_cast Nat.pos_of_ne_zero hz'
      rw [Dyadic.value, Dyadic.value, hz, Nat.cast_zero, zero_mul]
      positivity
  case isFalse hz =>
    split at hlt
    case isTrue => simp [UnpackedFloat.lt, UnpackedFloat.compare, Dyadic.sign, hsign] at hlt
    case isFalse hz' =>
      have hcompare : (compare d.exponent d'.exponent).then (compare d.mantissa d'.mantissa) = .lt := by
        simpa [UnpackedFloat.lt, UnpackedFloat.compare, Dyadic.sign, hsign, hsign'] using hlt
      refine (canonical_of_ofFloat? hd).value_lt (canonical_of_ofFloat? hd') ?_
      rw [Ordering.then_eq_lt, compare_lt_iff_lt, compare_eq_iff_eq, compare_lt_iff_lt] at hcompare
      exact hcompare

end Parametric.Number

namespace Parametric.Formula

open Number

theorem natAbs_lt_of_literalExponent? {e : Expr Float} {n : Int} (h : literalExponent? e = some n) :
    n.natAbs < 16 := by
  unfold literalExponent? at h
  split at h
  case h_2 => cases h
  case h_1 x =>
    split at h
    case isFalse => cases h
    case isTrue hcond =>
      obtain ⟨hint, hlt⟩ : isIntegral x = true ∧ x.abs < 16.0 := by simpa using hcond
      obtain ⟨d, hd, hintegral⟩ : ∃ d, Dyadic.ofFloat? x = some d ∧ d.isIntegral = true := by
        simpa [isIntegral, Option.any_eq_true] using hint
      obtain rfl : d.truncate = n := by simpa [truncated, hd] using h
      have hbound : Dyadic.ofFloat? 16.0 = some ⟨false, 2 ^ 52, -48⟩ := by decide +kernel
      have hvalue : d.abs.value < (16 : ℚ) := by
        have := value_lt_of_lt (ofFloat?_abs hd) hbound rfl rfl hlt
        norm_num [Dyadic.value] at this ⊢
        exact this
      have hsame : d.abs.value = d.value := rfl
      rw [hsame, ← value_truncate hintegral] at hvalue
      exact_mod_cast hvalue

/-! ## Exponents of any size -/

/-- A power of a length, however large its exponent is. -/
def exactPower (power : Int) : Dimension := if power = 0 then .dimensionless else .length power

def exactProduct : Dimension → Dimension → Dimension
  | .length a, .length b => exactPower (a + b)
  | left, right => productDimension left right

def exactQuotient : Dimension → Dimension → Dimension
  | .length a, .length b => exactPower (a - b)
  | .dimensionless, .length b => exactPower (-b)
  | left, right => quotientDimension left right

/-- The dimension of a power; the exponent matters for lengths. -/
def exactPowerDimension (base : Dimension) (exponent : Expr Float) : Dimension :=
  match base, literalExponent? exponent with
  | .length power, some n => exactPower (power * n)
  | base, _ => powerDimension base exponent

def exactRoot : Dimension → Dimension
  | .length power => if power % 2 = 0 then exactPower (power / 2) else .unknown
  | radicand => rootDimension radicand

def exactBinary (op : BinaryOperator) (left right : Dimension) (rhs : Expr Float) : Dimension :=
  match op with
  | .mul => exactProduct left right
  | .div => exactQuotient left right
  | .pow => exactPowerDimension left rhs
  | _ => (binaryDimension op left right rhs).1

def exactCall (function : Function) (args : List Dimension) : Dimension :=
  match function with
  | .sqrt => exactRoot (args.head?.getD .unknown)
  | _ => (callDimension function args).1

mutual
/-- The dimension of an expression by the rules of inference, with exponents of any size. -/
def exactDimension (kindOf : String → Option ValueKind) : Expr Float → Dimension
  | .number _ => .dimensionless
  | .text _ => .text
  | .boolean _ => .boolean
  | .reference name => ((kindOf name).map (·.dimension)).getD .unknown
  | .group inner => exactDimension kindOf inner
  | .negate operand => exactDimension kindOf operand
  | .binary op lhs rhs => exactBinary op (exactDimension kindOf lhs) (exactDimension kindOf rhs) rhs
  | .call function args => exactCall function (exactDimensions kindOf args)

def exactDimensions (kindOf : String → Option ValueKind) : List (Expr Float) → List Dimension
  | [] => []
  | e :: rest => exactDimension kindOf e :: exactDimensions kindOf rest
end

variable {kindOf : String → Option ValueKind} {a a' b b' : Dimension} {args args' : List Dimension} {n : Int}

/-! ## What is known is exact -/

theorem lengthPower_eq_exactPower (n : Int) :
    lengthPower n = if -128 ≤ n ∧ n ≤ 127 then exactPower n else .unknown := by
  unfold lengthPower exactPower
  by_cases hrange : -128 ≤ n ∧ n ≤ 127
  · rw [if_pos hrange, if_neg (by simpa using hrange)]
  · rw [if_neg hrange, if_pos (by simp only [Bool.or_eq_true, decide_eq_true_eq]; omega)]

theorem binaryDimension_sum {op : BinaryOperator} (hop : op = .add ∨ op = .sub) (a b : Dimension) (rhs : Expr Float) :
    (binaryDimension op a b rhs).1 = (commonDimension a b).getD .unknown := by
  rcases hop with rfl | rfl
  all_goals
    simp only [binaryDimension]
    split <;> simp [*]

theorem callDimension_cond (args : List Dimension) : (callDimension .cond args).1 =
    (commonDimension (args[1]?.getD .unknown) (args[2]?.getD .unknown)).getD .unknown := by
  simp only [callDimension]
  split <;> simp [*]

/-- A dimension is the exact one if anything is known about it. -/
def Approximates (inferred exact : Dimension) : Prop := inferred = .unknown ∨ inferred = exact

namespace Approximates

@[simp] theorem refl : Approximates a a := .inr rfl

@[simp] theorem unknown : Approximates .unknown a := .inl rfl

@[simp] theorem power (n : Int) : Approximates (lengthPower n) (exactPower n) := by
  rw [lengthPower_eq_exactPower]
  split
  · exact refl
  · exact unknown

end Approximates

/-- A rule for two operands hands on that nothing is known about one of them. -/
structure Strict (rule : Dimension → Dimension → Dimension) : Prop where
  left (b : Dimension) : rule .unknown b = .unknown
  right (a : Dimension) : rule a .unknown = .unknown

theorem strict_common : Strict fun a b => (commonDimension a b).getD .unknown where
  left b := by cases b <;> rfl
  right a := by cases a <;> rfl

theorem strict_product : Strict productDimension where
  left b := by cases b <;> rfl
  right a := by cases a <;> rfl

theorem strict_quotient : Strict quotientDimension where
  left b := by cases b <;> rfl
  right a := by cases a <;> rfl

/-- A strict rule that is exact for operands keeps what is known about them exact. -/
theorem Strict.approximates {rule exact : Dimension → Dimension → Dimension} (hstrict : Strict rule)
    (hrule : ∀ a b, Approximates (rule a b) (exact a b)) (ha : Approximates a a') (hb : Approximates b b') :
    Approximates (rule a b) (exact a' b') := by
  rcases ha with rfl | rfl
  · exact .inl (hstrict.left b)
  · rcases hb with rfl | rfl
    · exact .inl (hstrict.right a)
    · exact hrule a b

namespace Approximates

theorem common (ha : Approximates a a') (hb : Approximates b b') :
    Approximates ((commonDimension a b).getD .unknown) ((commonDimension a' b').getD .unknown) :=
  strict_common.approximates (fun _ _ => refl) ha hb

theorem product (ha : Approximates a a') (hb : Approximates b b') :
    Approximates (productDimension a b) (exactProduct a' b') := by
  refine strict_product.approximates (fun a b => ?_) ha hb
  unfold exactProduct
  split
  · exact power _
  · exact refl

theorem quotient (ha : Approximates a a') (hb : Approximates b b') :
    Approximates (quotientDimension a b) (exactQuotient a' b') := by
  refine strict_quotient.approximates (fun a b => ?_) ha hb
  unfold exactQuotient
  split
  · exact power _
  · exact power _
  · exact refl

theorem powerDimension (exponent : Expr Float) (ha : Approximates a a') :
    Approximates (powerDimension a exponent) (exactPowerDimension a' exponent) := by
  rcases ha with rfl | rfl
  · exact unknown
  · unfold exactPowerDimension
    split
    case h_1 power n hn =>
      simp only [Formula.powerDimension, hn]
      exact .power _
    case h_2 => exact refl

theorem root (ha : Approximates a a') : Approximates (rootDimension a) (exactRoot a') := by
  rcases ha with rfl | rfl
  · exact unknown
  · unfold exactRoot
    split
    case h_1 power =>
      simp only [rootDimension]
      split
      · exact .power _
      · exact refl
    case h_2 => exact refl

theorem binary (op : BinaryOperator) (rhs : Expr Float) (ha : Approximates a a') (hb : Approximates b b') :
    Approximates (binaryDimension op a b rhs).1 (exactBinary op a' b' rhs) := by
  cases op with
  | add | sub => simpa [exactBinary, binaryDimension_sum] using ha.common hb
  | mul => exact ha.product hb
  | div => exact ha.quotient hb
  | rem => exact ha
  | pow => exact ha.powerDimension rhs
  | eq | ne | lt | gt | le | ge => exact refl

theorem getD (h : List.Forall₂ Approximates args args') (i : Nat) :
    Approximates (args[i]?.getD .unknown) (args'[i]?.getD .unknown) := by
  induction h generalizing i with
  | nil => exact refl
  | cons hd _ ih =>
      cases i with
      | zero => exact hd
      | succ i => exact ih i

theorem call (function : Function) (h : List.Forall₂ Approximates args args') :
    Approximates (callDimension function args).1 (exactCall function args') := by
  have hfirst : Approximates (args.head?.getD .unknown) (args'.head?.getD .unknown) := by
    simpa only [List.head?_eq_getElem?] using getD h 0
  cases function with
  | sqrt => exact hfirst.root
  | abs | round => exact hfirst
  | cond => simpa only [exactCall, callDimension_cond] using (getD h 1).common (getD h 2)
  | _ => exact refl

end Approximates

mutual
/-- The dimension that is inferred is the exact one if anything is known about it. -/
theorem approximates_inferDimension (kindOf : String → Option ValueKind) :
    (e : Expr Float) → Approximates (inferDimension kindOf e).1 (exactDimension kindOf e)
  | .number _ | .text _ | .boolean _ | .reference _ => .refl
  | .group inner => approximates_inferDimension kindOf inner
  | .negate operand => approximates_inferDimension kindOf operand
  | .binary op lhs rhs =>
      (approximates_inferDimension kindOf lhs).binary op rhs (approximates_inferDimension kindOf rhs)
  | .call function args => .call function (approximates_inferDimensions kindOf args)

theorem approximates_inferDimensions (kindOf : String → Option ValueKind) : (args : List (Expr Float)) →
    List.Forall₂ Approximates (inferDimensions kindOf args).1 (exactDimensions kindOf args)
  | [] => .nil
  | e :: rest => .cons (approximates_inferDimension kindOf e) (approximates_inferDimensions kindOf rest)
end

/-! ## Eight bits -/

/-- The exponent of a dimension, if it has one, is not zero and fits into eight bits. -/
def Fits : Dimension → Prop
  | .length n => n ≠ 0 ∧ ∃ p : Int8, p.toInt = n
  | _ => True

namespace Fits

@[simp] theorem power (n : Int) : Fits (lengthPower n) := by
  rw [lengthPower_eq_exactPower]
  split
  case isTrue hrange =>
    unfold exactPower
    split
    · trivial
    · exact ⟨‹_›, Int8.ofInt n, Int8.toInt_ofInt_of_le hrange.1 (by omega)⟩
  case isFalse => trivial

theorem kind (kind : ValueKind) : Fits kind.dimension := by
  cases kind
  case length => exact ⟨by decide, 1, by decide⟩
  case area => exact ⟨by decide, 2, by decide⟩
  case volume => exact ⟨by decide, 3, by decide⟩
  all_goals trivial

theorem common (ha : Fits a) (hb : Fits b) : Fits ((commonDimension a b).getD .unknown) := by
  simp only [commonDimension]
  split
  · exact ha
  · split
    · trivial
    · trivial
    · exact hb
    · exact ha
    · trivial

theorem product (ha : Fits a) (hb : Fits b) : Fits (productDimension a b) := by
  unfold productDimension
  split
  · exact power _
  · exact hb
  · exact ha
  · trivial

theorem quotient (ha : Fits a) : Fits (quotientDimension a b) := by
  unfold quotientDimension
  split
  · exact power _
  · exact ha
  · exact power _
  · split <;> trivial

theorem powerDimension (a : Dimension) (exponent : Expr Float) : Fits (powerDimension a exponent) := by
  unfold Formula.powerDimension
  split
  · exact power _
  · trivial
  · trivial

theorem root (a : Dimension) : Fits (rootDimension a) := by
  unfold rootDimension
  split
  · split
    · exact power _
    · trivial
  · trivial
  · trivial

theorem binary (op : BinaryOperator) (rhs : Expr Float) (ha : Fits a) (hb : Fits b) :
    Fits (binaryDimension op a b rhs).1 := by
  cases op with
  | add | sub => simpa [binaryDimension_sum] using ha.common hb
  | mul => exact ha.product hb
  | div => exact ha.quotient
  | rem => exact ha
  | pow => exact powerDimension a rhs
  | eq | ne | lt | gt | le | ge => trivial

theorem getD (h : ∀ d ∈ args, Fits d) (i : Nat) : Fits (args[i]?.getD .unknown) := by
  cases hd : args[i]? with
  | none => trivial
  | some d => exact h d (List.mem_of_getElem? hd)

theorem call (function : Function) (h : ∀ d ∈ args, Fits d) : Fits (callDimension function args).1 := by
  cases function with
  | sqrt => exact root _
  | abs | round => simpa only [callDimension, List.head?_eq_getElem?] using getD h 0
  | cond => simpa only [callDimension_cond] using (getD h 1).common (getD h 2)
  | _ => trivial

end Fits

mutual
/-- Every exponent that is inferred fits into eight bits. -/
theorem fits_inferDimension (kindOf : String → Option ValueKind) :
    (e : Expr Float) → Fits (inferDimension kindOf e).1
  | .number _ | .text _ | .boolean _ => trivial
  | .reference name => by
      cases hkind : kindOf name with
      | none => simp [inferDimension, hkind, Fits]
      | some kind => simpa [inferDimension, hkind] using Fits.kind kind
  | .group inner => fits_inferDimension kindOf inner
  | .negate operand => fits_inferDimension kindOf operand
  | .binary op lhs rhs => (fits_inferDimension kindOf lhs).binary op rhs (fits_inferDimension kindOf rhs)
  | .call function args => .call function (fits_inferDimensions kindOf args)

theorem fits_inferDimensions (kindOf : String → Option ValueKind) : (args : List (Expr Float)) →
    ∀ d ∈ (inferDimensions kindOf args).1, Fits d
  | [] => nofun
  | e :: rest => List.forall_mem_cons.mpr ⟨fits_inferDimension kindOf e, fits_inferDimensions kindOf rest⟩
end

/-- The dimension that a checked operation on exponents gives: nothing is known about it where the result in eight
bits is not the exact one. -/
def checked (result : Int8) (exact : Int) : Dimension := if result.toInt = exact then exactPower exact else .unknown

theorem lengthPower_eq_checked {result : Int8} (h : result.toInt = n.bmod (2 ^ 8)) :
    lengthPower n = checked result n := by
  have hleast := result.le_toInt
  have hmost := result.toInt_lt
  have hexact : result.toInt = n ↔ -128 ≤ n ∧ n ≤ 127 := by
    refine ⟨fun heq => by omega, fun hrange => ?_⟩
    rw [h, Int.bmod_eq_of_le] <;> omega
  rw [lengthPower_eq_exactPower, checked]
  simp only [hexact]

/-- Where an exponent is computed, the operation in eight bits is checked. -/
structure ChecksExponents (kindOf : String → Option ValueKind) : Prop where
  product (lhs rhs : Expr Float) (a b : Int8) : (infer kindOf lhs).dimension = .length a.toInt →
    (infer kindOf rhs).dimension = .length b.toInt →
    (infer kindOf (.binary .mul lhs rhs)).dimension = checked (a + b) (a.toInt + b.toInt)
  quotient (lhs rhs : Expr Float) (a b : Int8) : (infer kindOf lhs).dimension = .length a.toInt →
    (infer kindOf rhs).dimension = .length b.toInt →
    (infer kindOf (.binary .div lhs rhs)).dimension = checked (a - b) (a.toInt - b.toInt)
  reciprocal (lhs rhs : Expr Float) (b : Int8) : (infer kindOf lhs).dimension = .dimensionless →
    (infer kindOf rhs).dimension = .length b.toInt →
    (infer kindOf (.binary .div lhs rhs)).dimension = checked (-b) (-b.toInt)
  power (lhs rhs : Expr Float) (a : Int8) (n : Int) : (infer kindOf lhs).dimension = .length a.toInt →
    literalExponent? rhs = some n → ∃ k : Int8, k.toInt = n ∧
      (infer kindOf (.binary .pow lhs rhs)).dimension = checked (a * k) (a.toInt * k.toInt)
  root (e : Expr Float) (rest : List (Expr Float)) (a : Int8) : (infer kindOf e).dimension = .length a.toInt →
    (infer kindOf (.call .sqrt (e :: rest))).dimension =
      if a % 2 = 0 then checked (a / 2) (a.toInt / 2) else .unknown

theorem infer_dimension (kindOf : String → Option ValueKind) (e : Expr Float) :
    (infer kindOf e).dimension = (inferDimension kindOf e).1 := rfl

theorem rootDimension_eq_checked (a : Int8) : rootDimension (.length a.toInt) =
    if a % 2 = 0 then checked (a / 2) (a.toInt / 2) else .unknown := by
  have heven : a % 2 = 0 ↔ a.toInt % 2 = 0 := by
    rw [← Int8.toInt_inj, Int8.toInt_mod, ← Int.dvd_iff_emod_eq_zero]
    exact (Int.dvd_iff_tmod_eq_zero).symm
  simp only [rootDimension, heven]
  split
  case isTrue hdvd =>
    refine lengthPower_eq_checked ?_
    -- an even exponent is halved in the same way by both kinds of division
    rw [Int8.toInt_div]
    show (a.toInt.tdiv 2).bmod (2 ^ 8) = _
    rw [Int.tdiv_eq_ediv_of_dvd (Int.dvd_of_emod_eq_zero hdvd)]
  case isFalse => rfl

theorem checksExponents (kindOf : String → Option ValueKind) : ChecksExponents kindOf where
  product lhs rhs a b hlhs hrhs := by
    rw [infer_dimension] at hlhs hrhs ⊢
    simp only [inferDimension, binaryDimension, hlhs, hrhs, productDimension]
    exact lengthPower_eq_checked (Int8.toInt_add a b)
  quotient lhs rhs a b hlhs hrhs := by
    rw [infer_dimension] at hlhs hrhs ⊢
    simp only [inferDimension, binaryDimension, hlhs, hrhs, quotientDimension]
    exact lengthPower_eq_checked (Int8.toInt_sub a b)
  reciprocal lhs rhs b hlhs hrhs := by
    rw [infer_dimension] at hlhs hrhs ⊢
    simp only [inferDimension, binaryDimension, hlhs, hrhs, quotientDimension]
    exact lengthPower_eq_checked (Int8.toInt_neg b)
  power lhs rhs a n hlhs hn := by
    -- a literal exponent is small enough for eight bits, so only the product is checked
    have hlt := natAbs_lt_of_literalExponent? hn
    have hk : (Int8.ofInt n).toInt = n := Int8.toInt_ofInt_of_le (by omega) (by omega)
    refine ⟨Int8.ofInt n, hk, ?_⟩
    rw [infer_dimension] at hlhs ⊢
    simp only [inferDimension, binaryDimension, hlhs, powerDimension, hn]
    refine (lengthPower_eq_checked ?_).trans (by rw [hk])
    rw [Int8.toInt_mul, hk]
  root e rest a he := by
    rw [infer_dimension] at he ⊢
    simp only [inferDimension, inferDimensions, callDimension, he]
    exact rootDimension_eq_checked a

/-- The inferred dimension of every expression is the one with exponents of any size, unless nothing is known about
it. An inferred exponent is never zero and fits into eight bits, and no operation on exponents wraps. -/
theorem infer_exact (kindOf : String → Option ValueKind) (e : Expr Float) :
    ((infer kindOf e).dimension = .unknown ∨ (infer kindOf e).dimension = exactDimension kindOf e) ∧
      (∀ n, (infer kindOf e).dimension = .length n → n ≠ 0 ∧ ∃ p : Int8, p.toInt = n) ∧ ChecksExponents kindOf := by
  refine ⟨approximates_inferDimension kindOf e, fun n hn => ?_, checksExponents kindOf⟩
  have hfits := fits_inferDimension kindOf e
  rw [infer_dimension] at hn
  rwa [hn] at hfits

/-- The ninth power of a length has a fifteenth power with an exponent that does not fit into eight bits. -/
example :
    let kindOf : String → Option ValueKind := fun _ => some .length
    let e : Expr Float := .binary .pow (.group (.binary .pow (.reference "w") (.number 9.0))) (.number 15.0)
    (infer kindOf e).dimension = .unknown ∧ exactDimension kindOf e = .length 135 := by decide +kernel

end Parametric.Formula
