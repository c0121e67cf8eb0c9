import Parametric.Proofs.Formula.Exponents
import Parametric.Proofs.Formula.Optimization

/-!
# Parentheses and dimensions

Nearly all rules of inference look through parentheses. Only the exponent of a power of a length has to be a literal
as it stands: in parentheses nothing is known about the power. Parentheses can therefore only hide a dimension and the
warnings that come with it.
-/

namespace Parametric.Formula

namespace Expr

mutual
/-- An expression without the parentheses in its source. -/
def withoutGroups : Term → Term
  | .number value => .number value
  | .text value => .text value
  | .boolean value => .boolean value
  | .reference name => .reference name
  | .negate operand => .negate operand.withoutGroups
  | .binary op lhs rhs => .binary op lhs.withoutGroups rhs.withoutGroups
  | .call function args => .call function (withoutGroupsAll args)
  | .group inner => inner.withoutGroups

def withoutGroupsAll : List Term → List Term
  | [] => []
  | e :: rest => e.withoutGroups :: withoutGroupsAll rest
end

mutual
theorem parts_subset {part : Term} : (e : Term) → part ∈ e.parts → part.parts ⊆ e.parts
  | .number _, h | .text _, h | .boolean _, h | .reference _, h => by
      obtain rfl := List.mem_singleton.mp h
      exact List.Subset.refl _
  | .negate operand, h | .group operand, h => by
      rcases List.mem_cons.mp h with rfl | h
      · exact List.Subset.refl _
      · exact List.subset_cons_of_subset _ (parts_subset operand h)
  | .binary _ lhs rhs, h => by
      rcases List.mem_cons.mp h with rfl | h
      · exact List.Subset.refl _
      · refine List.subset_cons_of_subset _ ?_
        rcases List.mem_append.mp h with h | h
        · exact List.subset_append_of_subset_left _ (parts_subset lhs h)
        · exact List.subset_append_of_subset_right _ (parts_subset rhs h)
  | .call _ args, h => by
      rcases List.mem_cons.mp h with rfl | h
      · exact List.Subset.refl _
      · exact List.subset_cons_of_subset _ (partsAll_subset args h)

theorem partsAll_subset {part : Term} : (args : List Term) → part ∈ partsAll args → part.parts ⊆ partsAll args
  | e :: rest, h => by
      rcases List.mem_append.mp h with h | h
      · exact List.subset_append_of_subset_left _ (parts_subset e h)
      · exact List.subset_append_of_subset_right _ (partsAll_subset rest h)
end

end Expr

open Parametric.Formula.Expr

variable {kindOf : String → Option ValueKind} {a a' b b' : Dimension} {x y : Dimension × List String} {rhs : Term}

/-! ## What parentheses hide -/

/-- One result tells less than another one: its dimension is the same one if anything is known about it, and its
warnings are among those of the other one. -/
def TellsLess (x y : Dimension × List String) : Prop := Approximates x.1 y.1 ∧ x.2.Sublist y.2

theorem literalExponent?_withoutGroups {n : Int} (h : literalExponent? rhs = some n) : rhs.withoutGroups = rhs := by
  unfold literalExponent? at h
  split at h
  · rfl
  · cases h

theorem approximates_powerDimension (ha : Approximates a a') (rhs : Term) :
    Approximates (powerDimension a rhs) (powerDimension a' rhs.withoutGroups) := by
  rcases ha with rfl | rfl
  · exact .unknown
  · cases hn : literalExponent? rhs with
    | some n => rw [literalExponent?_withoutGroups hn]; exact .refl
    | none =>
        -- without parentheses the exponent may be literal, but with them nothing is known
        cases a with
        | dimensionless => exact .refl
        | _ => simp [powerDimension, hn]

theorem tellsLess_of_strict {f : Dimension → Dimension → Dimension × List String}
    (hleft : ∀ b, f .unknown b = (.unknown, [])) (hright : ∀ a, f a .unknown = (.unknown, []))
    (ha : Approximates a a') (hb : Approximates b b') : TellsLess (f a b) (f a' b') := by
  rcases ha with rfl | rfl
  · rw [hleft]
    exact ⟨.unknown, List.nil_sublist _⟩
  · rcases hb with rfl | rfl
    · rw [hright]
      exact ⟨.unknown, List.nil_sublist _⟩
    · exact ⟨.refl, .refl _⟩

theorem tellsLess_binary (op : BinaryOperator) (ha : Approximates a a') (hb : Approximates b b') (rhs : Term) :
    TellsLess (binaryDimension op a b rhs) (binaryDimension op a' b' rhs.withoutGroups) := by
  cases op with
  | add =>
      exact tellsLess_of_strict (f := fun a b => binaryDimension .add a b rhs) (fun b => by cases b <;> rfl)
        (fun a => by cases a <;> rfl) ha hb
  | sub =>
      exact tellsLess_of_strict (f := fun a b => binaryDimension .sub a b rhs) (fun b => by cases b <;> rfl)
        (fun a => by cases a <;> rfl) ha hb
  | mul => exact ⟨strict_product.approximates (fun _ _ => .refl) ha hb, .refl _⟩
  | div => exact ⟨strict_quotient.approximates (fun _ _ => .refl) ha hb, .refl _⟩
  | rem => exact ⟨ha, .refl _⟩
  | pow => exact ⟨approximates_powerDimension ha rhs, .refl _⟩
  | eq | ne | lt | gt | le | ge => exact ⟨.refl, .refl _⟩

theorem tellsLess_call (function : Function) {args args' : List Dimension}
    (h : List.Forall₂ Approximates args args') :
    TellsLess (callDimension function args) (callDimension function args') := by
  have hfirst : Approximates (args.head?.getD .unknown) (args'.head?.getD .unknown) := by
    simpa only [List.head?_eq_getElem?] using Approximates.getD h 0
  cases function with
  | sqrt =>
      refine ⟨?_, .refl _⟩
      show Approximates (rootDimension _) (rootDimension _)
      rcases hfirst with hfirst | hfirst
      · rw [hfirst]; exact .unknown
      · rw [hfirst]; exact .refl
  | abs | round => exact ⟨hfirst, .refl _⟩
  | cond =>
      exact tellsLess_of_strict (f := fun a b => callDimension .cond [.unknown, a, b]) (fun b => by cases b <;> rfl)
        (fun a => by cases a <;> rfl) (.getD h 1) (.getD h 2)
  | _ => exact ⟨.refl, .refl _⟩

mutual
theorem tellsLess_inferDimension (kindOf : String → Option ValueKind) :
    (e : Term) → TellsLess (inferDimension kindOf e) (inferDimension kindOf e.withoutGroups)
  | .number _ | .text _ | .boolean _ | .reference _ => ⟨.refl, .refl _⟩
  | .group inner => tellsLess_inferDimension kindOf inner
  | .negate operand => tellsLess_inferDimension kindOf operand
  | .binary op lhs rhs => by
      obtain ⟨hleft, hwarnings⟩ := tellsLess_inferDimension kindOf lhs
      obtain ⟨hright, hmore⟩ := tellsLess_inferDimension kindOf rhs
      obtain ⟨hwhole, hlast⟩ := tellsLess_binary op hleft hright rhs
      exact ⟨hwhole, (hwarnings.append hmore).append hlast⟩
  | .call function args => by
      obtain ⟨hargs, hwarnings⟩ := tellsLess_inferDimensions kindOf args
      obtain ⟨hwhole, hlast⟩ := tellsLess_call function hargs
      exact ⟨hwhole, hwarnings.append hlast⟩

theorem tellsLess_inferDimensions (kindOf : String → Option ValueKind) : (args : List Term) →
    List.Forall₂ Approximates (inferDimensions kindOf args).1 (inferDimensions kindOf (withoutGroupsAll args)).1 ∧
      (inferDimensions kindOf args).2.Sublist (inferDimensions kindOf (withoutGroupsAll args)).2
  | [] => ⟨.nil, .refl _⟩
  | e :: rest => by
      obtain ⟨hfirst, hwarnings⟩ := tellsLess_inferDimension kindOf e
      obtain ⟨hrest, hmore⟩ := tellsLess_inferDimensions kindOf rest
      exact ⟨.cons hfirst hrest, hwarnings.append hmore⟩
end

/-! ## Where parentheses hide nothing -/

/-- Parentheses hide the exponent of a power of a length that is a literal without them. -/
def HidesExponent (kindOf : String → Option ValueKind) : Term → Prop
  | .binary .pow lhs rhs => literalExponent? rhs = none ∧ ∃ p n,
      (infer kindOf lhs.withoutGroups).dimension = .length p ∧ literalExponent? rhs.withoutGroups = some n ∧
      lengthPower (p * n) ≠ .unknown
  | _ => False

theorem powerDimension_withoutGroups {lhs : Term} (h : ¬HidesExponent kindOf (.binary .pow lhs rhs)) :
    powerDimension (infer kindOf lhs.withoutGroups).dimension rhs.withoutGroups =
      powerDimension (infer kindOf lhs.withoutGroups).dimension rhs := by
  cases hn : literalExponent? rhs with
  | some n => rw [literalExponent?_withoutGroups hn]
  | none =>
      cases hn' : literalExponent? rhs.withoutGroups with
      | none => simp [powerDimension, hn, hn']
      | some n =>
          cases hbase : (infer kindOf lhs.withoutGroups).dimension with
          | length p =>
              have hunknown : lengthPower (p * n) = .unknown :=
                Decidable.byContradiction fun hne => h ⟨hn, p, n, hbase, hn', hne⟩
              simp [powerDimension, hn, hn', hunknown]
          | _ => rfl

theorem binaryDimension_withoutGroups {op : BinaryOperator} {lhs : Term}
    (h : ¬HidesExponent kindOf (.binary op lhs rhs)) (right : Dimension) :
    binaryDimension op (infer kindOf lhs.withoutGroups).dimension right rhs.withoutGroups =
      binaryDimension op (infer kindOf lhs.withoutGroups).dimension right rhs := by
  cases op with
  | pow => exact congrArg (·, []) (powerDimension_withoutGroups h)
  | _ => rfl

mutual
theorem inferDimension_withoutGroups :
    (e : Term) → (∀ part ∈ e.parts, ¬HidesExponent kindOf part) →
      inferDimension kindOf e.withoutGroups = inferDimension kindOf e
  | .number _, _ | .text _, _ | .boolean _, _ | .reference _, _ => rfl
  | .group inner, h => inferDimension_withoutGroups inner (List.forall_mem_cons.mp h).2
  | .negate operand, h => inferDimension_withoutGroups operand (List.forall_mem_cons.mp h).2
  | .binary op lhs rhs, h => by
      obtain ⟨hself, hparts⟩ := List.forall_mem_cons.mp h
      obtain ⟨hlhs, hrhs⟩ := List.forall_mem_append.mp hparts
      have hwhole := binaryDimension_withoutGroups hself (inferDimension kindOf rhs).1
      rw [infer_dimension, inferDimension_withoutGroups lhs hlhs] at hwhole
      simp only [withoutGroups, inferDimension, inferDimension_withoutGroups lhs hlhs,
        inferDimension_withoutGroups rhs hrhs, hwhole]
  | .call function args, h => by
      simp only [withoutGroups, inferDimension, inferDimensions_withoutGroups args (List.forall_mem_cons.mp h).2]

theorem inferDimensions_withoutGroups :
    (args : List Term) → (∀ part ∈ partsAll args, ¬HidesExponent kindOf part) →
      inferDimensions kindOf (withoutGroupsAll args) = inferDimensions kindOf args
  | [], _ => rfl
  | e :: rest, h => by
      obtain ⟨hfirst, hrest⟩ := List.forall_mem_append.mp h
      simp only [withoutGroupsAll, inferDimensions, inferDimension_withoutGroups e hfirst,
        inferDimensions_withoutGroups rest hrest]
end

theorem infer_withoutGroups_ne {e : Term} (h : HidesExponent kindOf e) :
    infer kindOf e ≠ infer kindOf e.withoutGroups := by
  match e, h with
  | .binary .pow lhs rhs, ⟨hnone, p, n, hbase, hn, hknown⟩ =>
      have hhidden : (infer kindOf (.binary .pow lhs rhs)).dimension = .unknown := by
        rw [infer_dimension]
        simp only [inferDimension, binaryDimension]
        rcases (tellsLess_inferDimension kindOf lhs).1 with hlhs | hlhs
        · rw [hlhs]
          rfl
        · rw [hlhs, ← infer_dimension, hbase]
          simp [powerDimension, hnone]
      have hshown : (infer kindOf (Expr.binary .pow lhs rhs).withoutGroups).dimension = lengthPower (p * n) := by
        rw [infer_dimension] at hbase ⊢
        simp only [withoutGroups, inferDimension, binaryDimension, hbase, powerDimension, hn]
      intro heq
      rw [← hhidden, heq] at hknown
      exact hknown hshown.symm

/-- With parentheses in it, nothing else is inferred of an expression than without them, except that nothing may be
known about its dimension and that warnings may be missing. The same is inferred of all its parts exactly if no part
hides an exponent. -/
theorem infer_withoutGroups (kindOf : String → Option ValueKind) (e : Term) :
    ((infer kindOf e).dimension = .unknown ∨
        (infer kindOf e).dimension = (infer kindOf e.withoutGroups).dimension) ∧
      (infer kindOf e).warnings.Sublist (infer kindOf e.withoutGroups).warnings ∧
      ((∀ part ∈ e.parts, infer kindOf part = infer kindOf part.withoutGroups) ↔
        ∀ part ∈ e.parts, ¬HidesExponent kindOf part) := by
  obtain ⟨hdimension, hwarnings⟩ := tellsLess_inferDimension kindOf e
  refine ⟨hdimension, hwarnings, fun h part hmem hhides => infer_withoutGroups_ne hhides (h part hmem),
    fun h part hmem => ?_⟩
  have hsame := inferDimension_withoutGroups part fun other hother => h other (parts_subset e hmem hother)
  simp only [infer, hsame]

/-- Nothing is known about the square of a length with an exponent in parentheses. -/
theorem infer_withoutGroups_ne_square :
    let kindOf : String → Option ValueKind := fun _ => some .length
    ∃ e, parse "w ^ (2)" = .ok e ∧ infer kindOf e = ⟨.unknown, []⟩ ∧
      infer kindOf e.withoutGroups = ⟨.length 2, []⟩ := by
  intro kindOf
  have h : (parse "w ^ (2)").toOption.any (fun e =>
      infer kindOf e = ⟨.unknown, []⟩ ∧ infer kindOf e.withoutGroups = ⟨.length 2, []⟩) := by decide +kernel
  cases hparse : parse "w ^ (2)" with
  | error issue => simp [hparse, Except.toOption] at h
  | ok e => exact ⟨e, rfl, by simpa [hparse, Except.toOption] using h⟩

end Parametric.Formula
