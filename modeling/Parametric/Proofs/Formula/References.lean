import Parametric.Formula.Simplify
import Parametric.Formula.Spelling
import Parametric.Proofs.Name

/-!
# References of expressions

Simplification drops operands and never brings in new ones. Uniform spelling puts for each name what
it means.
-/

namespace Parametric.Formula.Expr

theorem mem_namesAll {ν : Type} {args : List (Expr ν)} {e : Expr ν} {name : String} (he : e ∈ args)
    (h : name ∈ e.names) : name ∈ namesAll args := by
  induction he with
  | head rest => exact List.mem_append_left _ h
  | tail first _ ih => exact List.mem_append_right _ ih

variable {ν : Type} [Arithmetic ν]

theorem evalBinary_eq_some {op : BinaryOperator} {a b : ν} {e : Expr ν} (h : evalBinary op a b = some e) :
    (∃ value, e = .number value) ∨ ∃ value, e = .boolean value := by
  cases op
  all_goals
    simp only [evalBinary, Option.map_eq_some_iff, Option.some.injEq] at h
  case add | sub | mul | div | rem | pow =>
    obtain ⟨value, -, rfl⟩ := h
    exact .inl ⟨value, rfl⟩
  all_goals exact .inr ⟨_, h.symm⟩

theorem evalCall_eq_some {function : Function} {args : List (Expr ν)} {e : Expr ν}
    (h : evalCall function args = some e) : (∃ value, e = .number value) ∨ ∃ value, e = .boolean value := by
  simp only [evalCall] at h
  split at h
  case h_1 | h_2 => cases h
  case h_3 =>
    split at h
    · cases h
      exact .inr ⟨_, rfl⟩
    · cases h
  case h_4 | h_5 =>
    obtain ⟨values, -, rfl⟩ := Option.map_eq_some_iff.mp h
    exact .inr ⟨_, rfl⟩
  case h_6 =>
    obtain ⟨values, -, h⟩ := Option.bind_eq_some_iff.mp h
    obtain ⟨value, -, rfl⟩ := Option.map_eq_some_iff.mp h
    exact .inl ⟨value, rfl⟩

/-- An operation with a unit as one of its operands, and the other operand. -/
inductive DropsUnit : BinaryOperator → Expr ν → Expr ν → Expr ν → Prop
  | mulOne (e : Expr ν) {one : ν} (h : Arithmetic.isOne one = true) : DropsUnit .mul e (.number one) e
  | oneMul (e : Expr ν) {one : ν} (h : Arithmetic.isOne one = true) : DropsUnit .mul (.number one) e e
  | addZero (e : Expr ν) {zero : ν} (h : Arithmetic.isZero zero = true) : DropsUnit .add e (.number zero) e
  | zeroAdd (e : Expr ν) {zero : ν} (h : Arithmetic.isZero zero = true) : DropsUnit .add (.number zero) e e
  | subZero (e : Expr ν) {zero : ν} (h : Arithmetic.isZero zero = true) : DropsUnit .sub e (.number zero) e
  | divOne (e : Expr ν) {one : ν} (h : Arithmetic.isOne one = true) : DropsUnit .div e (.number one) e
  | powOne (e : Expr ν) {one : ν} (h : Arithmetic.isOne one = true) : DropsUnit .pow e (.number one) e

theorem exists_of_isOne {e : Expr ν} (h : e.isOne = true) : ∃ one, Arithmetic.isOne one = true ∧ e = .number one := by
  cases e with
  | number value => exact ⟨value, h, rfl⟩
  | _ => cases h

theorem exists_of_isZero {e : Expr ν} (h : e.isZero = true) :
    ∃ zero, Arithmetic.isZero zero = true ∧ e = .number zero := by
  cases e with
  | number value => exact ⟨value, h, rfl⟩
  | _ => cases h

theorem dropsUnit_of_withoutUnit {op : BinaryOperator} {lhs rhs e : Expr ν}
    (h : withoutUnit op lhs rhs = some e) : DropsUnit op lhs rhs e := by
  unfold withoutUnit at h
  -- one case per operator with units, and the right unit before the left one
  repeat' split at h
  all_goals
    cases h
  case h_1.isTrue hunit =>
    obtain ⟨one, hone, rfl⟩ := exists_of_isOne hunit
    exact .mulOne _ hone
  case h_1.isFalse.isTrue hunit =>
    obtain ⟨one, hone, rfl⟩ := exists_of_isOne hunit
    exact .oneMul _ hone
  case h_2.isTrue hunit =>
    obtain ⟨zero, hzero, rfl⟩ := exists_of_isZero hunit
    exact .addZero _ hzero
  case h_2.isFalse.isTrue hunit =>
    obtain ⟨zero, hzero, rfl⟩ := exists_of_isZero hunit
    exact .zeroAdd _ hzero
  case h_3.isTrue hunit =>
    obtain ⟨zero, hzero, rfl⟩ := exists_of_isZero hunit
    exact .subZero _ hzero
  case h_4.isTrue hunit =>
    obtain ⟨one, hone, rfl⟩ := exists_of_isOne hunit
    exact .divOne _ hone
  case h_5.isTrue hunit =>
    obtain ⟨one, hone, rfl⟩ := exists_of_isOne hunit
    exact .powOne _ hone

theorem DropsUnit.withoutUnit_ne_none {op : BinaryOperator} {lhs rhs e : Expr ν} (h : DropsUnit op lhs rhs e) :
    withoutUnit op lhs rhs ≠ none := by
  cases h with
  | mulOne _ hone | divOne _ hone | powOne _ hone => simp [withoutUnit, isOne, number?, hone]
  | addZero _ hzero | subZero _ hzero => simp [withoutUnit, isZero, number?, hzero]
  | oneMul _ hone =>
    simp only [withoutUnit]
    split
    · simp
    · simp [isOne, number?, hone]
  | zeroAdd _ hzero =>
    simp only [withoutUnit]
    split
    · simp
    · simp [isZero, number?, hzero]

theorem names_simplifyNegate (e : Expr ν) : (simplifyNegate e).1.names = e.names := by
  cases e <;> rfl

/-- A simplified operation is a literal, one of its operands, or the operation itself. -/
theorem simplifyBinary_cases (op : BinaryOperator) (lhs rhs : Expr ν) :
    (∃ value, (simplifyBinary op lhs rhs).1 = .number value) ∨
      (∃ value, (simplifyBinary op lhs rhs).1 = .boolean value) ∨
      (simplifyBinary op lhs rhs).1 ∈ [lhs, rhs, .binary op lhs rhs] := by
  simp only [simplifyBinary]
  split
  · rename_i e hfolded
    split at hfolded
    · exact (evalBinary_eq_some hfolded).imp_right .inl
    · cases hfolded
  · split
    · rename_i e hunit
      exact .inr (.inr (by cases dropsUnit_of_withoutUnit hunit <;> simp))
    · exact .inr (.inr (by simp))

/-- A simplified call is a literal, one of its arguments, or the call itself. -/
theorem simplifyCall_cases (function : Function) (args : List (Expr ν)) :
    (∃ value, (simplifyCall function args).1 = .number value) ∨
      (∃ value, (simplifyCall function args).1 = .boolean value) ∨
      (simplifyCall function args).1 ∈ args ∨ (simplifyCall function args).1 = .call function args := by
  simp only [simplifyCall]
  split
  · exact .inr (.inr (.inl (by simp)))
  · exact .inr (.inr (.inl (by simp)))
  · split
    · rename_i e hfolded
      exact (evalCall_eq_some hfolded).imp_right .inl
    · exact .inr (.inr (.inr rfl))

theorem names_simplifyBinary {op : BinaryOperator} {lhs rhs : Expr ν} {name : String}
    (h : name ∈ (simplifyBinary op lhs rhs).1.names) : name ∈ lhs.names ∨ name ∈ rhs.names := by
  rcases simplifyBinary_cases op lhs rhs with ⟨value, heq⟩ | ⟨value, heq⟩ | hmem
  · rw [heq] at h
    cases h
  · rw [heq] at h
    cases h
  · simp only [List.mem_cons, List.not_mem_nil, or_false] at hmem
    rcases hmem with heq | heq | heq
    · rw [heq] at h
      exact .inl h
    · rw [heq] at h
      exact .inr h
    · rw [heq] at h
      exact List.mem_append.mp h

theorem names_simplifyCall {function : Function} {args : List (Expr ν)} {name : String}
    (h : name ∈ (simplifyCall function args).1.names) : name ∈ namesAll args := by
  rcases simplifyCall_cases function args with ⟨value, heq⟩ | ⟨value, heq⟩ | hmem | heq
  · rw [heq] at h
    cases h
  · rw [heq] at h
    cases h
  · exact mem_namesAll hmem h
  · rw [heq] at h
    exact h

mutual
/-- A simplified expression references nothing that the expression does not. -/
theorem names_simplify {name : String} :
    (e : Expr ν) → name ∈ e.simplify.1.names → name ∈ e.names
  | .number _, h => h
  | .text _, h => h
  | .boolean _, h => h
  | .reference _, h => h
  | .negate operand, h => by
      simp only [simplify, names_simplifyNegate] at h
      exact names_simplify operand h
  | .binary op lhs rhs, h => by
      simp only [simplify] at h
      rw [names, List.mem_append]
      exact (names_simplifyBinary h).imp (names_simplify lhs) (names_simplify rhs)
  | .call function args, h => by
      simp only [simplify] at h
      exact names_simplifyAll args (names_simplifyCall h)
  | .group inner, h => by
      simp only [simplify] at h
      exact names_simplify inner h

theorem names_simplifyAll {name : String} :
    (args : List (Expr ν)) → name ∈ namesAll (simplifyAll args).1 → name ∈ namesAll args
  | [], h => h
  | e :: rest, h => by
      simp only [simplifyAll, namesAll, List.mem_append] at h
      rw [namesAll, List.mem_append]
      exact h.imp (names_simplify e) (names_simplifyAll rest)
end

theorem keys_references_optimize (e : Expr ν) :
    ∀ key ∈ (optimize e).expr.references.map keyOf, key ∈ e.references.map keyOf := by
  intro key h
  rw [references, mem_keys_distinctNames] at h ⊢
  obtain ⟨name, hname, rfl⟩ := List.mem_map.mp h
  exact List.mem_map_of_mem (names_simplify e hname)

/-! ## Uniform spelling -/

section Spelling

variable {ν : Type}

mutual
theorem names_mapNames (f : String → String) : (e : Expr ν) → (e.mapNames f).names = e.names.map f
  | .number _ | .text _ | .boolean _ => rfl
  | .reference _ => rfl
  | .negate operand => names_mapNames f operand
  | .binary _ lhs rhs => by
      rw [mapNames, names, names, List.map_append, names_mapNames f lhs, names_mapNames f rhs]
  | .call _ args => namesAll_mapNamesAll f args
  | .group inner => names_mapNames f inner

theorem namesAll_mapNamesAll (f : String → String) :
    (args : List (Expr ν)) → namesAll (mapNamesAll f args) = (namesAll args).map f
  | [] => rfl
  | e :: rest => by
      rw [mapNamesAll, namesAll, namesAll, List.map_append, names_mapNames f e,
        namesAll_mapNamesAll f rest]
end

@[simp] theorem length_mapNamesAll (f : String → String) (args : List (Expr ν)) :
    (mapNamesAll f args).length = args.length := by
  induction args with
  | nil => rfl
  | cons e rest ih => simp only [mapNamesAll, List.length_cons, ih]

mutual
theorem mapNames_eq_self {f : String → String} :
    {e : Expr ν} → (∀ name ∈ e.names, f name = name) → e.mapNames f = e
  | .number _, _ | .text _, _ | .boolean _, _ => rfl
  | .reference name, h => congrArg Expr.reference (h name (List.mem_singleton_self name))
  | .negate operand, h => congrArg Expr.negate (mapNames_eq_self (e := operand) h)
  | .binary op lhs rhs, h => by
      obtain ⟨hl, hr⟩ := List.forall_mem_append.mp h
      rw [mapNames, mapNames_eq_self hl, mapNames_eq_self hr]
  | .call function args, h => congrArg (Expr.call function) (mapNamesAll_eq_self h)
  | .group inner, h => congrArg Expr.group (mapNames_eq_self (e := inner) h)

theorem mapNamesAll_eq_self {f : String → String} :
    {args : List (Expr ν)} → (∀ name ∈ namesAll args, f name = name) → mapNamesAll f args = args
  | [], _ => rfl
  | e :: rest, h => by
      obtain ⟨he, hrest⟩ := List.forall_mem_append.mp h
      rw [mapNamesAll, mapNames_eq_self he, mapNamesAll_eq_self hrest]
end

theorem exists_of_lookup_ofNames {spelling? : String → Option String} {names : List String} {key spelled : String}
    (h : (Spellings.ofNames spelling? names).lookup key = some spelled) :
    ∃ name ∈ names, keyOf name = key ∧ spelling? name = some spelled := by
  obtain ⟨init, tail, hsplit, -⟩ := List.lookup_eq_some_iff.mp h
  have hmem : (key, spelled) ∈ Spellings.ofNames spelling? names := by
    rw [hsplit]
    simp
  obtain ⟨name, hname, hentry⟩ := List.mem_filterMap.mp hmem
  obtain ⟨_, hspelled, heq⟩ := Option.map_eq_some_iff.mp hentry
  obtain ⟨hkey, rfl⟩ := Prod.mk.inj heq
  exact ⟨name, hname, hkey, hspelled⟩

theorem keyOf_apply_ofNames {spelling? : String → Option String}
    (h : ∀ name spelled, spelling? name = some spelled → keyOf spelled = keyOf name) (names : List String)
    (name : String) : keyOf ((Spellings.ofNames spelling? names).apply name) = keyOf name := by
  rw [Spellings.apply]
  cases hlookup : (Spellings.ofNames spelling? names).lookup (keyOf name) with
  | none => rfl
  | some spelled =>
      obtain ⟨other, -, hkey, hspelled⟩ := exists_of_lookup_ofNames hlookup
      exact (h other spelled hspelled).trans hkey

/-- If every reference has a spelling, the references of the respelled expression are spellings of
references, up to letter case. -/
theorem exists_spelling_of_mem_respelled {spelling? : String → Option String} {e : Expr ν}
    (h : ∀ name ∈ e.references, (spelling? name).isSome = true) {key : String}
    (hkey : key ∈ (e.respelled (.ofNames spelling? e.references)).references.map keyOf) :
    ∃ name ∈ e.references, ∃ spelled, spelling? name = some spelled ∧ keyOf spelled = key := by
  rw [references, mem_keys_distinctNames, respelled, names_mapNames, List.map_map] at hkey
  obtain ⟨name, hname, rfl⟩ := List.mem_map.mp hkey
  obtain ⟨first, hfirst, hsame⟩ : ∃ first ∈ e.references, keyOf first = keyOf name :=
    List.mem_map.mp (mem_keys_distinctNames.mpr (List.mem_map_of_mem hname))
  obtain ⟨spelled, hspelled⟩ := Option.isSome_iff_exists.mp (h first hfirst)
  have hmem : (keyOf name, spelled) ∈ Spellings.ofNames spelling? e.references :=
    List.mem_filterMap.mpr ⟨first, hfirst, by rw [hspelled, ← hsame]; rfl⟩
  cases hlookup : (Spellings.ofNames spelling? e.references).lookup (keyOf name) with
  | none =>
      have hne := List.lookup_eq_none_iff.mp hlookup _ hmem
      simp at hne
  | some found =>
      obtain ⟨other, hother, -, hmeans⟩ := exists_of_lookup_ofNames hlookup
      exact ⟨other, hother, found, hmeans, by
        rw [Function.comp_apply, Spellings.apply, hlookup, Option.getD_some]⟩

end Spelling

end Parametric.Formula.Expr
