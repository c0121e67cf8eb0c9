import Parametric.Proofs.Formula.Meaning
import Parametric.Proofs.Formula.Parsed

/-!
# Writing and reading back

An expression means what its text is read as, unless a remainder is captured or a minus sign is lost.
-/

namespace Parametric.Formula

namespace Interpretation

open Parametric.Formula.Expr

/-- A reading that counts: first the leaves of an expression, then the literals that are written as
they are together with the leaves to the left of each remainder. -/
def counting : Interpretation (Nat × Nat) where
  number x := (1, if isNegativeZero x then 0 else 1)
  text _ := (1, 0)
  boolean _ := (1, 0)
  name _ := (1, 0)
  negate x := x
  binary op x y := (x.1 + y.1, x.2 + y.2 + if op = .rem then x.1 else 0)
  call _ args := (1, args.foldr (fun x total => x.2 + total) 0)

theorem isNegativeZero_abs (x : Float) : isNegativeZero x.abs = false :=
  beq_eq_false_iff_ne.mpr (Number.toBits_abs_ne x)

theorem isNegativeZero_of_lt_zero {x : Float} (h : x < 0.0) : isNegativeZero x = false := by
  by_contra hzero
  rw [Bool.not_eq_false, isNegativeZero, beq_iff_eq] at hzero
  have hd : Number.Dyadic.ofFloat? x = some ⟨true, 0, -1074⟩ :=
    Number.ofFloat?_iff.mpr ⟨⟨by decide, by decide, by decide, .inr rfl⟩, hzero⟩
  exact ((Number.lt_zero_iff hd).mp h).2 rfl

theorem counting_lawful : counting.Lawful where
  add_add x y z := by simp [counting, Nat.add_assoc]
  add_sub x y z := by simp [counting, Nat.add_assoc]
  mul_mul x y z := by simp [counting, Nat.add_assoc]
  mul_div x y z := by simp [counting, Nat.add_assoc]
  number_of_lt_zero x h := by simp [counting, isNegativeZero_abs, isNegativeZero_of_lt_zero h]

def leaves (e : Term) : Nat := (counting.eval e).1

def total (e : Term) : Nat := (counting.eval e).2

theorem leaves_binary (op : BinaryOperator) (lhs rhs : Term) :
    leaves (.binary op lhs rhs) = leaves lhs + leaves rhs := rfl

theorem total_binary (op : BinaryOperator) (lhs rhs : Term) :
    total (.binary op lhs rhs) = total lhs + total rhs + if op = .rem then leaves lhs else 0 := rfl

theorem leaves_pos : (e : Term) → 0 < leaves e
  | .number _ | .text _ | .boolean _ | .reference _ | .call _ _ => Nat.one_pos
  | .negate operand => leaves_pos operand
  | .binary _ lhs _ => Nat.add_pos_left (leaves_pos lhs) _
  | .group inner => leaves_pos inner

theorem leaves_graft (op : BinaryOperator) (lhs : Term) :
    (rhs : Term) → leaves (graft op lhs rhs) = leaves lhs + leaves rhs
  | .binary inner first second => by
    unfold graft
    split
    · rw [leaves_binary, leaves_graft op lhs first, leaves_binary, Nat.add_assoc]
    · rfl
  | .number _ | .text _ | .boolean _ | .reference _ | .negate _ | .call _ _ | .group _ => rfl

theorem leaves_join (op : BinaryOperator) (lhs rhs : Term) :
    leaves (join op lhs rhs) = leaves lhs + leaves rhs := by
  unfold join
  split
  · rfl
  · exact leaves_graft op lhs rhs

@[simp] theorem leaves_enclosed (needed : Bool) (e : Term) : leaves (enclosed needed e) = leaves e := by
  cases needed <;> rfl

@[simp] theorem total_enclosed (needed : Bool) (e : Term) : total (enclosed needed e) = total e := by
  cases needed <;> rfl

theorem leaves_reread : (e : Term) → leaves e.reread = leaves e
  | .number value => by
    rw [reread]
    split <;> rfl
  | .text _ | .boolean _ | .reference _ | .call _ _ => rfl
  | .negate operand => (leaves_enclosed _ operand.reread).trans (leaves_reread operand)
  | .binary op lhs rhs => by
    rw [reread, leaves_join, leaves_enclosed, leaves_enclosed, leaves_reread lhs, leaves_reread rhs, leaves_binary]
  | .group inner => leaves_reread inner

theorem total_graft (op : BinaryOperator) (lhs : Term) :
    (rhs : Term) → total (graft op lhs rhs) = total (.binary op lhs rhs) +
      if op.precedence = 3 then rhs.chainRemainders * leaves lhs else 0
  | .binary inner first second => by
    unfold graft
    split
    case isTrue h =>
      -- the leaves of `lhs` come to stand before `inner`, and before what is left of the chain
      rw [total_binary inner, total_graft op lhs first, leaves_graft, total_binary, total_binary, total_binary,
        chainRemainders, h]
      by_cases hop : op.precedence = 3
      · rw [if_pos hop, if_pos hop, if_pos hop, Nat.add_mul]
        by_cases hrem : inner = .rem
        · simp only [hrem, if_true, Nat.one_mul]
          omega
        · simp only [hrem, if_false, Nat.zero_mul]
          omega
      · have hinner : inner ≠ .rem := by
          rintro rfl
          exact hop h.symm
        simp only [hop, if_false, if_neg hinner]
        omega
    case isFalse h =>
      by_cases hop : op.precedence = 3
      · have hlevel : level (.binary inner first second) ≠ 3 := fun heq => h (heq.trans hop.symm)
        rw [chainRemainders_eq_zero hlevel, Nat.zero_mul]
        split <;> rfl
      · rw [if_neg hop]
        rfl
  | .number _ | .text _ | .boolean _ | .reference _ | .negate _ | .call _ _ | .group _ => by
    simp [graft, chainRemainders]

end Interpretation

namespace Expr

open Interpretation

theorem precedence?_ungrouped : (e : Term) → e.ungrouped.precedence? = e.precedence?
  | .group inner => precedence?_ungrouped inner
  | .number _ | .text _ | .boolean _ | .reference _ | .negate _ | .binary _ _ _ | .call _ _ => rfl

theorem precedence?_of_continuesChain {op : BinaryOperator} {rhs : Term} (h : continuesChain op rhs) :
    rhs.precedence? = some op.precedence := by
  rw [← precedence?_ungrouped]
  unfold continuesChain at h
  split at h
  case h_1 heq | h_2 heq =>
    rw [heq]
    rfl
  case h_3 => cases h

theorem needsParensRight_of_continuesChain {op : BinaryOperator} {rhs : Term} (h : continuesChain op rhs) :
    needsParensRight op rhs = false := by
  have hop : op.groupsRight = false := by rcases op_of_continuesChain h with rfl | rfl <;> rfl
  simp [needsParensRight, hop, isLooserThan, precedence?_of_continuesChain h, h]

theorem total_reread_binary (op : BinaryOperator) (lhs rhs : Term) :
    total (reread (.binary op lhs rhs)) =
      total lhs.reread + total rhs.reread + (if op = .rem then leaves lhs else 0) +
        if op.precedence = 3 then
          (enclosed (needsParensRight op rhs) rhs.reread).chainRemainders * leaves lhs
        else 0 := by
  rw [reread, join]
  cases hgroups : op.groupsRight with
  | true =>
    have hop : op = .pow := by simpa [BinaryOperator.groupsRight] using hgroups
    rw [if_pos rfl, total_binary, hop]
    simp [BinaryOperator.precedence]
  | false =>
    rw [if_neg (by simp), total_graft, total_binary]
    simp only [total_enclosed, leaves_enclosed, leaves_reread]

theorem lt_total_of_startsWithRemainder {op : BinaryOperator} (lhs : Term) {rhs : Term}
    (hchain : continuesChain op rhs) (hstart : rhs.startsWithRemainder) :
    total lhs.reread + total rhs.reread + (if op = .rem then leaves lhs else 0) <
      total (reread (.binary op lhs rhs)) := by
  have hop : op.precedence = 3 := by
    have hp := precedence?_of_continuesChain hchain
    rw [precedence?_of_startsWithRemainder rhs hstart] at hp
    exact (Option.some.inj hp).symm
  rw [total_reread_binary, needsParensRight_of_continuesChain hchain, if_pos hop]
  exact Nat.lt_add_of_pos_right (Nat.mul_pos (chainRemainders_pos rhs hstart) (leaves_pos lhs))

mutual
/-- What is read back counts as much as the expression, and more if its meaning is lost. -/
theorem total_le_reread : (e : Term) → total e ≤ total e.reread ∧
    (e.capturesRemainder ∨ e.hasNegativeZero → total e < total e.reread)
  | .number value => by
    have hread : total (reread (.number value)) = 1 := by
      rw [reread]
      split <;> simp [total, eval, counting, isNegativeZero_abs]
    rw [hread]
    cases hzero : isNegativeZero value <;> simp [total, eval, counting, capturesRemainder, hasNegativeZero, hzero]
  | .text _ | .boolean _ | .reference _ => ⟨Nat.le_refl _, by simp [capturesRemainder, hasNegativeZero]⟩
  | .negate operand => by
    have ih := total_le_reread operand
    rwa [← total_enclosed (operand.isLooserThan negationPrecedence) operand.reread] at ih
  | .binary op lhs rhs => by
    have ihl := total_le_reread lhs
    have ihr := total_le_reread rhs
    have hle : total lhs.reread + total rhs.reread + (if op = .rem then leaves lhs else 0) ≤
        total (reread (.binary op lhs rhs)) := by
      rw [total_reread_binary]
      exact Nat.le_add_right _ _
    rw [total_binary]
    refine ⟨by omega, fun h => ?_⟩
    simp only [capturesRemainder, hasNegativeZero, Bool.or_eq_true, Bool.and_eq_true] at h
    rcases h with ((⟨hchain, hstart⟩ | h) | h) | (h | h)
    · have := lt_total_of_startsWithRemainder lhs hchain hstart
      omega
    · have := ihl.2 (.inl h)
      omega
    · have := ihr.2 (.inl h)
      omega
    · have := ihl.2 (.inr h)
      omega
    · have := ihr.2 (.inr h)
      omega
  | .call function args => total_le_rereadAll args
  | .group inner => total_le_reread inner

theorem total_le_rereadAll : (args : List Term) →
    (counting.evalAll args).foldr (fun x total => x.2 + total) 0 ≤
        (counting.evalAll (rereadAll args)).foldr (fun x total => x.2 + total) 0 ∧
      (captureRemainder args ∨ haveNegativeZero args →
        (counting.evalAll args).foldr (fun x total => x.2 + total) 0 <
          (counting.evalAll (rereadAll args)).foldr (fun x total => x.2 + total) 0)
  | [] => ⟨Nat.le_refl _, by simp [captureRemainder, haveNegativeZero]⟩
  | e :: rest => by
    have ihe := total_le_reread e
    have ihrest := total_le_rereadAll rest
    simp only [total] at ihe
    simp only [rereadAll, evalAll, List.foldr_cons, captureRemainder, haveNegativeZero, Bool.or_eq_true]
    refine ⟨by omega, fun h => ?_⟩
    rcases h with (h | h) | (h | h)
    · have := ihe.2 (.inl h)
      omega
    · have := ihrest.2 (.inl h)
      omega
    · have := ihe.2 (.inr h)
      omega
    · have := ihrest.2 (.inr h)
      omega
end

/-- Whether two expressions have the same value under every lawful reading. -/
def SameMeaning (e e' : Term) : Prop := ∀ (V : Type) (I : Interpretation V), I.Lawful → I.eval e' = I.eval e

/-- What a text is read as means the same as the expression that was written exactly if no remainder
captures what stands before it and no minus sign of a zero is lost. -/
theorem sameMeaning_parse_render_iff {source : String} {style : Style} {e₀ e e' : Term}
    (hparse : parse source = .ok e₀) (he : e = e₀ ∨ e = (optimize e₀).expr) (hfinite : e.hasFiniteNumbers)
    (hread : parse (e.render style) = .ok e') :
    SameMeaning e e' ↔ ¬e.capturesRemainder ∧ ¬e.hasNegativeZero := by
  obtain rfl := parse_render (readable_optimize_of_parse hparse he) hfinite hread
  constructor
  · intro h
    have htotal : total e.reread = total e := congrArg Prod.snd (h _ counting counting_lawful)
    refine ⟨fun hcapture => ?_, fun hzero => ?_⟩
    · exact absurd htotal (Nat.ne_of_gt ((total_le_reread e).2 (.inl hcapture)))
    · exact absurd htotal (Nat.ne_of_gt ((total_le_reread e).2 (.inr hzero)))
  · rintro ⟨hcapture, hzero⟩ V I hI
    exact hI.eval_reread e hfinite (by simpa using hcapture) (by simpa using hzero)

/-- The expression of a text, and the expression that its own text is read as. -/
def readings (source : String) (style : Style) : Option (Term × Term) := do
  let e ← (parse source).toOption
  let e' ← (parse (e.render style)).toOption
  return (e, e')

theorem exists_of_readings (source : String) (style : Style) {p : Term → Term → Bool}
    (h : (readings source style).any fun r => p r.1 r.2) :
    ∃ e e', parse source = .ok e ∧ parse (e.render style) = .ok e' ∧ p e e' := by
  unfold readings at h
  cases hparse : parse source with
  | error cause =>
    rw [hparse] at h
    cases h
  | ok e =>
    rw [hparse] at h
    cases hread : parse (e.render style) with
    | error cause =>
      simp [hread, Except.toOption] at h
    | ok e' =>
      refine ⟨e, e', rfl, hread, ?_⟩
      simpa [hread, Except.toOption] using h

/-- A remainder on the right of a chain stays in its parentheses. -/
theorem sameMeaning_product : ∃ e e', parse "a * (b * (c % 2))" = .ok e ∧ parse (e.render {}) = .ok e' ∧
    SameMeaning e e' := by
  obtain ⟨e, e', hparse, hread, h⟩ := exists_of_readings "a * (b * (c % 2))" {}
    (p := fun e _ => e.hasFiniteNumbers && !e.capturesRemainder && !e.hasNegativeZero) (by decide +kernel)
  simp only [Bool.and_eq_true, Bool.not_eq_true'] at h
  refine ⟨e, e', hparse, hread, ?_⟩
  exact (sameMeaning_parse_render_iff hparse (.inl rfl) h.1.1 hread).mpr (by simp [h.1.2, h.2])

/-- The parentheses around a product that starts with a remainder are not written. -/
theorem not_sameMeaning_captured : ∃ e e', parse "a * ((b % c) * d)" = .ok e ∧ e.hasFiniteNumbers ∧
    parse (e.render {}) = .ok e' ∧ ¬SameMeaning e e' := by
  obtain ⟨e, e', hparse, hread, h⟩ := exists_of_readings "a * ((b % c) * d)" {}
    (p := fun e e' => e.hasFiniteNumbers && total e' != total e) (by decide +kernel)
  simp only [Bool.and_eq_true, bne_iff_ne] at h
  exact ⟨e, e', hparse, h.1, hread, fun hsame => h.2 (congrArg Prod.snd (hsame _ counting counting_lawful))⟩

end Expr

end Parametric.Formula
