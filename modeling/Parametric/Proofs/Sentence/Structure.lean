import Mathlib
import Parametric.Proofs.Formula.Grouping
import Parametric.Proofs.Formula.Nesting
import Parametric.Proofs.Sentence.Pieces

/-!
# The structure of translated formulas

A spoken formula is translated into a text that is read as the formula again, with more parentheses, if its functions
are closed in the right order and the levels of the parser suffice.
-/

namespace Parametric.Formula.Expr

@[simp] theorem withoutGroups_enclosed (needed : Bool) (e : Term) :
    (enclosed needed e).withoutGroups = e.withoutGroups := by
  cases needed <;> rfl

end Parametric.Formula.Expr

namespace Parametric.Sentence

open Formula

theorem FunctionPhrase.accepts_one (phrase : FunctionPhrase) : phrase.function.accepts 1 = true := by
  have hall : ∀ entry ∈ phrases, (match entry.2 with
      | .function name => (Function.named? name).all (·.accepts 1)
      | _ => true) = true := by
    decide +kernel
  have hone : (Function.named? phrase.function.name).all (·.accepts 1) = true := hall _ phrase.listed
  rwa [named?_name] at hone

namespace Spoken

/-! ## The order in which functions are closed -/

def hasOperator : Spoken → Bool
  | .number _ | .reference _ => false
  | .operation .. => true
  | .application _ argument => argument.hasOperator

/-- Whether every function that starts what another one is applied to is itself applied to a formula without operators;
`inside` tells whether the formula starts what a function is applied to. -/
def closesInOrder : Bool → Spoken → Bool
  | _, .number _ | _, .reference _ => true
  | inside, .operation _ lhs rhs => lhs.closesInOrder inside && rhs.closesInOrder false
  | false, .application _ argument => argument.closesInOrder true
  | true, .application _ argument => !argument.hasOperator

theorem closesInOrder_of_hasOperator_eq_false : (s : Spoken) → s.hasOperator = false →
    ∀ inside, s.closesInOrder inside = true
  | .number _, _, inside | .reference _, _, inside => by cases inside <;> rfl
  | .application _ argument, h, false => closesInOrder_of_hasOperator_eq_false argument h true
  | .application _ _, h, true => congrArg Bool.not h

theorem lexemes_succ (c : Convention) : (s : Spoken) → s.hasOperator = false → ∀ unclosed,
    s.lexemes c (unclosed + 1) = s.lexemes c unclosed ++ [.rightParen]
  | .number _, _, _ | .reference _, _, _ => by
      rw [lexemes, lexemes, List.replicate_succ', List.cons_append]
  | .application _ argument, h, unclosed => by
      rw [lexemes, lexemes_succ c argument h (unclosed + 1), lexemes, List.cons_append, List.cons_append,
        List.cons_append]

/-! ## Expressions and levels -/

def parsed (c : Convention) : Bool → Spoken → Term
  | inside, .number digits => .enclosed inside (.number digits.value)
  | inside, .reference name => .enclosed inside (.reference (name.normal c))
  | inside, .operation phrase lhs rhs =>
    .binary phrase.operator (.enclosed (!lhs.isAtom) (lhs.parsed c inside)) (.enclosed (!rhs.isAtom) (rhs.parsed c false))
  | inside, .application phrase argument => .enclosed inside (.call phrase.function [argument.parsed c true])

/-- The levels that the parts of an operand take. -/
def operandLevels (s : Spoken) (inside : Bool) (levels : Nat) : Nat := if s.isAtom then inside.toNat else levels

def levels : Bool → Spoken → Nat
  | inside, .number _ | inside, .reference _ => inside.toNat + 1
  | inside, .operation _ lhs rhs =>
    max (lhs.operandLevels inside (lhs.levels inside)) (rhs.operandLevels false (rhs.levels false) + 2) + 1
  | inside, .application _ argument => argument.levels true + inside.toNat + 1

theorem withoutGroups_parsed (c : Convention) : (s : Spoken) → ∀ inside, (s.parsed c inside).withoutGroups = s.formula c
  | .number _, inside | .reference _, inside => Expr.withoutGroups_enclosed inside _
  | .operation phrase lhs rhs, inside => by
      rw [parsed, Expr.withoutGroups, Expr.withoutGroups_enclosed, Expr.withoutGroups_enclosed,
        withoutGroups_parsed c lhs inside, withoutGroups_parsed c rhs false, formula]
  | .application phrase argument, inside => by
      rw [parsed, Expr.withoutGroups_enclosed, Expr.withoutGroups, Expr.withoutGroupsAll, Expr.withoutGroupsAll,
        withoutGroups_parsed c argument true, formula]

/-! ## Reading -/

def opening (inside : Bool) : List Lexeme := if inside then [.leftParen] else []

theorem operandAt_atom {kind : Lexeme} {e : Term} (h : OperandAt 0 [kind] e) (inside : Bool) :
    OperandAt inside.toNat (opening inside ++ kind :: List.replicate inside.toNat .rightParen) (.enclosed inside e) := by
  cases inside with
  | false => exact h
  | true => exact h.phrase.group

variable {c : Convention} (hc : c.Separates)
include hc

theorem operandAt_enclosed (s : Spoken) {inside : Bool}
    (h : PhraseAt (s.levels inside) (opening inside ++ s.lexemes c inside.toNat) (s.parsed c inside)) :
    OperandAt (s.operandLevels inside (s.levels inside))
      (opening inside ++ s.enclosedLexemes (s.lexemes c inside.toNat)) (.enclosed (!s.isAtom) (s.parsed c inside)) := by
  have hgroup := h.group
  have hopening : ∀ kinds, .leftParen :: (opening inside ++ kinds) = opening inside ++ .leftParen :: kinds := by
    cases inside <;> exact fun _ => rfl
  rw [List.append_assoc, hopening] at hgroup
  cases s with
  | number digits => exact operandAt_atom (operandAt_number _) inside
  | reference name => exact operandAt_atom (operandAt_name (name.trim_normal hc)) inside
  | operation | application => exact hgroup

/-- The tokens of a formula whose functions are closed in order are read as the formula. -/
theorem phraseAt_lexemes : (s : Spoken) → ∀ inside, s.closesInOrder inside = true →
    PhraseAt (s.levels inside) (opening inside ++ s.lexemes c inside.toNat) (s.parsed c inside)
  | .number digits, inside, _ => (operandAt_atom (operandAt_number _) inside).phrase
  | .reference name, inside, _ => (operandAt_atom (operandAt_name (name.trim_normal hc)) inside).phrase
  | .operation phrase lhs rhs, inside, h => by
      obtain ⟨hl, hr⟩ := Bool.and_eq_true_iff.mp h
      have hlhs := operandAt_enclosed hc lhs (phraseAt_lexemes lhs inside hl)
      have hrhs := operandAt_enclosed hc rhs (phraseAt_lexemes rhs false hr)
      have hbinary := hlhs.binary phrase.operator hrhs
      rwa [List.append_assoc] at hbinary
  | .application phrase argument, false, h =>
    ((phraseAt_lexemes argument true h).call (named?_name _) phrase.accepts_one).phrase
  | .application phrase argument, true, h => by
      have hnone : argument.hasOperator = false := by simpa [closesInOrder] using h
      have hargument := phraseAt_lexemes argument true (argument.closesInOrder_of_hasOperator_eq_false hnone true)
      -- the parenthesis that closes the outer function stands behind all that closes this one
      have hkinds : (application phrase argument).lexemes c 1 =
          (application phrase argument).lexemes c 0 ++ [.rightParen] := lexemes_succ c (application phrase argument) hnone 0
      rw [show true.toNat = 1 from rfl, hkinds]
      exact (hargument.call (named?_name _) phrase.accepts_one).phrase.group.phrase

theorem parse_joinPieces (hclose : ']' ∉ c.separator.toList) {s : Spoken} (h : s.closesInOrder false = true) :
    Needs (s.levels false) nestingLimit (parse (joinPieces (s.pieces c 0))) (s.parsed c false) :=
  (phraseAt_lexemes hc s false h).parse (prints_pieces hc hclose s 0).spells

omit hc

theorem separates_default : Convention.Separates {} := ⟨by decide, by simp⟩

end Spoken

/-- Every spoken formula is translated. If its functions are closed in order, its text is read as the formula with more
parentheses, unless it needs more levels than the parser has. -/
theorem parse_expressionText (s : Spoken) : ∃ text, expressionText {} s.text = .ok text ∧
    (s.closesInOrder false = true →
      if s.levels false ≤ nestingLimit then ∃ e, parse text = .ok e ∧ e.withoutGroups = s.formula {}
      else TooDeep (parse text)) := by
  refine ⟨_, s.expressionText_text {}, fun h => ?_⟩
  have hneeds := Spoken.parse_joinPieces Spoken.separates_default (by decide) h
  unfold Needs at hneeds
  split
  case isTrue hle =>
    rw [if_pos hle] at hneeds
    exact ⟨_, hneeds, s.withoutGroups_parsed {} false⟩
  case isFalse hlt => rwa [if_neg hlt] at hneeds

def squareRoot : FunctionPhrase := ⟨.sqrt, "square root of", by decide⟩

def spokenRoot : Spoken :=
  let width : SpokenName := ⟨["room", "width"], by decide, by decide +kernel⟩
  let angle : SpokenName := ⟨["angle"], by decide, by decide +kernel⟩
  let number : Digits := ⟨['2'], ['5'], by decide, List.all_eq_true.mp (by decide)⟩
  .application squareRoot
    (.operation ⟨.mul, "times", by decide⟩
      (.operation ⟨.add, "plus", by decide⟩ (.reference width) (.number number))
      (.application ⟨.sin, "sine of", by decide⟩ (.reference angle)))

theorem parse_expressionText_root :
    spokenRoot.text = "square root of ((room width plus 2.5) times (sine of (angle)))" ∧
      spokenRoot.closesInOrder false = true ∧ ∃ text e, expressionText {} spokenRoot.text = .ok text ∧
        parse text = .ok e ∧ e.withoutGroups = spokenRoot.formula {} := by
  have hclosed : spokenRoot.closesInOrder false = true := by decide +kernel
  have hlevels : spokenRoot.levels false ≤ nestingLimit := by decide +kernel
  obtain ⟨text, htext, hread⟩ := parse_expressionText spokenRoot
  have hparse := hread hclosed
  rw [if_pos hlevels] at hparse
  obtain ⟨e, hparse, he⟩ := hparse
  exact ⟨by decide +kernel, hclosed, text, e, htext, hparse, he⟩

def spokenName : SpokenName := ⟨["x"], by decide, by decide +kernel⟩

def spokenRoots : Nat → Spoken
  | 0 => .reference spokenName
  | count + 1 => .application squareRoot (spokenRoots count)

theorem hasOperator_spokenRoots : (count : Nat) → (spokenRoots count).hasOperator = false
  | 0 => rfl
  | count + 1 => hasOperator_spokenRoots count

theorem levels_spokenRoots (count : Nat) : (spokenRoots (count + 1)).levels false = 2 * count + 3 := by
  have hinside : (spokenRoots count).levels true = 2 * count + 2 := by
    induction count with
    | zero => rfl
    | succ count ih =>
        rw [spokenRoots, Spoken.levels, ih]
        simp only [Bool.toNat_true]
        omega
  rw [spokenRoots, Spoken.levels, hinside]
  rfl

theorem tooDeep_spokenRoots {count : Nat} (h : nestingLimit < 2 * count + 3) :
    ∃ text, expressionText {} (spokenRoots (count + 1)).text = .ok text ∧ TooDeep (parse text) := by
  have hclosed := (spokenRoots (count + 1)).closesInOrder_of_hasOperator_eq_false (hasOperator_spokenRoots _) false
  have hneeds := Spoken.parse_joinPieces Spoken.separates_default (by decide) hclosed
  rw [levels_spokenRoots] at hneeds
  exact ⟨_, (spokenRoots (count + 1)).expressionText_text {}, hneeds.tooDeep h⟩

theorem not_parse_expressionText : ¬∀ s : Spoken, ∃ text e, expressionText {} s.text = .ok text ∧
    parse text = .ok e ∧ e.withoutGroups = s.formula {} := by
  intro hall
  obtain ⟨text, e, htext, hparse, -⟩ := hall (spokenRoots 128)
  obtain ⟨deep, hdeep, position, herror⟩ := @tooDeep_spokenRoots 127 (by decide)
  obtain rfl := Except.ok.inj (htext.symm.trans hdeep)
  cases hparse.symm.trans herror

end Parametric.Sentence
