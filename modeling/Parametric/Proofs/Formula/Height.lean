import Parametric.Proofs.Formula.Lexing

/-!
# The height of parsed expressions

The nesting limit counts the parts that are open where the parser stands. A chain of operators grows on
top of its first operand when that operand is closed already, so that a tree can be higher than the limit.
-/

namespace Parametric.Formula

namespace Expr

variable {ν : Type}

mutual
/-- The number of nodes on the longest way down an expression. -/
def height : Expr ν → Nat
  | .number _ | .text _ | .boolean _ | .reference _ => 1
  | .negate operand => operand.height + 1
  | .binary _ lhs rhs => max lhs.height rhs.height + 1
  | .call _ args => greatestHeight args + 1
  | .group inner => inner.height + 1

def greatestHeight : List (Expr ν) → Nat
  | [] => 0
  | e :: rest => max e.height (greatestHeight rest)
end

mutual
/-- Whether every left operand, where it stands, leaves the expression within a height. -/
def LeftsFit (limit : Nat) : Expr ν → Prop
  | .number _ | .text _ | .boolean _ | .reference _ => True
  | .negate operand => operand.LeftsFit (limit - 1)
  | .binary _ lhs rhs => lhs.height < limit ∧ rhs.LeftsFit (limit - 1)
  | .call _ args => AllLeftsFit (limit - 1) args
  | .group inner => inner.LeftsFit (limit - 1)

def AllLeftsFit (limit : Nat) : List (Expr ν) → Prop
  | [] => True
  | e :: rest => e.LeftsFit limit ∧ AllLeftsFit limit rest
end

theorem height_pos (e : Expr ν) : 0 < e.height := by
  cases e <;> simp [height]

theorem greatestHeight_le_iff {args : List (Expr ν)} {limit : Nat} :
    greatestHeight args ≤ limit ↔ ∀ arg ∈ args, arg.height ≤ limit := by
  induction args with
  | nil => simp [greatestHeight]
  | cons e rest ih => simp [greatestHeight, ih]

theorem allLeftsFit_iff {args : List (Expr ν)} {limit : Nat} :
    AllLeftsFit limit args ↔ ∀ arg ∈ args, arg.LeftsFit limit := by
  induction args with
  | nil => simp [AllLeftsFit]
  | cons e rest ih => simp [AllLeftsFit, ih]

mutual
theorem leftsFit_of_height_le : (e : Expr ν) → {limit : Nat} → e.height ≤ limit → e.LeftsFit limit
  | .number _, _, _ | .text _, _, _ | .boolean _, _, _ | .reference _, _, _ => trivial
  | .negate operand, _, h | .group operand, _, h => leftsFit_of_height_le operand (Nat.le_sub_of_add_le h)
  | .binary _ lhs rhs, limit, h => by
    simp only [height] at h
    exact ⟨by omega, leftsFit_of_height_le rhs (by omega)⟩
  | .call _ args, _, h => allLeftsFit_of_greatestHeight_le args (Nat.le_sub_of_add_le h)

theorem allLeftsFit_of_greatestHeight_le : (args : List (Expr ν)) → {limit : Nat} →
    greatestHeight args ≤ limit → AllLeftsFit limit args
  | [], _, _ => trivial
  | e :: rest, limit, h => by
    simp only [greatestHeight] at h
    exact ⟨leftsFit_of_height_le e (by omega), allLeftsFit_of_greatestHeight_le rest (by omega)⟩
end

end Expr

/-! ## What the parser builds at a depth -/

mutual
/-- Whether the parser can build an expression at a depth. -/
inductive Within : Nat → Term → Prop where
  | chain {depth lhs e} : IsOperand depth lhs → Chained depth lhs e → Within (depth + 1) e

/-- Whether the parser can build an operand from parts that it builds at a depth. -/
inductive IsOperand : Nat → Term → Prop where
  | number {depth} (value) : IsOperand depth (.number value)
  | text {depth} (value) : IsOperand depth (.text value)
  | boolean {depth} (value) : IsOperand depth (.boolean value)
  | reference {depth} (name) : IsOperand depth (.reference name)
  | negate {depth inner} : Within depth inner → IsOperand depth (.negate inner)
  /-- A plus sign leaves no node behind. -/
  | plus {depth inner} : Within depth inner → IsOperand depth inner
  | group {depth inner} : Within depth inner → IsOperand depth (.group inner)
  | call {depth function args} : (∀ arg ∈ args, Within depth arg) → IsOperand depth (.call function args)

/-- Whether operators can follow an expression at a depth so that they make another one of it. -/
inductive Chained : Nat → Term → Term → Prop where
  | done {depth lhs} : Chained depth lhs lhs
  /-- The depth counts the operators of a chain, but not how high its first operand is. -/
  | operator {depth op lhs rhs e} : Within depth rhs → Chained depth (.binary op lhs rhs) e →
      Chained (depth + 1) lhs e
end

theorem isOperand_constantOrReference (depth : Nat) (name : String) :
    IsOperand depth (constantOrReference name) := by
  unfold constantOrReference
  split
  · exact .boolean true
  split
  · exact .boolean false
  split
  · exact .call (by simp)
  · exact .reference name

section Building

variable {depth : Nat}

theorem within_arguments {item : TermReader} (hitem : ∀ {tokens e rest}, item tokens = .ok (e, rest) → Within depth e)
    (args : List Term) : ∀ {opened bound : Nat} {tokens rest : List Token},
      arguments item opened bound tokens = .ok (args, rest) → ∀ arg ∈ args, Within depth arg := by
  induction args with
  | nil => simp
  | cons first others ih =>
    intro opened bound tokens rest h
    obtain ⟨arg, after, hread, ⟨-, bound', more, hargs, hmore⟩ | ⟨-, hargs, -⟩⟩ := arguments_ok h
    · cases hargs
      exact List.forall_mem_cons.mpr ⟨hitem hread, ih hmore⟩
    · cases hargs
      exact List.forall_mem_singleton.mpr (hitem hread)

theorem isOperand_operand {item : Nat → TermReader}
    (hitem : ∀ {least tokens e rest}, item least tokens = .ok (e, rest) → Within depth e) {tokens rest : List Token}
    {e : Term} (h : operand item tokens = .ok (e, rest)) : IsOperand depth e := by
  cases operandRead_of_operand h with
  | number _ => exact .number _
  | text _ => exact .text _
  | bracketed _ => exact .reference _
  | name _ => exact isOperand_constantOrReference depth _
  | call _ _ _ _ hargs =>
    rcases hargs with ⟨-, rfl, -⟩ | ⟨-, hread⟩
    · exact .call (by simp)
    · exact .call (within_arguments hitem _ hread)
  | minus _ hread => exact .negate (hitem hread)
  | plus _ hread => exact .plus (hitem hread)
  | group _ _ hread => exact .group (hitem hread)

end Building

theorem within_expression (depth : Nat) : (∀ {least tokens e rest},
      expression depth least tokens = .ok (e, rest) → Within depth e) ∧
    ∀ {least lhs tokens e rest}, operators depth least lhs tokens = .ok (e, rest) → Chained depth lhs e := by
  induction depth using Nat.strongRecOn with
  | ind depth ih =>
    refine ⟨fun {least tokens e rest} h => ?_, fun {least lhs tokens e rest} h => ?_⟩
    · obtain ⟨d, lhs, after, rfl, hread, hops⟩ := expression_ok h
      have ih := ih d (by omega)
      exact .chain (isOperand_operand ih.1 hread) (ih.2 hops)
    · rcases operators_cases h with ⟨-, heq⟩ | ⟨op, d, rhs, after, -, -, rfl, hread, hops⟩
      · cases heq
        exact .done
      · have ih := ih d (by omega)
        exact .operator (ih.1 hread) (ih.2 hops)

/-! ## The bound -/

/-- The greatest height of an expression at a depth: a group that is as high as can be, and a chain of
operators on top of it. -/
def heightBound : Nat → Nat
  | 0 => 0
  | depth + 1 => heightBound depth + 1 + (depth - 1)

theorem heightBound_mono {depth depth' : Nat} (h : depth ≤ depth') : heightBound depth ≤ heightBound depth' := by
  induction h with
  | refl => exact Nat.le_refl _
  | step _ ih =>
    simp only [heightBound]
    omega

mutual
theorem Within.height_le {depth : Nat} {e : Term} (h : Within depth e) : e.height ≤ heightBound depth := by
  match h with
  | @Within.chain depth _ _ hl hchain =>
    have hlhs := hl.height_le
    have hlast := hchain.height_le
    have hmono : heightBound (depth - 1) ≤ heightBound depth := heightBound_mono (Nat.sub_le _ _)
    simp only [heightBound]
    omega

theorem IsOperand.height_le {depth : Nat} {e : Term} (h : IsOperand depth e) : e.height ≤ heightBound depth + 1 := by
  match h with
  | .number _ | .text _ | .boolean _ | .reference _ =>
    simp only [Expr.height]
    omega
  | .plus h => exact Nat.le_succ_of_le h.height_le
  | .negate h | .group h => exact Nat.succ_le_succ h.height_le
  | .call h => exact Nat.succ_le_succ (Expr.greatestHeight_le_iff.mpr fun arg harg => (h arg harg).height_le)

theorem Chained.height_le {depth : Nat} {lhs e : Term} (h : Chained depth lhs e) :
    e.height ≤ max lhs.height (heightBound (depth - 1)) + (depth - 1) := by
  match h with
  | .done => omega
  | @Chained.operator depth _ _ rhs _ hr hchain =>
    have hrhs := hr.height_le
    have hlast := hchain.height_le
    have hmono : heightBound (depth - 1) ≤ heightBound depth := heightBound_mono (Nat.sub_le _ _)
    simp only [Expr.height] at hlast
    -- a right operand takes at least one level
    have hpos := rhs.height_pos
    cases depth with
    | zero =>
      simp only [heightBound] at hrhs
      omega
    | succ depth =>
      simp only [Nat.add_sub_cancel] at *
      omega
end

/-! ## The limit -/

/-- Operators leave an expression as it is, or make an operation of it whose right operand is built at a
smaller depth. -/
theorem Chained.cases_last {depth : Nat} {lhs e : Term} (h : Chained depth lhs e) :
    e = lhs ∨ ∃ op first rhs d, d < depth ∧ Within d rhs ∧ e = .binary op first rhs := by
  match h with
  | .done => exact .inl rfl
  | @Chained.operator depth _ _ _ _ hr hchain =>
    rcases hchain.cases_last with rfl | ⟨op, first, rhs, d, hd, hrhs, rfl⟩
    · exact .inr ⟨_, _, _, depth, by omega, hr, rfl⟩
    · exact .inr ⟨op, first, rhs, d, by omega, hrhs, rfl⟩

/-- At most the left operands of an expression lead out of a height that the depth allows. -/
theorem Within.height_le_of_leftsFit {depth : Nat} {e : Term} (h : Within depth e) (limit : Nat)
    (hdepth : depth ≤ limit) (hfit : e.LeftsFit limit) : e.height ≤ limit := by
  -- limit and depth fall together on the way down, except into a left operand, whose height `hfit` bounds
  induction depth using Nat.strongRecOn generalizing e limit with
  | ind depth ih =>
    match h with
    | @Within.chain depth lhs _ hl hchain =>
      rcases hchain.cases_last with rfl | ⟨op, first, rhs, d, hd, hrhs, rfl⟩
      · match hl with
        | .number _ | .text _ | .boolean _ | .reference _ => exact Nat.le_trans (by simp [Expr.height]) hdepth
        | .plus h => exact ih depth (by omega) h limit (by omega) hfit
        | .negate h | .group h =>
          have := ih depth (by omega) h (limit - 1) (Nat.le_sub_of_add_le hdepth) hfit
          simp only [Expr.height]
          omega
        | .call h =>
          simp only [Expr.height]
          have := Expr.greatestHeight_le_iff.mpr fun arg harg =>
            ih depth (by omega) (h arg harg) (limit - 1) (Nat.le_sub_of_add_le hdepth)
              (Expr.allLeftsFit_iff.mp hfit arg harg)
          omega
      · have := ih d (by omega) hrhs (limit - 1) (by omega) hfit.2
        have := hfit.1
        simp only [Expr.height]
        omega

/-- A parsed expression is higher than the nesting limit exactly if one of its left operands leads out of
it, and there is a bound that none exceeds. -/
theorem height_le_limit_iff {source : String} {e : Term} (h : parse source = .ok e) :
    (e.height ≤ nestingLimit ↔ e.LeftsFit nestingLimit) ∧ e.height ≤ heightBound nestingLimit := by
  obtain ⟨tokens, -, hparse⟩ := exists_of_bind_eq_ok h
  obtain ⟨rest, hread, -⟩ := parseTokens_ok hparse
  have hwithin := (within_expression nestingLimit).1 hread
  exact ⟨⟨Expr.leftsFit_of_height_le e, hwithin.height_le_of_leftsFit nestingLimit (Nat.le_refl _)⟩,
    hwithin.height_le⟩

example : heightBound nestingLimit = 32641 := by decide +kernel

/-! ## Towers -/

def summed : Nat → Term → Term
  | 0, e => e
  | count + 1, e => summed count (.binary .add e (.reference "a"))

/-- Sums in parentheses, each with one operator more than the sum inside it. -/
def tower : Nat → Term
  | 0 => .reference "a"
  | level + 1 => summed level (.group (tower level))

def summandText : Nat → List Char
  | 0 => []
  | count + 1 => '+' :: 'a' :: summandText count

def towerText : Nat → List Char
  | 0 => ['a']
  | level + 1 => '(' :: (towerText level ++ ')' :: summandText level)

def summandLexemes : Nat → List Lexeme
  | 0 => []
  | count + 1 => .plus :: .ident "a" :: summandLexemes count

def towerLexemes : Nat → List Lexeme
  | 0 => [.ident "a"]
  | level + 1 => .leftParen :: (towerLexemes level ++ .rightParen :: summandLexemes level)

theorem height_summed (count : Nat) : ∀ e : Term, (summed count e).height = e.height + count := by
  induction count with
  | zero => exact fun e => rfl
  | succ count ih =>
    intro e
    have hpos := e.height_pos
    simp only [summed, ih, Expr.height]
    omega

theorem height_tower (level : Nat) : (tower level).height = heightBound (level + 1) := by
  induction level with
  | zero => rfl
  | succ level ih =>
    rw [tower, height_summed, Expr.height, ih, heightBound.eq_def (level + 1 + 1)]
    simp only [Nat.add_sub_cancel]

theorem spells_summandText {text : List Char} {kinds : List Lexeme} (h : Spells text kinds) (count : Nat) :
    Spells (text ++ summandText count) (kinds ++ summandLexemes count) := by
  induction count generalizing text kinds with
  | zero => simpa [summandText, summandLexemes] using h
  | succ count ih =>
    have hname : Spells "a".toList [.ident "a"] := spells_word (by decide +kernel)
    have hsum := ih (h.binary ⟨.lower, false⟩ .add hname)
    rw [List.append_assoc, List.append_assoc, List.append_assoc] at hsum
    exact hsum

theorem spells_towerText (level : Nat) : Spells (towerText level) (towerLexemes level) := by
  induction level with
  | zero => exact @spells_word "a" (by decide +kernel)
  | succ level ih =>
    have hsum := spells_summandText ih.parenthesized level
    rwa [List.cons_append, List.cons_append, List.append_assoc, List.append_assoc] at hsum

theorem operand_name {item : Nat → TermReader} {token : Token} {rest : List Token} (hk : token.kind = .ident "a")
    (hparen : (peek rest).kind ≠ .leftParen) : operand item (token :: rest) = .ok (.reference "a", rest) := by
  rw [operand_ident hk hparen, constantOrReference_plain (by decide +kernel)]

theorem ends_summands {rest ts : List Token} (hends : EndsPhrase rest) {count : Nat}
    (hts : ts.map Token.kind = summandLexemes count) :
    (peek (ts ++ rest)).kind ≠ .leftParen ∧ Ends 3 (ts ++ rest) := by
  cases count with
  | zero =>
    obtain rfl := List.map_eq_nil_iff.mp hts
    exact ⟨hends.ne_leftParen, hends.ends 3⟩
  | succ count =>
    obtain ⟨plus, more, rfl, hplus, -⟩ := List.map_eq_cons_iff.mp hts
    refine ⟨by simp [hplus], fun op hop => ?_⟩
    rw [List.cons_append, peek_cons, hplus] at hop
    cases hop
    decide

theorem operators_summed {rest : List Token} (hends : EndsPhrase rest) (count : Nat) : ∀ {depth : Nat} {e : Term}
    {ts : List Token}, count ≤ depth → ts.map Token.kind = summandLexemes count →
    operators (depth + 1) 0 e (ts ++ rest) = .ok (summed count e, rest) := by
  induction count with
  | zero =>
    intro depth e ts _ hts
    obtain rfl := List.map_eq_nil_iff.mp hts
    exact operators_of_ends (hends.ends 0) _ e
  | succ count ih =>
    intro depth e ts hle hts
    obtain ⟨plus, more, rfl, hplus, hmore⟩ := List.map_eq_cons_iff.mp hts
    obtain ⟨name, others, rfl, hname, hothers⟩ := List.map_eq_cons_iff.mp hmore
    obtain ⟨depth, rfl⟩ : ∃ d, depth = d + 1 := ⟨depth - 1, by omega⟩
    obtain ⟨hparen, hnext⟩ := ends_summands hends hothers
    have hread : expression (depth + 1) 3 (name :: (others ++ rest)) = .ok (.reference "a", others ++ rest) := by
      rw [expression_succ, operand_name hname hparen]
      exact operators_of_ends hnext _ _
    have hop : (peek (plus :: name :: (others ++ rest))).kind.operator? = some .add := by
      rw [peek_cons, hplus]
      rfl
    rw [List.cons_append, List.cons_append, operators_operator hop (by decide)]
    rw [List.tail_cons, show BinaryOperator.add.rightLevel = 3 from rfl, hread]
    exact ih (by omega) hothers

theorem expression_tower (level : Nat) : ∀ {depth : Nat} {rest ts : List Token}, level ≤ depth → EndsPhrase rest →
    ts.map Token.kind = towerLexemes level →
    expression (depth + 1) 0 (ts ++ rest) = .ok (tower level, rest) := by
  induction level with
  | zero =>
    intro depth rest ts _ hends hts
    obtain ⟨name, rfl, hname⟩ := List.map_eq_singleton_iff.mp hts
    rw [List.singleton_append, expression_succ, operand_name hname hends.ne_leftParen]
    exact operators_of_ends (hends.ends 0) _ _
  | succ level ih =>
    intro depth rest ts hle hends hts
    obtain ⟨depth, rfl⟩ : ∃ d, depth = d + 1 := ⟨depth - 1, by omega⟩
    obtain ⟨paren, more, rfl, hparen, hmore⟩ := List.map_eq_cons_iff.mp hts
    obtain ⟨inner, others, rfl, hinner, hothers⟩ := List.map_eq_append_iff.mp hmore
    obtain ⟨close, summands, rfl, hclose, hsummands⟩ := List.map_eq_cons_iff.mp hothers
    have hlevel : level ≤ depth := Nat.le_of_succ_le_succ hle
    have hends' : EndsPhrase (close :: (summands ++ rest)) := .inr (.inl hclose)
    have hread := ih hlevel hends' hinner
    have hsum := operators_summed hends level (e := .group (tower level)) hlevel hsummands
    rw [List.cons_append, List.append_assoc, List.cons_append, expression_succ, operand_leftParen hparen, hread]
    simp only [bind, Except.bind, closing_rightParen hclose]
    exact hsum

theorem parse_towerText (level : Nat) (h : level < nestingLimit) :
    parse (.ofList (towerText level)) = .ok (tower level) := by
  have hspells := spells_towerText level
  rw [← String.toList_ofList (l := towerText level)] at hspells
  obtain ⟨ts, eof, hscan, hts, heof⟩ := hspells.tokenize
  have hends : EndsPhrase [eof] := .inr (.inr heof)
  have hread := expression_tower level (Nat.le_of_lt_succ h) hends hts
  have hne : (peek (ts ++ [eof])).kind ≠ .eof := by
    cases level <;> obtain ⟨token, more, rfl, hk, -⟩ := List.map_eq_cons_iff.mp hts <;> simp [hk]
  rw [parse, hscan]
  refine (parseTokens_of_ne hne).trans ?_
  rw [nestingLimit, hread]
  simp only [bind, Except.bind, peek_cons, heof]

theorem exists_height_eq_bound : ∃ source e, parse source = .ok e ∧ e.height = heightBound nestingLimit :=
  ⟨_, _, parse_towerText 255 (by decide), height_tower 255⟩

/-- The highest tower within the limit. -/
theorem leftsFit_tower : ∃ source e, parse source = .ok e ∧ e.height = 254 ∧ e.LeftsFit nestingLimit := by
  have hparse := parse_towerText 22 (by decide)
  have hheight : (tower 22).height = 254 := height_tower 22
  exact ⟨_, _, hparse, hheight, (height_le_limit_iff hparse).1.mp (hheight ▸ by decide)⟩

/-- Twenty-three groups in each other are higher than the limit if each has a longer sum than the one
inside it. -/
theorem exists_limit_lt_height : ∃ source e, parse source = .ok e ∧ nestingLimit < e.height := by
  have hheight : (tower 23).height = 277 := height_tower 23
  exact ⟨_, _, parse_towerText 23 (by decide), hheight ▸ by decide⟩

end Parametric.Formula
