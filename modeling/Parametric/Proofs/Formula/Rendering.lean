import Parametric.Proofs.Formula.Lexing
import Parametric.Proofs.Formula.References

/-!
# Reading what was written

The text of an expression is split into the tokens of the expression that it is read as. Names are read
without the blanks around them, and what is not a finite number is read as a name.
-/

namespace Parametric.Formula

/-! ## Canonical expressions -/

namespace Expr

variable {style : Style}

/-- The category of an expression as the parser builds it. -/
def category : Term → Category
  | .binary .pow _ _ => .power
  | .binary op _ _ => if op.precedence = 3 then .product else if op.precedence = 2 then .sum else .comparison
  | .negate _ => .signed
  | _ => .atom

theorem level_category (e : Term) : e.category.level = e.level := by
  cases e
  case binary op lhs rhs => cases op <;> rfl
  all_goals rfl

theorem derives_name {name : String} : Derives .atom [nameLexeme name] (.reference (Text.trim name)) := by
  unfold nameLexeme
  split
  case isTrue hplain =>
    rw [trim_of_isWord (isWord_of_isPlainName hplain), ← constantOrReference_plain hplain]
    exact derives_constantOrReference name
  case isFalse => exact .bracketed _

mutual
/-- A canonical expression is spelled by its tokens, but for blanks around its names. -/
theorem derives_lexemes : (e : Term) → e.Canonical → Derives e.category (e.lexemes style) (e.mapNames Text.trim)
  | .number value, _ => .number value
  | .text value, _ => .text value
  | .boolean true, _ => .true (by decide +kernel)
  | .boolean false, _ => .false (by decide +kernel)
  | .reference name, _ => derives_name
  | .negate operand, hc => .minus ((derives_lexemes operand hc.1).loosen (by rw [level_category]; exact hc.2))
  | .binary op lhs rhs, hc => by
    obtain ⟨hl, hr, hleft, hright⟩ := hc
    rw [← level_category] at hleft hright
    have hlevels := op.level_cases
    obtain ⟨c, hlevel, hderives⟩ := exists_derives_binary (derives_lexemes lhs hl) hleft
      ((derives_lexemes rhs hr).loosen (by rw [Category.level_startingAt]; omega))
    refine hderives.loosen ?_
    rw [hlevel, level_category]
    exact Nat.le_refl _
  | .call function args, hc =>
    .call (named?_function style function) ((length_mapNamesAll Text.trim args).symm ▸ hc.1)
      (derivesArguments_lexemesAll args hc.2)
  | .group inner, hc => .group ((derives_lexemes inner hc).loosen (Category.level_pos _))

theorem derivesArguments_lexemesAll : (args : List Term) → AllCanonical args →
    DerivesArguments (lexemesAll style args) (mapNamesAll Text.trim args)
  | [], _ => .none
  | [arg], hc => .last ((derives_lexemes arg hc.1).loosen (Category.level_pos _))
  | arg :: next :: more, hc =>
    .more ((derives_lexemes arg hc.1).loosen (Category.level_pos _)) (derivesArguments_lexemesAll (next :: more) hc.2)
end

end Expr

/-- The tokens of a canonical expression are read as the expression with its names trimmed, if they are
read at all. -/
theorem parseTokens_lexemes {e e' : Term} (hc : e.Canonical) {style : Style} {tokens : List Token} {eof : Token}
    (hts : tokens.map Token.kind = e.lexemes style) (heof : eof.kind = .eof)
    (h : parseTokens (tokens ++ [eof]) = .ok e') : e' = e.mapNames Text.trim := by
  have hderives : Derives .comparison (e.lexemes style) (e.mapNames Text.trim) :=
    (e.derives_lexemes hc).loosen (Category.level_pos _)
  rw [← hts] at hderives
  have hend : (peek [eof]).kind = .eof := heof
  rw [← upToEnd_append hderives.eof_notMem hend] at hderives
  rcases hderives.reaches_parseTokens with hread | ⟨position, hread⟩
  · exact Except.ok.inj (h.symm.trans hread)
  · cases h.symm.trans hread

/-! ## Expressions -/

namespace Expr

theorem isWord_name (f : Function) : isWord f.name := by
  cases f <;> decide +kernel

theorem isWord_upperAscii (f : Function) : isWord (Text.upperAscii f.name) := by
  cases f <;> decide +kernel

theorem isWord_function (style : Style) (f : Function) : isWord (style.function f) := by
  unfold Style.function
  split
  · exact isWord_name f
  · exact isWord_upperAscii f

mutual
def hasFiniteNumbers : Term → Bool
  | .number value => value.isFinite
  | .text _ | .boolean _ | .reference _ => true
  | .negate operand => operand.hasFiniteNumbers
  | .binary _ lhs rhs => lhs.hasFiniteNumbers && rhs.hasFiniteNumbers
  | .call _ args => haveFiniteNumbers args
  | .group inner => inner.hasFiniteNumbers

def haveFiniteNumbers : List Term → Bool
  | [] => true
  | e :: rest => e.hasFiniteNumbers && haveFiniteNumbers rest
end

theorem lexemes_graft (style : Style) (op : BinaryOperator) (lhs : Term) :
    (rhs : Term) → (graft op lhs rhs).lexemes style = lhs.lexemes style ++ op.lexeme :: rhs.lexemes style
  | .binary inner first second => by
    unfold graft
    split
    · rw [lexemes, lexemes_graft style op lhs first, lexemes]
      simp
    · rfl
  | .number _ | .text _ | .boolean _ | .reference _ | .negate _ | .call _ _ | .group _ => rfl

theorem lexemes_join (style : Style) (op : BinaryOperator) (lhs rhs : Term) :
    (join op lhs rhs).lexemes style = lhs.lexemes style ++ op.lexeme :: rhs.lexemes style := by
  unfold join
  split
  · rfl
  · exact lexemes_graft style op lhs rhs

theorem spells_enclosed {style : Style} {e : Term} {text : String} (needed : Bool)
    (h : Spells text.toList (e.lexemes style)) :
    Spells (parenthesized needed text).toList ((enclosed needed e).lexemes style) := by
  cases needed with
  | false => exact h
  | true =>
    have htext : (parenthesized true text).toList = '(' :: (text.toList ++ [')']) := by simp [parenthesized]
    rw [htext]
    exact h.parenthesized

mutual
/-- The text of a readable expression is split into the tokens of what it is read as. -/
theorem spells_render (style : Style) : (e : Term) → e.Readable FitsTrimmed → e.hasFiniteNumbers →
    Spells (e.render style).toList (e.reread.lexemes style)
  | .number value, _, hfinite => by
    obtain ⟨digits, htext, hne, hdigits, hread⟩ := numberText_reads hfinite
    have hspells := spells_number hne hdigits hread
    simp only [render, Numeral.text, htext, reread]
    split
    · exact hspells.cons (by decide) (by decide) lexeme_minus
    · exact hspells
  | .text value, h, _ => by
    have htext : (render style (.text value : Term)).toList = '"' :: (value.toList ++ ['"']) := by simp [render]
    rw [htext]
    exact spells_text h
  | .boolean value, _, _ => by
    cases value with
    | true => exact @spells_word "true" (by decide +kernel)
    | false => exact @spells_word "false" (by decide +kernel)
  | .reference name, h, _ => spells_name h
  | .negate operand, h, hfinite => by
    have ih := spells_render style operand h hfinite
    have hspells := spells_enclosed (operand.isLooserThan negationPrecedence) ih
    simp only [render, String.toList_append]
    exact hspells.cons (by decide) (by decide) lexeme_minus
  | .binary op lhs rhs, h, hfinite => by
    rw [hasFiniteNumbers, Bool.and_eq_true] at hfinite
    have hl := spells_enclosed (needsParensLeft op lhs) (spells_render style lhs h.1 hfinite.1)
    have hr := spells_enclosed (needsParensRight op rhs) (spells_render style rhs h.2 hfinite.2)
    simp only [render, String.toList_append, List.append_assoc, reread, lexemes_join]
    exact hl.binary style op hr
  | .call function args, h, hfinite => by
    have hname := spells_word (isWord_function style function)
    have hparens : Spells ('(' :: ((renderArgs style args).toList ++ [')']))
        (.leftParen :: (lexemesAll style (rereadAll args) ++ [.rightParen])) := by
      cases args with
      | nil => exact spells_rightParen.cons (by decide) (by decide) lexeme_leftParen
      | cons arg more => exact (spells_renderArgs style (arg :: more) h.2 hfinite (by simp)).parenthesized
    have htext : (render style (.call function args : Term)).toList =
        (style.function function).toList ++ '(' :: ((renderArgs style args).toList ++ [')']) := by
      simp [render]
    rw [htext]
    exact hname.append hparens fun _ => delimits_of_isSymbolChar (by decide +kernel) _
  | .group inner, h, hfinite => spells_render style inner h hfinite

theorem spells_renderArgs (style : Style) : (args : List Term) → AllReadable FitsTrimmed args → haveFiniteNumbers args →
    args ≠ [] → Spells (renderArgs style args).toList (lexemesAll style (rereadAll args))
  | [], _, _, hne => absurd rfl hne
  | [arg], h, hfinite, _ => by
    rw [haveFiniteNumbers, Bool.and_eq_true] at hfinite
    exact spells_render style arg h.1 hfinite.1
  | arg :: next :: more, h, hfinite, _ => by
    rw [haveFiniteNumbers, Bool.and_eq_true] at hfinite
    have hfirst := spells_render style arg h.1 hfinite.1
    have hmore := spells_renderArgs style (next :: more) h.2 hfinite.2 (by simp)
    have hseparated : Spells (style.separator.toList ++ (renderArgs style (next :: more)).toList)
        (.comma :: lexemesAll style (rereadAll (next :: more))) := by
      unfold Style.separator
      split
      · exact hmore.blank.cons (by decide) (by decide) lexeme_comma
      · exact hmore.cons (by decide) (by decide) lexeme_comma
    have hdelimits : ∀ rest,
        Delimits (style.separator.toList ++ (renderArgs style (next :: more)).toList ++ rest) := by
      intro rest
      unfold Style.separator
      split <;> exact delimits_of_isSymbolChar (by decide +kernel) _
    simp only [renderArgs, String.toList_append, List.append_assoc]
    exact hfirst.append hseparated hdelimits
end

theorem tokenize_render {style : Style} {e : Term} {tokens : List Token} (h : e.Readable FitsTrimmed)
    (hfinite : e.hasFiniteNumbers) (hscan : tokenize (e.render style) = .ok tokens) :
    ∃ first eof, tokens = first ++ [eof] ∧ first.map Token.kind = e.reread.lexemes style ∧ eof.kind = .eof := by
  obtain ⟨first, eof, hok, hfirst, heof⟩ := (spells_render style e h hfinite).tokenize
  obtain rfl := Except.ok.inj (hscan.symm.trans hok)
  exact ⟨first, eof, rfl, hfirst, heof⟩

/-- The text of a readable expression is read as the expression with the parentheses that were written and
with its names trimmed, if it is read at all. -/
theorem parse_render_trimmed {style : Style} {e e' : Term} (h : e.Readable FitsTrimmed)
    (hfinite : e.hasFiniteNumbers) (hparse : parse (e.render style) = .ok e') :
    e' = e.reread.mapNames Text.trim := by
  obtain ⟨tokens, hscan, hread⟩ := exists_of_bind_eq_ok hparse
  obtain ⟨first, eof, rfl, hfirst, heof⟩ := tokenize_render h hfinite hscan
  exact parseTokens_lexemes (canonical_reread e h) hfirst heof hread

/-! ## Names that are read -/

@[simp] theorem names_enclosed (needed : Bool) (e : Term) : (enclosed needed e).names = e.names := by
  cases needed <;> rfl

theorem names_graft (op : BinaryOperator) (lhs : Term) :
    (rhs : Term) → (graft op lhs rhs).names = lhs.names ++ rhs.names
  | .binary inner first second => by
    unfold graft
    split
    · rw [names, names_graft op lhs first, names, List.append_assoc]
    · rfl
  | .number _ | .text _ | .boolean _ | .reference _ | .negate _ | .call _ _ | .group _ => rfl

theorem names_join (op : BinaryOperator) (lhs rhs : Term) : (join op lhs rhs).names = lhs.names ++ rhs.names := by
  unfold join
  split
  · rfl
  · exact names_graft op lhs rhs

mutual
/-- The names are read back in their order. -/
@[simp] theorem names_reread : (e : Term) → e.reread.names = e.names
  | .number value => by
    rw [reread]
    split <;> rfl
  | .text _ | .boolean _ | .reference _ => rfl
  | .negate operand => (names_enclosed _ _).trans (names_reread operand)
  | .binary op lhs rhs => by
    rw [reread, names_join, names_enclosed, names_enclosed, names_reread lhs, names_reread rhs, names]
  | .call function args => namesAll_rereadAll args
  | .group inner => names_reread inner

theorem namesAll_rereadAll : (args : List Term) → namesAll (rereadAll args) = namesAll args
  | [] => rfl
  | e :: rest => by rw [rereadAll, namesAll, namesAll, names_reread e, namesAll_rereadAll rest]
end

mutual
theorem Readable.fits {fits : String → Prop} : {e : Term} → e.Readable fits → ∀ name ∈ e.names, fits name
  | .number _, _ | .text _, _ | .boolean _, _ => nofun
  | .reference _, h => List.forall_mem_singleton.mpr h
  | .negate operand, h => Readable.fits (e := operand) h
  | .binary _ _ _, h => List.forall_mem_append.mpr ⟨Readable.fits h.1, Readable.fits h.2⟩
  | .call _ _, h => AllReadable.fits h.2
  | .group inner, h => Readable.fits (e := inner) h

theorem AllReadable.fits {fits : String → Prop} : {args : List Term} → AllReadable fits args →
    ∀ name ∈ namesAll args, fits name
  | [], _ => nofun
  | _ :: _, h => List.forall_mem_append.mpr ⟨Readable.fits h.1, AllReadable.fits h.2⟩
end

mutual
theorem Readable.mapNames {fits fits' : String → Prop} {f : String → String} (hf : ∀ name, fits name → fits' (f name)) :
    (e : Term) → e.Readable fits → (e.mapNames f).Readable fits'
  | .number _, h | .text _, h | .boolean _, h => h
  | .reference name, h => hf name h
  | .negate operand, h => Readable.mapNames hf operand h
  | .binary _ lhs rhs, h => ⟨Readable.mapNames hf lhs h.1, Readable.mapNames hf rhs h.2⟩
  | .call _ args, h => ⟨(length_mapNamesAll f args).symm ▸ h.1, AllReadable.mapNames hf args h.2⟩
  | .group inner, h => Readable.mapNames hf inner h

theorem AllReadable.mapNames {fits fits' : String → Prop} {f : String → String}
    (hf : ∀ name, fits name → fits' (f name)) :
    (args : List Term) → AllReadable fits args → AllReadable fits' (mapNamesAll f args)
  | [], _ => trivial
  | e :: rest, h => ⟨Readable.mapNames hf e h.1, AllReadable.mapNames hf rest h.2⟩
end

theorem Readable.mono {fits fits' : String → Prop} {e : Term} (h : e.Readable fits)
    (hfits : ∀ name, fits name → fits' name) : e.Readable fits' := by
  have hmap := Readable.mapNames (f := id) hfits e h
  rwa [mapNames_eq_self (f := id) fun _ _ => rfl] at hmap

/-- The text of an expression whose names are trimmed is read as the expression with the parentheses that
were written, if it is read at all. -/
theorem parse_render {style : Style} {e e' : Term} (h : e.Readable FitsBrackets) (hfinite : e.hasFiniteNumbers)
    (hparse : parse (e.render style) = .ok e') : e' = e.reread := by
  rw [parse_render_trimmed (h.mono fun _ hname => hname.fitsTrimmed) hfinite hparse]
  refine mapNames_eq_self fun name hname => ?_
  rw [names_reread] at hname
  exact (h.fits name hname).trim_eq

/-! ## Numbers that are not finite -/

mutual
/-- An expression with the names as which infinities and what is not a number are read. -/
def spelledOut : Term → Term
  | .number value =>
    if value.isFinite then .number value
    else if value.isNaN then .reference "NaN"
    else if value < 0.0 then .negate (.reference "inf")
    else .reference "inf"
  | .text value => .text value
  | .boolean value => .boolean value
  | .reference name => .reference name
  | .negate operand => .negate operand.spelledOut
  | .binary op lhs rhs => .binary op lhs.spelledOut rhs.spelledOut
  | .call function args => .call function (spelledOutAll args)
  | .group inner => .group inner.spelledOut

def spelledOutAll : List Term → List Term
  | [] => []
  | e :: rest => e.spelledOut :: spelledOutAll rest
end

@[simp] theorem length_spelledOutAll (args : List Term) : (spelledOutAll args).length = args.length := by
  induction args with
  | nil => rfl
  | cons e rest ih => simp only [spelledOutAll, List.length_cons, ih]

theorem spelledOut_number_cases (value : Float) :
    value.isFinite ∧ spelledOut (.number value) = .number value ∨
      value.isFinite = false ∧ ¬value < 0.0 ∧ numberText value = "NaN" ∧ spelledOut (.number value) = .reference "NaN" ∨
      value.isFinite = false ∧ value < 0.0 ∧ numberText value = "-inf" ∧
        spelledOut (.number value) = .negate (.reference "inf") ∨
      value.isFinite = false ∧ ¬value < 0.0 ∧ numberText value = "inf" ∧
        spelledOut (.number value) = .reference "inf" := by
  cases hfinite : value.isFinite with
  | true => exact .inl ⟨rfl, by rw [spelledOut, if_pos hfinite]⟩
  | false =>
    right
    rw [numberText_of_not_finite hfinite, spelledOut, hfinite, if_neg Bool.false_ne_true]
    cases hnan : value.isNaN with
    | true =>
      refine .inl ⟨rfl, fun hlt => ?_, rfl, rfl⟩
      exact absurd (hnan.symm.trans ((Number.lt_zero_iff_of_not_finite hfinite).mp hlt).1) (by decide)
    | false =>
      right
      by_cases hlt : value < 0.0
      · exact .inl ⟨rfl, hlt, by simp [hlt], by simp [hlt]⟩
      · exact .inr ⟨rfl, hlt, by simp [hlt], by simp [hlt]⟩

theorem precedence?_spelledOut : (e : Term) → e.spelledOut.precedence? = e.precedence?
  | .number value => by
    rcases spelledOut_number_cases value with ⟨-, heq⟩ | ⟨-, hlt, -, heq⟩ | ⟨-, hlt, -, heq⟩ | ⟨-, hlt, -, heq⟩
    · rw [heq]
    all_goals rw [heq]; simp [precedence?, Numeral.isNegative, hlt]
  | .text _ | .boolean _ | .reference _ | .negate _ | .binary _ _ _ | .call _ _ => rfl
  | .group inner => precedence?_spelledOut inner

@[simp] theorem isLooserThan_spelledOut (e : Term) (level : Nat) :
    e.spelledOut.isLooserThan level = e.isLooserThan level := by
  rw [isLooserThan, isLooserThan, precedence?_spelledOut]

theorem continuesChain_spelledOut (op : BinaryOperator) :
    (rhs : Term) → continuesChain op rhs.spelledOut = continuesChain op rhs
  | .number value => by
    rcases spelledOut_number_cases value with ⟨-, heq⟩ | ⟨-, -, -, heq⟩ | ⟨-, -, -, heq⟩ | ⟨-, -, -, heq⟩
    · rw [heq]
    all_goals rw [heq]; cases op <;> rfl
  | .text _ | .boolean _ | .reference _ | .negate _ | .call _ _ => by cases op <;> rfl
  | .binary inner _ _ => by cases op <;> cases inner <;> rfl
  | .group inner => by
    have ih := continuesChain_spelledOut op inner
    unfold continuesChain at ih ⊢
    rwa [spelledOut, ungrouped, ungrouped]

mutual
theorem render_spelledOut (style : Style) : (e : Term) → e.spelledOut.render style = e.render style
  | .number value => by
    rcases spelledOut_number_cases value with ⟨-, heq⟩ | ⟨-, -, htext, heq⟩ | ⟨-, -, htext, heq⟩ | ⟨-, -, htext, heq⟩
    · rw [heq]
    all_goals
      rw [heq]
      simp only [render, Numeral.text, htext]
      decide +kernel
  | .text _ | .boolean _ | .reference _ => rfl
  | .negate operand => by simp only [spelledOut, render, isLooserThan_spelledOut, render_spelledOut style operand]
  | .binary op lhs rhs => by
    simp only [spelledOut, render, needsParensLeft, needsParensRight, isLooserThan_spelledOut,
      continuesChain_spelledOut, render_spelledOut style lhs, render_spelledOut style rhs]
  | .call function args => by simp only [spelledOut, render, renderArgs_spelledOutAll style args]
  | .group inner => render_spelledOut style inner

theorem renderArgs_spelledOutAll (style : Style) :
    (args : List Term) → renderArgs style (spelledOutAll args) = renderArgs style args
  | [] => rfl
  | [arg] => render_spelledOut style arg
  | arg :: next :: more => by
    have ih := renderArgs_spelledOutAll style (next :: more)
    simp only [spelledOutAll, renderArgs, render_spelledOut style arg] at ih ⊢
    rw [ih]
end

mutual
theorem hasFiniteNumbers_spelledOut : (e : Term) → e.spelledOut.hasFiniteNumbers
  | .number value => by
    rcases spelledOut_number_cases value with ⟨hfinite, heq⟩ | ⟨-, -, -, heq⟩ | ⟨-, -, -, heq⟩ | ⟨-, -, -, heq⟩
    · rw [heq]
      exact hfinite
    all_goals
      rw [heq]
      rfl
  | .text _ | .boolean _ | .reference _ => rfl
  | .negate operand => hasFiniteNumbers_spelledOut operand
  | .binary _ lhs rhs => by
    rw [spelledOut, hasFiniteNumbers, hasFiniteNumbers_spelledOut lhs, hasFiniteNumbers_spelledOut rhs]
    rfl
  | .call _ args => haveFiniteNumbers_spelledOutAll args
  | .group inner => hasFiniteNumbers_spelledOut inner

theorem haveFiniteNumbers_spelledOutAll : (args : List Term) → haveFiniteNumbers (spelledOutAll args)
  | [] => rfl
  | e :: rest => by
    rw [spelledOutAll, haveFiniteNumbers, hasFiniteNumbers_spelledOut e, haveFiniteNumbers_spelledOutAll rest]
    rfl
end

mutual
theorem readable_spelledOut {fits : String → Prop} (hnan : fits "NaN") (hinf : fits "inf") :
    (e : Term) → e.Readable fits → e.spelledOut.Readable fits
  | .number value, h => by
    rcases spelledOut_number_cases value with ⟨-, heq⟩ | ⟨-, -, -, heq⟩ | ⟨-, -, -, heq⟩ | ⟨-, -, -, heq⟩
    all_goals rw [heq]
    exacts [h, hnan, hinf, hinf]
  | .text _, h | .boolean _, h | .reference _, h => h
  | .negate operand, h => readable_spelledOut hnan hinf operand h
  | .binary _ lhs rhs, h => ⟨readable_spelledOut hnan hinf lhs h.1, readable_spelledOut hnan hinf rhs h.2⟩
  | .call _ args, h => ⟨(length_spelledOutAll args).symm ▸ h.1, allReadable_spelledOutAll hnan hinf args h.2⟩
  | .group inner, h => readable_spelledOut hnan hinf inner h

theorem allReadable_spelledOutAll {fits : String → Prop} (hnan : fits "NaN") (hinf : fits "inf") :
    (args : List Term) → AllReadable fits args → AllReadable fits (spelledOutAll args)
  | [], _ => trivial
  | e :: rest, h => ⟨readable_spelledOut hnan hinf e h.1, allReadable_spelledOutAll hnan hinf rest h.2⟩
end

/-- The names that the text of a readable expression is read with, if it is read at all: its own, and
those as which its literals that are not finite are read. -/
theorem names_parse_render {style : Style} {e e' : Term} (h : e.Readable FitsTrimmed)
    (hparse : parse (e.render style) = .ok e') : e'.names = e.spelledOut.names.map Text.trim := by
  rw [← render_spelledOut] at hparse
  have hreadable := readable_spelledOut (fitsTrimmed_of_isWord (by decide +kernel))
    (fitsTrimmed_of_isWord (by decide +kernel)) e h
  rw [parse_render_trimmed hreadable (hasFiniteNumbers_spelledOut e) hparse, names_mapNames, names_reread]

end Expr

end Parametric.Formula
