import Parametric.Proofs.Formula.Lexing
import Parametric.Proofs.Formula.References

/-!
# Parsed expressions

What the parser accepts, and what is simplified from it, can be written and read back.
-/

namespace Parametric

/-! ## Names in a text -/

theorem Text.Ranges.has_eq_false_of_disjoint {ranges others : Text.Ranges}
    (h : ∀ r ∈ ranges, ∀ s ∈ others, r.2 < s.1 ∨ s.2 < r.1) {code : Nat} (hcode : ranges.has code) :
    others.has code = false := by
  simp only [Text.Ranges.has, List.any_eq_true, Bool.and_eq_true, decide_eq_true_eq] at hcode
  obtain ⟨r, hr, hlow, hhigh⟩ := hcode
  simp only [Text.Ranges.has, List.any_eq_false, Bool.and_eq_true, decide_eq_true_eq]
  intro s hs
  have := h r hr s hs
  omega

namespace Formula

theorem isBlank_of_isNameChar {c : Char} (h : isNameChar c) : Text.isBlank c = false := by
  simp only [isNameChar, Text.isAlphabetic, Text.isNumeric, Text.isDecimalDigit, Bool.or_eq_true, beq_iff_eq] at h
  rcases h with (h | h | h) | rfl
  · split at h
    · have := isAlpha_bounds h
      exact Text.isBlank_eq_false (by omega) (by omega)
    · exact Text.Ranges.has_eq_false_of_disjoint (by decide +kernel) h
  · split at h
    · have := Number.isDigit_bounds h
      exact Text.isBlank_eq_false (by omega) (by omega)
    · exact Text.Ranges.has_eq_false_of_disjoint (by decide +kernel) h
  · exact Text.Ranges.has_eq_false_of_disjoint (by decide +kernel) h
  · decide

theorem fitsBrackets_of_isNameChar {c : Char} {rest : List Char} (h : ∀ d ∈ c :: rest, isNameChar d) :
    FitsBrackets (.ofList (c :: rest)) where
  trim_eq := Text.trim_eq_self fun d hd => isBlank_of_isNameChar (h d (by simpa using hd))
  ne_empty := by simp [← String.toList_inj]
  close_notMem := fun hmem => absurd (h _ (by simpa using hmem)) (by decide +kernel)

theorem fitsBrackets_trim {content : List Char} (hne : Text.trim (.ofList content) ≠ "") (h : ']' ∉ content) :
    FitsBrackets (Text.trim (.ofList content)) where
  trim_eq := Text.trim_trim _
  ne_empty := hne
  close_notMem := fun hmem => h (Text.mem_of_mem_stripBy (by simpa [Text.trim] using hmem))

theorem notMem_takeWhile_bne (close : Char) (rest : List Char) : close ∉ rest.takeWhile (· != close) :=
  fun h => by simpa using List.mem_takeWhile_imp h

/-! ## Tokens -/

/-- Whether what a token holds fits the quotes or brackets that it would be written in. -/
def Lexeme.Sound : Lexeme → Prop
  | .text value => FitsQuotes value
  | .ident name | .bracketed name => FitsBrackets name
  | _ => True

theorem sound_punctuation {c : Char} {next : Option Char} {kind : Lexeme} {extra : Nat}
    (h : punctuation c next = .ok (kind, extra)) : kind.Sound := by
  unfold punctuation at h
  repeat' split at h
  all_goals
    cases h
  all_goals trivial

theorem sound_lexeme {c : Char} {rest : List Char} {kind : Lexeme} {extra : Nat}
    (h : lexeme c rest = .ok (kind, extra)) : kind.Sound := by
  unfold lexeme at h
  split at h
  · simp only at h
    split at h <;> cases h
    trivial
  split at h
  · simp only at h
    split at h <;> cases h
    simp only [Lexeme.Sound, FitsQuotes, String.toList_ofList]
    exact notMem_takeWhile_bne '"' rest
  split at h
  · simp only at h
    split at h
    · cases h
    · split at h
      case isTrue => cases h
      case isFalse hne =>
        cases h
        exact fitsBrackets_trim (fun heq => hne (beq_iff_eq.mpr heq)) (notMem_takeWhile_bne ']' rest)
  split at h
  · rename_i hstart
    cases h
    refine fitsBrackets_of_isNameChar fun d hd => ?_
    rcases List.mem_cons.mp hd with rfl | hd
    · simp only [isNameStart, isNameChar, Bool.or_eq_true] at hstart ⊢
      exact hstart.imp_left .inl
    · exact List.mem_takeWhile_imp hd
  · exact sound_punctuation h

theorem sound_scanFrom {position : Nat} {text : List Char} {tokens : List Token}
    (h : scanFrom position text = .ok tokens) : ∀ token ∈ tokens, token.kind.Sound := by
  induction position, text using scanFrom.induct generalizing tokens with
  | case1 position =>
    rw [scanFrom] at h
    cases h
    simp [Lexeme.Sound]
  | case2 position c rest hblank ih =>
    rw [scanFrom_blank hblank] at h
    exact ih h
  | case3 position c rest hblank cause hlex =>
    rw [scanFrom, if_neg hblank, hlex] at h
    cases h
  | case4 position c rest hblank kind extra hlex ih =>
    obtain ⟨last, rfl, hlast⟩ := scanFrom_token (by simpa using hblank) hlex h
    exact List.forall_mem_cons.mpr ⟨sound_lexeme hlex, ih hlast⟩

/-! ## Parsed expressions -/

mutual
theorem Derives.readable {c : Category} {ts : List Lexeme} {e : Term} (h : Derives c ts e)
    (hsound : ∀ kind ∈ ts, kind.Sound) : e.Readable FitsBrackets := by
  match h with
  | .link _ h | .unsigned h | .base h => exact h.readable hsound
  | .chain _ _ hl hr | .raise hl hr =>
    rw [List.forall_mem_append, List.forall_mem_cons] at hsound
    exact ⟨hl.readable hsound.1, hr.readable hsound.2.2⟩
  | .minus h | .plus h =>
    rw [List.forall_mem_cons] at hsound
    exact h.readable hsound.2
  | .group h =>
    rw [List.forall_mem_cons, List.forall_mem_append] at hsound
    exact h.readable hsound.2.1
  | .call _ haccepts h =>
    rw [List.forall_mem_cons, List.forall_mem_cons, List.forall_mem_append] at hsound
    exact ⟨haccepts, h.readable hsound.2.2.1⟩
  | .text _ | .bracketed _ | .name _ _ _ => exact hsound _ List.mem_cons_self
  | .number _ | .true _ | .false _ => trivial
  | .pi _ => exact ⟨by decide, trivial⟩

theorem DerivesArguments.readable {ts : List Lexeme} {args : List Term} (h : DerivesArguments ts args)
    (hsound : ∀ kind ∈ ts, kind.Sound) : Expr.AllReadable FitsBrackets args := by
  match h with
  | .none => trivial
  | .last h => exact ⟨h.readable hsound, trivial⟩
  | .more h hmore =>
    rw [List.forall_mem_append, List.forall_mem_cons] at hsound
    exact ⟨h.readable hsound.1, hmore.readable hsound.2.2⟩
end

theorem mem_upToEnd {tokens : List Token} {kind : Lexeme} (h : kind ∈ upToEnd tokens) :
    ∃ token ∈ tokens, token.kind = kind := by
  obtain ⟨ts, rest, rfl, hts, -⟩ := exists_append_upToEnd tokens
  rw [← hts, List.mem_map] at h
  obtain ⟨token, hmem, hkind⟩ := h
  exact ⟨token, List.mem_append_left _ hmem, hkind⟩

namespace Expr

theorem readable_of_parse {source : String} {e : Term} (h : parse source = .ok e) : e.Readable FitsBrackets := by
  obtain ⟨tokens, hscan, hread⟩ := exists_of_bind_eq_ok h
  refine (derives_of_parseTokens hread).readable fun kind hkind => ?_
  obtain ⟨token, hmem, rfl⟩ := mem_upToEnd hkind
  exact sound_scanFrom hscan token hmem

/-! ## Simplified expressions -/

variable {fits : String → Prop}

theorem AllReadable.of_mem {args : List Term} (h : AllReadable fits args) {e : Term} (he : e ∈ args) :
    e.Readable fits := by
  induction he with
  | head rest => exact h.1
  | tail first _ ih => exact ih h.2

theorem readable_simplifyNegate {e : Term} (h : e.Readable fits) : (simplifyNegate e).1.Readable fits := by
  cases e <;> exact h

theorem readable_simplifyBinary {op : BinaryOperator} {lhs rhs : Term} (hl : lhs.Readable fits)
    (hr : rhs.Readable fits) :
    (simplifyBinary op lhs rhs).1.Readable fits := by
  rcases simplifyBinary_cases op lhs rhs with ⟨value, heq⟩ | ⟨value, heq⟩ | hmem
  · rw [heq]
    trivial
  · rw [heq]
    trivial
  · have hall : AllReadable fits [lhs, rhs, .binary op lhs rhs] := ⟨hl, hr, ⟨hl, hr⟩, trivial⟩
    exact hall.of_mem hmem

theorem readable_simplifyCall {function : Function} {args : List Term} (haccepts : function.accepts args.length)
    (h : AllReadable fits args) : (simplifyCall function args).1.Readable fits := by
  rcases simplifyCall_cases function args with ⟨value, heq⟩ | ⟨value, heq⟩ | hmem | heq
  · rw [heq]
    trivial
  · rw [heq]
    trivial
  · exact h.of_mem hmem
  · rw [heq]
    exact ⟨haccepts, h⟩

theorem length_simplifyAll (args : List Term) : (simplifyAll args).1.length = args.length := by
  induction args with
  | nil => rfl
  | cons e rest ih => simp only [simplifyAll, List.length_cons, ih]

mutual
theorem readable_simplify : (e : Term) → e.Readable fits → e.simplify.1.Readable fits
  | .number _, h | .text _, h | .boolean _, h | .reference _, h => h
  | .negate operand, h => by
    simp only [simplify]
    exact readable_simplifyNegate (readable_simplify operand h)
  | .binary op lhs rhs, h => by
    simp only [simplify]
    exact readable_simplifyBinary (readable_simplify lhs h.1) (readable_simplify rhs h.2)
  | .call function args, h => by
    simp only [simplify]
    exact readable_simplifyCall ((length_simplifyAll args).symm ▸ h.1) (readable_simplifyAll args h.2)
  | .group inner, h => by
    simp only [simplify]
    exact readable_simplify inner h

theorem readable_simplifyAll : (args : List Term) → AllReadable fits args →
    AllReadable fits (simplifyAll args).1
  | [], _ => trivial
  | e :: rest, h => by
    simp only [simplifyAll]
    exact ⟨readable_simplify e h.1, readable_simplifyAll rest h.2⟩
end

/-- A parsed expression that is optimized or not is readable. -/
theorem readable_optimize_of_parse {source : String} {e₀ e : Term} (h : parse source = .ok e₀)
    (he : e = e₀ ∨ e = (optimize e₀).expr) : e.Readable FitsBrackets := by
  have hreadable := readable_of_parse h
  rcases he with rfl | rfl
  · exact hreadable
  · exact readable_simplify e₀ hreadable

end Expr

end Formula

end Parametric
