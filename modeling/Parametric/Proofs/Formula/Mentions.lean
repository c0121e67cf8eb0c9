import Parametric.Proofs.Formula.Parsed
import Parametric.Proofs.Formula.Rendering
import Parametric.Proofs.Name.Case

/-!
# Names that a text is read with

The text of an expression is read with the names of the expression, and with one more for each literal
that is not finite. The references stay the same exactly if each name that a literal brings in would
have been the next reference anyway.
-/

namespace Parametric

/-! ## Distinct keys -/

theorem distinctNames_go_congr {seen seen' : List String} (h : ∀ key, key ∈ seen ↔ key ∈ seen')
    (names : List String) : distinctNames.go seen names = distinctNames.go seen' names := by
  induction names generalizing seen seen' with
  | nil => rfl
  | cons name rest ih =>
    simp only [distinctNames.go, List.contains_iff_mem, h]
    split
    · exact ih h
    · exact congrArg (name :: ·) (ih fun key => by rw [List.mem_cons, List.mem_cons, h])

theorem distinctNames_go_of_mem {seen : List String} {key : String} (h : key ∈ seen) (names : List String) :
    distinctNames.go (key :: seen) names = distinctNames.go seen names := by
  refine distinctNames_go_congr (fun other => ?_) names
  rw [List.mem_cons, or_iff_right_of_imp]
  rintro rfl
  exact h

theorem keys_distinctNames_go (seen names : List String) : (distinctNames.go seen names).map keyOf =
    match (names.map keyOf).find? (!seen.contains ·) with
    | none => []
    | some key => key :: (distinctNames.go (key :: seen) names).map keyOf := by
  induction names with
  | nil => rfl
  | cons name rest ih =>
    rw [distinctNames.go, List.map_cons, List.find?_cons]
    cases hseen : seen.contains (keyOf name) with
    | true =>
      rw [if_pos rfl, ih]
      have hmem := List.contains_iff_mem.mp hseen
      cases (rest.map keyOf).find? (!seen.contains ·) with
      | none => rfl
      | some key => simp [distinctNames.go, hmem]
    | false => simp [distinctNames.go]

theorem keys_distinctNames_go_map {f : String → String} (hf : ∀ name, keyOf (f name) = keyOf name)
    (seen names : List String) :
    (distinctNames.go seen (names.map f)).map keyOf = (distinctNames.go seen names).map keyOf := by
  induction names generalizing seen with
  | nil => rfl
  | cons name rest ih =>
    simp only [List.map_cons, distinctNames.go, hf]
    split
    · exact ih seen
    · rw [List.map_cons, List.map_cons, hf, ih]

namespace Formula

/-! ## Mentions -/

inductive Mention where
  | reference (name : String)
  /-- A literal that is not finite. -/
  | literal (name : String)
deriving DecidableEq, Repr

namespace Mention

def name : Mention → String
  | .reference name | .literal name => name

def reference? : Mention → Option String
  | .reference name => some name
  | .literal _ => none

end Mention

/-- Whether each name that a literal brings in was seen, or is that of the next reference that was not. -/
def Covered (seen : List String) : List Mention → Prop
  | [] => True
  | .reference name :: rest => Covered (keyOf name :: seen) rest
  | .literal name :: rest =>
    (keyOf name ∈ seen ∨
        ((rest.filterMap Mention.reference?).map keyOf).find? (!seen.contains ·) = some (keyOf name)) ∧
      Covered (keyOf name :: seen) rest

instance decidableCovered (seen : List String) : (mentions : List Mention) → Decidable (Covered seen mentions)
  | [] => .isTrue trivial
  | .reference name :: rest => decidableCovered (keyOf name :: seen) rest
  | .literal name :: rest =>
    have := decidableCovered (keyOf name :: seen) rest
    inferInstanceAs (Decidable (_ ∧ _))

/-- The names that literals bring in change nothing exactly if they are covered. -/
theorem covered_iff (seen : List String) (mentions : List Mention) :
    (distinctNames.go seen (mentions.map Mention.name)).map keyOf =
        (distinctNames.go seen (mentions.filterMap Mention.reference?)).map keyOf ↔ Covered seen mentions := by
  induction mentions generalizing seen with
  | nil => exact iff_of_true rfl trivial
  | cons mention rest ih =>
    cases mention with
    | reference name =>
      rw [Covered, ← ih]
      simp only [List.map_cons, Mention.name, List.filterMap_cons, Mention.reference?, distinctNames.go,
        List.contains_iff_mem]
      split
      case isTrue hseen => rw [distinctNames_go_of_mem hseen, distinctNames_go_of_mem hseen]
      case isFalse => rw [List.map_cons, List.map_cons, List.cons_inj_right]
    | literal name =>
      rw [Covered, ← ih]
      simp only [List.map_cons, Mention.name, List.filterMap_cons, Mention.reference?, distinctNames.go,
        List.contains_iff_mem]
      split
      case isTrue hseen =>
        rw [distinctNames_go_of_mem hseen, distinctNames_go_of_mem hseen]
        exact (and_iff_right (.inl hseen)).symm
      case isFalse hseen =>
        -- the name of the literal comes next on the left, so it must come next on the right
        rw [or_iff_right hseen, List.map_cons, keys_distinctNames_go seen (rest.filterMap Mention.reference?)]
        cases ((rest.filterMap Mention.reference?).map keyOf).find? (!seen.contains ·) with
        | none => exact iff_of_false (List.cons_ne_nil _ _) (by simp)
        | some key =>
          rw [List.cons_eq_cons, Option.some_inj, eq_comm (a := keyOf name)]
          refine and_congr_right ?_
          rintro rfl
          rfl

theorem covered_map_reference (seen names : List String) : Covered seen (names.map .reference) := by
  induction names generalizing seen with
  | nil => trivial
  | cons name rest ih => exact ih (keyOf name :: seen)

namespace Expr

mutual
def mentions : Term → List Mention
  | .number value => if value.isFinite then [] else [.literal (if value.isNaN then "NaN" else "inf")]
  | .text _ | .boolean _ => []
  | .reference name => [.reference name]
  | .negate operand => operand.mentions
  | .binary _ lhs rhs => lhs.mentions ++ rhs.mentions
  | .call _ args => mentionsAll args
  | .group inner => inner.mentions

def mentionsAll : List Term → List Mention
  | [] => []
  | e :: rest => e.mentions ++ mentionsAll rest
end

mutual
theorem reference?_mentions : (e : Term) → e.mentions.filterMap Mention.reference? = e.names
  | .number value => by
    rw [mentions]
    split <;> rfl
  | .text _ | .boolean _ | .reference _ => rfl
  | .negate operand => reference?_mentions operand
  | .binary _ lhs rhs => by
    rw [mentions, List.filterMap_append, reference?_mentions lhs, reference?_mentions rhs, names]
  | .call _ args => reference?_mentionsAll args
  | .group inner => reference?_mentions inner

theorem reference?_mentionsAll : (args : List Term) →
    (mentionsAll args).filterMap Mention.reference? = namesAll args
  | [] => rfl
  | e :: rest => by
    rw [mentionsAll, List.filterMap_append, reference?_mentions e, reference?_mentionsAll rest, namesAll]
end

mutual
theorem names_spelledOut : (e : Term) → e.spelledOut.names = e.mentions.map Mention.name
  | .number value => by
    rw [spelledOut, mentions]
    repeat' split
    all_goals rfl
  | .text _ | .boolean _ | .reference _ => rfl
  | .negate operand => names_spelledOut operand
  | .binary _ lhs rhs => by
    rw [spelledOut, names, names_spelledOut lhs, names_spelledOut rhs, mentions, List.map_append]
  | .call _ args => namesAll_spelledOutAll args
  | .group inner => names_spelledOut inner

theorem namesAll_spelledOutAll : (args : List Term) →
    namesAll (spelledOutAll args) = (mentionsAll args).map Mention.name
  | [] => rfl
  | e :: rest => by
    rw [spelledOutAll, namesAll, names_spelledOut e, namesAll_spelledOutAll rest, mentionsAll, List.map_append]
end

mutual
theorem mentions_of_finite : (e : Term) → e.hasFiniteNumbers → e.mentions = e.names.map .reference
  | .number _, h => if_pos h
  | .text _, _ | .boolean _, _ | .reference _, _ => rfl
  | .negate operand, h => mentions_of_finite operand h
  | .binary _ lhs rhs, h => by
    rw [hasFiniteNumbers, Bool.and_eq_true] at h
    rw [mentions, mentions_of_finite lhs h.1, mentions_of_finite rhs h.2, names, List.map_append]
  | .call _ args, h => mentionsAll_of_finite args h
  | .group inner, h => mentions_of_finite inner h

theorem mentionsAll_of_finite : (args : List Term) → haveFiniteNumbers args →
    mentionsAll args = (namesAll args).map .reference
  | [], _ => rfl
  | e :: rest, h => by
    rw [haveFiniteNumbers, Bool.and_eq_true] at h
    rw [mentionsAll, mentions_of_finite e h.1, mentionsAll_of_finite rest h.2, namesAll, List.map_append]
end

theorem covered_of_finite {e : Term} (h : e.hasFiniteNumbers) : Covered [] e.mentions :=
  mentions_of_finite e h ▸ covered_map_reference [] e.names

/-- The text of an expression has the references of the expression exactly if the names that literals
bring in are covered. -/
theorem keys_references_parse_render {style : Style} {e e' : Term} (h : e.Readable FitsTrimmed)
    (hparse : parse (e.render style) = .ok e') :
    e'.references.map keyOf = e.references.map keyOf ↔ Covered [] e.mentions := by
  rw [← covered_iff, reference?_mentions, ← names_spelledOut, references, names_parse_render h hparse, references,
    distinctNames, keys_distinctNames_go_map keyOf_trim, distinctNames]

/-! ## Names in other spellings -/

theorem fitsTrimmed_iff {name : String} : FitsTrimmed name ↔ keyOf name ≠ "" ∧ ']' ∉ (keyOf name).toList := by
  rw [Ne, keyOf_eq_empty, closing_mem_keyOf]
  exact ⟨fun h => ⟨h.ne_empty, h.close_notMem⟩, fun h => ⟨Text.trim_trim name, h.1, h.2⟩⟩

/-- A parsed expression with its names in other letter case is readable, also if it is optimized. -/
theorem readable_respelled_of_parse {source : String} {parsed e : Term} (h : parse source = .ok parsed)
    {spelling : String → String} (hspelling : ∀ name, keyOf (spelling name) = keyOf name)
    (he : e = parsed.mapNames spelling ∨ e = (optimize (parsed.mapNames spelling)).expr) :
    e.Readable FitsTrimmed := by
  have hreadable : (parsed.mapNames spelling).Readable FitsTrimmed := by
    refine Readable.mapNames (fun name hname => ?_) parsed (readable_of_parse h)
    rw [fitsTrimmed_iff, hspelling, ← fitsTrimmed_iff]
    exact hname.fitsTrimmed
  rcases he with rfl | rfl
  · exact hreadable
  · exact readable_simplify _ hreadable

end Expr

end Formula

end Parametric
