import Mathlib
import Parametric.Proofs.Name.Convention

/-!
# Words without separators

Words that stand one after the other without separators are read as words again. Two of them are read as
one exactly if the first has no small letter and the second one does not go on with one.
-/

namespace Parametric

/-! ## Small letters and capitals -/

namespace Word

def hasSmall (word : Word) : Bool := word.any Char.isLower

def startsLarge (word : Word) : Bool := word.head?.any Char.isUpper

/-- Whether the second character of a word is a small letter. -/
def isTitled (word : Word) : Bool := word.tail.head?.any Char.isLower

/-- Whether the next word is read as part of this one. -/
def joins (word next : Word) : Bool := !word.hasSmall && !next.isTitled

theorem hasSmall_append (word more : Word) : hasSmall (word ++ more) = (hasSmall word || hasSmall more) :=
  List.any_append

theorem hasSmall_reverse (word : Word) : hasSmall word.reverse = hasSmall word := List.any_reverse

theorem hasSmall_of_isTitled {word : Word} (h : isTitled word = true) : hasSmall word = true := by
  match word, h with
  | first :: second :: rest, h =>
    have hsecond : second.isLower = true := h
    simp [hasSmall, hsecond]

theorem isTitled_append_left {word : Word} (h : isTitled word = true) (more : Word) :
    isTitled (word ++ more) = true := by
  match word, h with
  | _ :: _ :: _, h => exact h

theorem exists_cons_of_startsLarge {word : Word} (h : startsLarge word = true) :
    ∃ first rest, word = first :: rest ∧ first.isUpper = true := by
  cases word with
  | nil => cases h
  | cons first rest => exact ⟨first, rest, rfl, h⟩

end Word

/-! ## Reading on -/

/-- After characters of one word, a capital starts the next word exactly if a small letter follows it or
stands among them. -/
theorem startsWord_eq {current : Word} (h : Unsplit none current) (hne : current ≠ []) {c : Char}
    (hc : c.isUpper = true) (next : Option Char) :
    startsWord current c next = (next.any Char.isLower || current.hasSmall) := by
  induction current generalizing c next with
  | nil => exact absurd rfl hne
  | cons previous before ih =>
      obtain ⟨hprevious, hstarts, hbefore⟩ := h
      cases hlower : previous.isLower with
      | true => simp [startsWord, Word.hasSmall, hc, hlower]
      | false =>
          cases hupper : previous.isUpper with
          | false =>
              have hdigit : previous.isDigit = true := by
                simpa [Char.isAlphanum, Char.isAlpha, hlower, hupper] using hprevious
              simp [startsWord, Word.hasSmall, hc, hlower, hupper, hdigit]
          | true =>
              -- the word goes on with this capital, so no small letter stands before it
              have hnone : Word.hasSmall before = false := by
                cases before with
                | nil => rfl
                | cons other more => simpa [hstarts] using (ih hbefore.last (by simp) hupper none).symm
              have hany : before.any Char.isLower = false := hnone
              simp [startsWord, Word.hasSmall, hc, hlower, hupper, hany]

theorem Unsplit.before {next : Option Char} {current : Word} (h : Unsplit none current)
    (hnext : next.any Char.isLower = false) : Unsplit next current := by
  cases current with
  | nil => trivial
  | cons c before => exact ⟨h.1, (startsWord_of_not_lower hnext _ _).trans h.2.1, h.2.2⟩

theorem Unsplit.of_append {word current : Word} {tail : List Char}
    (h : Unsplit tail.head? (word.reverse ++ current)) : Unsplit (word ++ tail).head? current := by
  induction word generalizing current with
  | nil => exact h
  | cons c rest ih =>
      rw [List.reverse_cons, List.append_assoc] at h
      exact (ih h).2.2

theorem wordsFrom_unsplit {word current : Word} {tail : List Char}
    (h : Unsplit tail.head? (word.reverse ++ current)) :
    wordsFrom current (word ++ tail) = wordsFrom (word.reverse ++ current) tail := by
  induction word generalizing current with
  | nil => rfl
  | cons c rest ih =>
      rw [List.reverse_cons, List.append_assoc, List.singleton_append] at h ⊢
      obtain ⟨hc, hstarts, -⟩ := h.of_append
      rw [List.cons_append, wordsFrom, hc, hstarts]
      exact ih h

theorem wordsOf_append {word : Word} {first : Char} {rest : List Char} (h : word.Solid)
    (hfirst : first.isUpper = true) (hsmall : (rest.head?.any Char.isLower || word.hasSmall) = true) :
    wordsOf (word ++ first :: rest) = word :: wordsOf (first :: rest) := by
  have halnum : first.isAlphanum = true := by simp [Char.isAlphanum, Char.isAlpha, hfirst]
  have hread : Unsplit (first :: rest).head? (word.reverse ++ []) := by
    rw [List.append_nil]
    exact h.unsplit.before (by simpa using Char.not_isLower_of_isUpper hfirst)
  have hstarts : startsWord (word.reverse ++ []) first rest.head? = true := by
    rw [List.append_nil, startsWord_eq h.unsplit (by simpa using h.nonempty) hfirst, Word.hasSmall_reverse, hsmall]
  rw [wordsOf, wordsFrom_unsplit hread, wordsFrom, halnum, hstarts]
  simp [finishWord, h.nonempty, wordsOf, wordsFrom, halnum, startsWord]

theorem wordsOf_solid {word : Word} (h : word.Solid) : wordsOf word = [word] := by
  have hread : Unsplit ([] : List Char).head? (word.reverse ++ []) := by simpa using h.unsplit
  rw [wordsOf, ← List.append_nil word, wordsFrom_unsplit hread]
  simp [wordsFrom, finishWord, h.nonempty]

/-- Words that start with capitals are read as they are if none of them joins the one before it. -/
theorem wordsOf_flatten {words : List Word} (hsolid : ∀ word ∈ words, word.Solid)
    (hchain : words.IsChain fun word next => next.startsLarge = true ∧ word.joins next = false) :
    wordsOf words.flatten = words := by
  induction words with
  | nil => rfl
  | cons word rest ih =>
      obtain ⟨hword, hrest⟩ := List.forall_mem_cons.mp hsolid
      cases rest with
      | nil => simpa using wordsOf_solid hword
      | cons next more =>
          obtain ⟨⟨hlarge, hapart⟩, htail⟩ := List.isChain_cons_cons.mp hchain
          obtain ⟨first, others, rfl, hfirst⟩ := Word.exists_cons_of_startsLarge hlarge
          have hsmall : ((others ++ more.flatten).head?.any Char.isLower || word.hasSmall) = true := by
            cases others with
            | nil => simpa [Word.joins, Word.isTitled, or_comm] using Or.inl hapart
            | cons second others => simpa [Word.joins, Word.isTitled, or_comm, imp_iff_or_not] using hapart
          have hread := ih hrest htail
          rw [List.flatten_cons, List.cons_append] at hread
          rw [List.flatten_cons, List.flatten_cons, List.cons_append, wordsOf_append hword hfirst hsmall, hread]

/-! ## Words of letters and digits -/

section Alphanumeric

variable {text : List Char} (htext : ∀ c ∈ text, c.isAlphanum = true)
include htext

theorem exists_cons_of_wordsFrom {current : Word} (hne : current ≠ []) :
    ∃ more rest, wordsFrom current text = (current.reverse ++ more) :: rest ∧
      more ++ rest.flatten = text ∧ ∀ word ∈ rest, Word.startsLarge word = true := by
  induction text generalizing current with
  | nil => exact ⟨[], [], by simp [wordsFrom, finishWord, hne]⟩
  | cons c text ih =>
      obtain ⟨hc, htext⟩ := List.forall_mem_cons.mp htext
      by_cases hstarts : startsWord current c text.head? = true
      · obtain ⟨more, rest, hread, hflat, hlarge⟩ := ih htext (List.cons_ne_nil c [])
        have hupper : c.isUpper = true := by
          by_contra hupper
          rw [startsWord_of_not_upper (by simpa using hupper)] at hstarts
          cases hstarts
        refine ⟨[], (c :: more) :: rest, ?_, by simp [hflat], List.forall_mem_cons.mpr ⟨hupper, hlarge⟩⟩
        simp [wordsFrom, hc, hstarts, hread, finishWord, hne]
      · obtain ⟨more, rest, hread, hflat, hlarge⟩ := ih htext (List.cons_ne_nil c current)
        exact ⟨c :: more, rest, by simp [wordsFrom, hc, hstarts, hread], by simp [hflat], hlarge⟩

theorem flatten_wordsOf : (wordsOf text).flatten = text := by
  cases text with
  | nil => rfl
  | cons c text =>
      obtain ⟨hc, htext⟩ := List.forall_mem_cons.mp htext
      obtain ⟨more, rest, hread, hflat, -⟩ := exists_cons_of_wordsFrom htext (List.cons_ne_nil c [])
      simp [wordsOf, wordsFrom, hc, startsWord, hread, hflat]

theorem startsLarge_of_mem_tail : ∀ word ∈ (wordsOf text).tail, Word.startsLarge word = true := by
  cases text with
  | nil => simp [wordsOf, wordsFrom, finishWord]
  | cons c text =>
      obtain ⟨hc, htext⟩ := List.forall_mem_cons.mp htext
      obtain ⟨more, rest, hread, -, hlarge⟩ := exists_cons_of_wordsFrom htext (List.cons_ne_nil c [])
      simpa [wordsOf, wordsFrom, hc, startsWord, hread] using hlarge

end Alphanumeric

/-! ## Words that join -/

theorem Unsplit.append_before {before word : Word} {first : Char} {next : Option Char}
    (hbefore : Word.hasSmall before = false) (hfirst : Unsplit (word.reverse.head?.or next) (first :: before))
    (h : Unsplit next (word ++ [first])) : Unsplit next (word ++ first :: before) := by
  induction word generalizing next with
  | nil => exact hfirst
  | cons c word ih =>
      obtain ⟨hc, hstarts, hword⟩ := h
      have hany : before.any Char.isLower = false := hbefore
      refine ⟨hc, ?_, ih (by simpa using hfirst) hword⟩
      rw [← hstarts]
      cases word <;> simp [startsWord, hany]

theorem Word.Solid.append {word next : Word} (h : word.Solid) (hnext : next.Solid)
    (hlarge : next.startsLarge = true) (hjoins : word.joins next = true) : Word.Solid (word ++ next) := by
  obtain ⟨first, rest, rfl, hfirst⟩ := exists_cons_of_startsLarge hlarge
  obtain ⟨hsmall, htitled⟩ : word.hasSmall = false ∧ rest.head?.any Char.isLower = false := by
    simpa [joins, isTitled] using hjoins
  have halnum : first.isAlphanum = true := by simp [Char.isAlphanum, Char.isAlpha, hfirst]
  have hfirst' : Unsplit rest.head? (first :: word.reverse) := by
    refine ⟨halnum, ?_, h.unsplit.before (by simpa using Char.not_isLower_of_isUpper hfirst)⟩
    rw [startsWord_eq h.unsplit (by simpa using h.nonempty) hfirst, hasSmall_reverse, hsmall, htitled]
    rfl
  refine ⟨by simp, ?_⟩
  rw [List.reverse_append, List.reverse_cons, List.append_assoc, List.singleton_append]
  refine Unsplit.append_before ((hasSmall_reverse word).trans hsmall) ?_ (by simpa using hnext.unsplit)
  simpa using hfirst'

theorem Word.isTitled_append {word more : Word} (hne : word ≠ [])
    (hmore : more.head?.any Char.isLower = false) : isTitled (word ++ more) = word.isTitled := by
  match word, hne with
  | [first], _ => simpa [isTitled] using hmore
  | first :: second :: rest, _ => rfl

theorem solid_flatten {word : Word} {rest : List Word} (hsolid : ∀ w ∈ word :: rest, w.Solid)
    (hlarge : ∀ w ∈ rest, w.startsLarge = true)
    (hchain : (word :: rest).IsChain fun word next => word.joins next = true) :
    Word.Solid (word :: rest).flatten := by
  induction rest generalizing word with
  | nil => simpa using hsolid
  | cons next more ih =>
      obtain ⟨hword, hrest⟩ := List.forall_mem_cons.mp hsolid
      obtain ⟨hnext, hmore⟩ := List.forall_mem_cons.mp hlarge
      obtain ⟨hjoins, htail⟩ := List.isChain_cons_cons.mp hchain
      have hhead : more.flatten.head?.any Char.isLower = false := by
        cases more with
        | nil => rfl
        | cons other more =>
            obtain ⟨first, others, rfl, hfirst⟩ := Word.exists_cons_of_startsLarge (hmore other List.mem_cons_self)
            simpa using Char.not_isLower_of_isUpper hfirst
      have hne : next ≠ [] := (hrest next List.mem_cons_self).nonempty
      rw [List.flatten_cons]
      refine hword.append (ih hrest hmore htail) ?_ ?_
      · obtain ⟨first, others, rfl, hfirst⟩ := Word.exists_cons_of_startsLarge hnext
        exact hfirst
      · rwa [Word.joins, List.flatten_cons, Word.isTitled_append hne hhead]

end Parametric
