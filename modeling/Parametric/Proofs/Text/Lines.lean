import Mathlib
import Parametric.Proofs.Name
import Parametric.Text.Lines

/-!
# Lines and fields

A text that was put together from pieces is split into these pieces, and a number is read back from its digits.
-/

namespace Parametric.Text

/-! ## Pieces -/

section Pieces

variable {mark : Char} {piece : List Char}

theorem splitAt_of_not_mem (h : mark ∉ piece) : splitAt mark piece = [piece] := by
  induction piece with
  | nil => rfl
  | cons c rest ih =>
      rw [List.mem_cons, not_or] at h
      rw [splitAt, if_neg (Ne.symm h.1), ih h.2]

theorem splitAt_append (h : mark ∉ piece) (rest : List Char) :
    splitAt mark (piece ++ mark :: rest) = piece :: splitAt mark rest := by
  induction piece with
  | nil => simp [splitAt]
  | cons c others ih =>
      rw [List.mem_cons, not_or] at h
      rw [List.cons_append, splitAt, if_neg (Ne.symm h.1), ih h.2]

theorem splitAt_intercalate {pieces : List (List Char)} (hne : pieces ≠ [])
    (h : ∀ piece ∈ pieces, mark ∉ piece) : splitAt mark (List.intercalate [mark] pieces) = pieces := by
  induction pieces with
  | nil => exact absurd rfl hne
  | cons first rest ih =>
      obtain ⟨hfirst, hrest⟩ := List.forall_mem_cons.mp h
      cases rest with
      | nil => rw [List.intercalate_singleton, splitAt_of_not_mem hfirst]
      | cons next more =>
          rw [List.intercalate_cons_cons, List.append_assoc, List.singleton_append, splitAt_append hfirst,
            ih (List.cons_ne_nil next more) hrest]

end Pieces

/-! ## Lines -/

theorem dropEndWhile_eq_self {p : Char → Bool} {text : List Char} (h : ∀ c ∈ text, p c = false) :
    dropEndWhile p text = text := by
  have hnone : text.reverse.dropWhile p = text.reverse := by
    rw [List.dropWhile_eq_self_iff]
    intro hlength
    simpa using h _ (List.mem_reverse.mp (List.getElem_mem hlength))
  rw [dropEndWhile, hnone, List.reverse_reverse]

theorem lines_join {texts : List String} (h : ∀ text ∈ texts, '\n' ∉ text.toList ∧ '\r' ∉ text.toList) :
    lines (String.join (texts.map (· ++ "\n"))) = texts.map String.toList := by
  have hsplit : splitAt '\n' (String.join (texts.map (· ++ "\n"))).toList = texts.map String.toList ++ [[]] := by
    rw [String.toList_join, List.flatMap_map]
    induction texts with
    | nil => rfl
    | cons first rest ih =>
        obtain ⟨hfirst, hrest⟩ := List.forall_mem_cons.mp h
        rw [List.flatMap_cons, String.toList_append, List.append_assoc]
        exact (splitAt_append hfirst.1 _).trans (congrArg (first.toList :: ·) (ih hrest))
  have hkept : (texts.map String.toList).map (dropEndWhile (· == '\r')) = texts.map String.toList := by
    rw [List.map_map]
    refine List.map_congr_left fun text htext => dropEndWhile_eq_self fun c hc => ?_
    rw [beq_eq_false_iff_ne]
    rintro rfl
    exact (h text htext).2 hc
  simp only [lines, hsplit, List.getLast?_concat, beq_self_eq_true, ↓reduceIte, List.dropLast_concat, hkept]

/-! ## Numbers -/

theorem isDigit_of_mem_toString {n : Nat} {c : Char} (h : c ∈ (toString n).toList) : c.isDigit = true := by
  refine Nat.isDigit_of_mem_toDigits (b := 10) (n := n) (by decide) le_rfl ?_
  simpa [toString, Nat.repr] using h

theorem trim_toString (n : Nat) : trim (toString n) = toString n :=
  trim_eq_self fun c hc => isBlank_of_isAlphanum (by simp [Char.isAlphanum, isDigit_of_mem_toString hc])

theorem nat?_toString {n : Nat} (h : n < Number.wordLimit) : nat? (toString n) = some n := by
  have htext : (toString n).toList = Nat.toDigits 10 n := by simp [toString, Nat.repr]
  have hne : Nat.toDigits 10 n ≠ [] := List.ne_nil_of_length_pos Nat.length_toDigits_pos
  have hdigits : (Nat.toDigits 10 n).all Char.isDigit = true :=
    List.all_eq_true.mpr fun c hc => isDigit_of_mem_toString (htext ▸ hc)
  -- No digit is a plus sign, so that no character is taken off.
  have hplus : ∀ rest, Nat.toDigits 10 n ≠ '+' :: rest := fun rest heq =>
    absurd (isDigit_of_mem_toString (n := n) (htext ▸ heq ▸ List.mem_cons_self)) (by decide)
  have hvalue : (Nat.toDigits 10 n).foldl (fun n c => 10 * n + (c.toNat - '0'.toNat)) 0 = n :=
    Nat.ofDigitChars_ten_toDigits
  simp only [nat?, htext, hvalue]
  simp [hne, hdigits, Nat.not_le.mpr h]

end Parametric.Text
