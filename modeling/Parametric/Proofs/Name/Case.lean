import Parametric.Proofs.Name
import Parametric.Text.Ascii

/-!
# Letter case in keys

Names that agree up to the case of ASCII letters have one key, and a key holds the closing bracket
exactly if its names do.
-/

namespace Parametric

namespace Text

/-! ## ASCII letters -/

/-- What is the same for the upper and the lower case of the letters of ASCII is the same for the lower case of
all characters. -/
theorem apply_toLower {α : Type} {f : Char → α} (h : ∀ n < 26, f (Char.ofNat (65 + n)).toLower = f (Char.ofNat (65 + n)))
    (c : Char) : f c.toLower = f c := by
  by_cases hc : 65 ≤ c.toNat ∧ c.toNat ≤ 90
  · have hf := h (c.toNat - 65) (by omega)
    rwa [Nat.add_sub_cancel' hc.1, Char.ofNat_toNat] at hf
  · have hsame : c.toLower = c := by
      unfold Char.toLower
      refine dif_neg fun hupper => hc ?_
      exact ⟨UInt32.le_iff_toNat_le.mp hupper.1, UInt32.le_iff_toNat_le.mp hupper.2⟩
    rw [hsame]

theorem agree_of_letter : ∀ n < 26, let c := Char.ofNat (65 + n)
    lowerChar c.toLower = lowerChar c ∧ isCased c.toLower = isCased c ∧ isCaseIgnorable c.toLower = isCaseIgnorable c := by
  decide +kernel

theorem lowerChar_toLower (c : Char) : lowerChar c.toLower = lowerChar c :=
  apply_toLower (fun n hn => (agree_of_letter n hn).1) c

theorem isSigma_toLower (c : Char) : (c.toLower == 'Σ') = (c == 'Σ') :=
  apply_toLower (f := (· == 'Σ')) (by decide) c

theorem reachesCased_map_toLower (l : List Char) : reachesCased (l.map Char.toLower) = reachesCased l := by
  have hcased : ∀ c : Char, isCased c.toLower = isCased c := apply_toLower fun n hn => (agree_of_letter n hn).2.1
  have hignorable : isCaseIgnorable ∘ Char.toLower = isCaseIgnorable :=
    funext (apply_toLower fun n hn => (agree_of_letter n hn).2.2)
  simp only [reachesCased, List.dropWhile_map, hignorable, List.head?_map, Option.any_map, hcased]

theorem lowerFrom_map_toLower (before l : List Char) :
    lowerFrom (before.map Char.toLower) (l.map Char.toLower) = lowerFrom before l := by
  induction l generalizing before with
  | nil => rfl
  | cons c rest ih =>
    rw [List.map_cons, lowerFrom, lowerFrom, isSigma_toLower, lowerChar_toLower, reachesCased_map_toLower,
      reachesCased_map_toLower, ← List.map_cons, ih]

theorem lowercase_lowerAscii (s : String) : lowercase (lowerAscii s) = lowercase s := by
  rw [lowercase, lowerAscii, String.toList_ofList, lowercase]
  exact congrArg String.ofList (lowerFrom_map_toLower [] s.toList)

theorem lowercase_of_sameAscii {a b : String} (h : sameAscii a b) : lowercase a = lowercase b := by
  rw [← lowercase_lowerAscii a, ← lowercase_lowerAscii b, beq_iff_eq.mp h]

/-! ## The closing bracket -/

theorem closing_mem_lowerChar {c : Char} : ']' ∈ lowerChar c ↔ c = ']' := by
  unfold lowerChar
  split
  case isTrue =>
    have hclosing : (c.toLower == ']') = (c == ']') := apply_toLower (f := (· == ']')) (by decide) c
    rw [List.mem_singleton, eq_comm, ← beq_iff_eq, hclosing, beq_iff_eq]
  case isFalse hc =>
    have hne : c ≠ ']' := by
      rintro rfl
      exact hc (by decide)
    refine iff_of_false (fun hmem => ?_) hne
    split at hmem
    · exact absurd hmem (by decide)
    split at hmem
    case h_1 run hrun =>
      -- no run reaches down to the code point of the bracket
      have hruns : ∀ r ∈ lowercaseRuns, 93 < r.first + r.distance := by decide +kernel
      have hlow := hruns run (List.mem_of_find?_eq_some hrun)
      have hfirst := List.find?_some hrun
      simp only [Bool.and_eq_true, decide_eq_true_eq] at hfirst
      have hcode : 93 = (Char.ofNat (c.toNat + run.distance).toNat).toNat :=
        congrArg Char.toNat (List.mem_singleton.mp hmem)
      by_cases hvalid : (c.toNat + run.distance).toNat.isValidChar
      · rw [Char.ofNat, dif_pos hvalid] at hcode
        exact absurd (hcode.trans UInt32.toNat_ofNatLT) (by omega)
      · rw [Char.ofNat, dif_neg hvalid] at hcode
        exact absurd hcode (by decide)
    case h_2 => exact hne (List.mem_singleton.mp hmem).symm

theorem closing_mem_lowerFrom (before : List Char) {l : List Char} : ']' ∈ lowerFrom before l ↔ ']' ∈ l := by
  induction l generalizing before with
  | nil => rfl
  | cons c rest ih =>
    rw [lowerFrom, List.mem_append, ih, List.mem_cons, eq_comm (b := c)]
    refine or_congr_left ?_
    split
    case isTrue hsigma =>
      rw [beq_iff_eq.mp hsigma]
      split <;> decide
    case isFalse => exact closing_mem_lowerChar

theorem lowerChar_ne_nil (c : Char) : lowerChar c ≠ [] := by
  unfold lowerChar
  repeat' split
  all_goals simp

theorem lowercase_eq_empty {s : String} : lowercase s = "" ↔ s = "" := by
  rw [lowercase, ← String.toList_inj, String.toList_ofList, ← String.toList_inj]
  cases s.toList with
  | nil => rfl
  | cons c rest =>
    refine iff_of_false (fun h => ?_) (by simp)
    rw [lowerFrom] at h
    have hlower := (List.append_eq_nil_iff.mp h).1
    split at hlower
    · cases hlower
    · exact lowerChar_ne_nil c hlower

/-! ## ASCII texts -/

theorem lowerFrom_of_ascii (before : List Char) {l : List Char} (h : ∀ c ∈ l, c.toNat < 128) :
    lowerFrom before l = l.map Char.toLower := by
  induction l generalizing before with
  | nil => rfl
  | cons c rest ih =>
    rw [List.forall_mem_cons] at h
    have hsigma : (c == 'Σ') = false := by
      rw [beq_eq_false_iff_ne]
      rintro rfl
      exact absurd h.1 (by decide)
    rw [lowerFrom, hsigma, if_neg Bool.false_ne_true, ih _ h.2, lowerChar, if_pos h.1]
    rfl

end Text

/-! ## Keys -/

theorem keyOf_eq_of_sameAscii {a b : String} (h : Text.sameAscii (Text.trim a) (Text.trim b)) :
    keyOf a = keyOf b := Text.lowercase_of_sameAscii h

theorem keyOf_eq_empty {name : String} : keyOf name = "" ↔ Text.trim name = "" := Text.lowercase_eq_empty

theorem length_keyOf {name : String} (hascii : ∀ c ∈ name.toList, c.toNat < 128)
    (hblank : ∀ c ∈ name.toList, Text.isBlank c = false) : (keyOf name).length = name.length := by
  rw [keyOf, Text.trim_eq_self hblank, Text.lowercase, Text.lowerFrom_of_ascii [] hascii, ← String.length_toList,
    String.toList_ofList, List.length_map, String.length_toList]

theorem closing_mem_keyOf {name : String} : ']' ∈ (keyOf name).toList ↔ ']' ∈ (Text.trim name).toList := by
  rw [keyOf, Text.lowercase, String.toList_ofList, Text.closing_mem_lowerFrom]

end Parametric
