import Mathlib
import Parametric.Definition.Identity
import Parametric.Definition.Kind
import Parametric.Proofs.Name
import Parametric.Proofs.Name.Convention

/-!
# Tokens and kinds as texts

The text of a token is read as that token, and the names of a kind are read as that kind.
-/

namespace Parametric

/-! ## Tokens -/

namespace Identity

def valueOf? (digits : List Char) : Option Nat :=
  (digits.mapM digitValue?).map fun values => values.foldl (16 * · + ·) 0

theorem valueOf?_concat {digits : List Char} {c : Char} {n d : Nat} (h : valueOf? digits = some n)
    (hc : digitValue? c = some d) : valueOf? (digits ++ [c]) = some (16 * n + d) := by
  obtain ⟨values, hvalues, rfl⟩ := Option.map_eq_some_iff.mp h
  simp [valueOf?, List.mapM_append, hvalues, hc]

theorem valueOf?_zeros (count : Nat) (digits : List Char) :
    valueOf? (List.replicate count '0' ++ digits) = valueOf? digits := by
  have hzero : digitValue? '0' = some 0 := by decide
  induction count with
  | zero => rfl
  | succ count ih =>
      rw [List.replicate_succ, List.cons_append, ← ih, valueOf?, valueOf?, List.mapM_cons, hzero]
      cases (List.replicate count '0' ++ digits).mapM digitValue? <;> rfl

theorem digitValue?_digitChar : ∀ d < 16, digitValue? (Nat.digitChar d) = some d := by decide

theorem valueOf?_toDigits (n : Nat) : valueOf? (Nat.toDigits 16 n) = some n := by
  induction n using Nat.strongRecOn with
  | ind n ih =>
      rw [Nat.toDigits_eq_if (by decide)]
      split
      case isTrue hlt => simp [valueOf?, digitValue?_digitChar n hlt]
      case isFalse hge =>
        rw [valueOf?_concat (ih (n / 16) (by omega)) (digitValue?_digitChar _ (Nat.mod_lt n (by decide))),
          Nat.div_add_mod]

theorem length_digits (t : Identity) : t.digits.length = 32 := by
  have hlength : (Nat.toDigits 16 t.value.toNat).length ≤ 32 :=
    (Nat.length_toDigits_le_iff (by decide) (by decide)).mpr t.value.isLt
  rw [digits, List.length_append, List.length_replicate]
  omega

theorem ofDigits?_digits (t : Identity) : ofDigits? t.digits = some t := by
  have hvalue : valueOf? t.digits = some t.value.toNat := by
    rw [digits, valueOf?_zeros, valueOf?_toDigits]
  obtain ⟨values, hvalues, hfold⟩ := Option.map_eq_some_iff.mp hvalue
  simp [ofDigits?, length_digits, hvalues, hfold]

theorem isAlphanum_of_mem_digits {t : Identity} {c : Char} (h : c ∈ t.digits) : c.isAlphanum = true := by
  have hdigit : ∀ d < 16, (Nat.digitChar d).isAlphanum = true := by decide
  have hall : ∀ n, ∀ c ∈ Nat.toDigits 16 n, c.isAlphanum = true := by
    intro n
    induction n using Nat.strongRecOn with
    | ind n ih =>
        rw [Nat.toDigits_eq_if (by decide)]
        split
        case isTrue hlt => simpa using hdigit n hlt
        case isFalse hge =>
          rw [List.forall_mem_append]
          exact ⟨ih (n / 16) (by omega), by simpa using hdigit _ (Nat.mod_lt n (by decide))⟩
  rw [digits, List.mem_append] at h
  rcases h with h | h
  · rw [List.eq_of_mem_replicate h]
    decide
  · exact hall _ c h

def hyphenated (d : List Char) : List Char :=
  d.take 8 ++ '-' :: (d.drop 8).take 4 ++ '-' :: (d.drop 12).take 4 ++ '-' :: (d.drop 16).take 4 ++
    '-' :: d.drop 20

theorem length_hyphenated {d : List Char} (h : d.length = 32) : (hyphenated d).length = 36 := by
  simp [hyphenated, h]

theorem ofHyphenated?_hyphenated {d : List Char} (h : d.length = 32) :
    ofHyphenated? (hyphenated d) = ofDigits? d := by
  have hstep : ∀ n m, (d.drop n).take m ++ d.drop (n + m) = d.drop n := fun n m => by
    rw [← List.drop_drop, List.take_append_drop]
  have hgroups : d.take 8 ++ ((d.drop 8).take 4 ++ ((d.drop 12).take 4 ++
      ((d.drop 16).take 4 ++ d.drop 20))) = d := by
    rw [hstep 16 4, hstep 12 4, hstep 8 4, List.take_append_drop]
  simp only [ofHyphenated?, length_hyphenated h]
  simp [hyphenated, h, List.drop_append, List.drop_take, hgroups]

theorem toList_text (t : Identity) : t.text.toList = hyphenated t.digits := String.toList_ofList

theorem mem_of_mem_hyphenated {d : List Char} {c : Char} (h : c ∈ hyphenated d) : c ∈ d ∨ c = '-' := by
  simp only [hyphenated, List.mem_append, List.mem_cons] at h
  grind [List.mem_of_mem_take, List.mem_of_mem_drop]

theorem isAlphanum_or_hyphen {t : Identity} {c : Char} (h : c ∈ t.text.toList) :
    c.isAlphanum = true ∨ c = '-' := by
  rw [toList_text] at h
  exact (mem_of_mem_hyphenated h).imp_left isAlphanum_of_mem_digits

theorem trim_text (t : Identity) : Text.trim t.text = t.text := by
  refine Text.trim_eq_self fun c hc => ?_
  rcases isAlphanum_or_hyphen hc with halnum | rfl
  · exact Text.isBlank_of_isAlphanum halnum
  · decide

theorem parse?_text (t : Identity) : parse? t.text = some t := by
  have hbrace : (t.text.toList.head? == some '\x7b') = false := by
    rw [beq_eq_false_iff_ne]
    intro hhead
    rcases isAlphanum_or_hyphen (List.mem_of_head? hhead) with h | h <;> exact absurd h (by decide)
  have hname : ((t.text.toList.take 9).map Char.toLower == namespaceName) = false := by
    rw [beq_eq_false_iff_ne]
    intro hnamespace
    have hcolon : ':' ∈ (t.text.toList.take 9).map Char.toLower := hnamespace ▸ by decide
    obtain ⟨c, hc, hlower⟩ := List.mem_map.mp hcolon
    rcases isAlphanum_or_hyphen (List.mem_of_mem_take hc) with halnum | rfl
    · exact absurd (hlower ▸ isAlphanum_toLower halnum) (by decide)
    · exact absurd hlower (by decide)
  have hlength : t.text.toList.length = 36 := by
    rw [toList_text, length_hyphenated t.length_digits]
  simp only [parse?, hbrace, hname, hlength, Bool.false_and, Bool.false_eq_true, ↓reduceIte]
  rw [toList_text, if_neg (by decide), ofHyphenated?_hyphenated t.length_digits, ofDigits?_digits]

theorem parseTrimmed?_text (t : Identity) : parseTrimmed? t.text = some t := by
  rw [parseTrimmed?, trim_text, parse?_text]

end Identity

/-! ## Kinds -/

namespace ValueKind

theorem named?_name (k : ValueKind) : named? k.name = some k := by
  cases k <;> decide

theorem named?_exchangeWord (k : ValueKind) : named? k.exchangeWord = some k := by
  cases k <;> decide

end ValueKind

end Parametric
