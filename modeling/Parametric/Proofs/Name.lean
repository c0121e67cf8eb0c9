import Mathlib.Data.List.DropRight
import Parametric.Name.Key

/-!
# Keys of names
-/

namespace Parametric

theorem Text.stripBy_eq_rdropWhile {α : Type} (p : α → Bool) (l : List α) :
    Text.stripBy p l = List.rdropWhile p (l.dropWhile p) := rfl

theorem Text.stripBy_stripBy {α : Type} (p : α → Bool) (l : List α) :
    Text.stripBy p (Text.stripBy p l) = Text.stripBy p l := by
  have hfront : (List.rdropWhile p (l.dropWhile p)).dropWhile p =
      List.rdropWhile p (l.dropWhile p) := by
    have hprefix := List.rdropWhile_prefix p (l.dropWhile p)
    cases hr : List.rdropWhile p (l.dropWhile p) with
    | nil => rfl
    | cons a rest =>
        rw [hr] at hprefix
        obtain ⟨more, hmore⟩ := hprefix
        have ha : (p a) = false := by
          have hi := List.dropWhile_idempotent p l
          rw [← hmore, List.cons_append] at hi
          by_contra hp
          have hlen := congrArg List.length hi
          rw [List.dropWhile_cons_of_pos (by simpa using hp)] at hlen
          have hle := (List.dropWhile_suffix p (l := rest ++ more)).length_le
          simp only [List.length_cons] at hlen
          omega
        exact List.dropWhile_cons_of_neg (by simp [ha])
  simp only [stripBy_eq_rdropWhile, hfront, List.rdropWhile_idempotent]

theorem Text.mem_of_mem_stripBy {α : Type} {p : α → Bool} {l : List α} {a : α} (h : a ∈ Text.stripBy p l) :
    a ∈ l := by
  rw [stripBy_eq_rdropWhile] at h
  exact (List.dropWhile_suffix p).subset ((List.rdropWhile_prefix p _).subset h)

theorem Text.stripBy_eq_self {α : Type} {p : α → Bool} {l : List α} (hfirst : ∀ a ∈ l.head?, p a = false)
    (hlast : ∀ a ∈ l.getLast?, p a = false) : Text.stripBy p l = l := by
  have hfront : l.dropWhile p = l := by
    cases l with
    | nil => rfl
    | cons a rest => exact List.dropWhile_cons_of_neg (by simp [hfirst a rfl])
  have hback : l.rdropWhile p = l :=
    List.rdropWhile_eq_self_iff.mpr fun hne => by simp [hlast _ (List.getLast_mem_getLast? hne)]
  rw [stripBy_eq_rdropWhile, hfront, hback]

theorem Text.trim_eq_self {s : String} (h : ∀ c ∈ s.toList, Text.isBlank c = false) : Text.trim s = s := by
  rw [Text.trim, Text.stripBy_eq_self (fun c hc => h c (List.mem_of_head? hc))
    (fun c hc => h c (List.mem_of_getLast? hc)), String.ofList_toList]

theorem Text.trim_eq_empty {s : String} (h : ∀ c ∈ s.toList, Text.isBlank c = true) : Text.trim s = "" := by
  rw [Text.trim, Text.stripBy, List.dropWhile_eq_nil_iff.mpr h]
  rfl

theorem Text.isBlank_eq_false {c : Char} (hlow : 33 ≤ c.toNat) (hhigh : c.toNat ≤ 126) : Text.isBlank c = false := by
  simp only [Text.isBlank, Text.Ranges.has, Text.blankRanges, List.any_cons, List.any_nil, Bool.or_eq_false_iff,
    Bool.and_eq_false_iff, decide_eq_false_iff_not, Bool.or_false]
  omega

theorem isAlphanum_bounds {c : Char} (h : c.isAlphanum = true) : 48 ≤ c.toNat ∧ c.toNat ≤ 122 := by
  have hupper : c.isUpper = true → 65 ≤ c.toNat ∧ c.toNat ≤ 90 := of_decide_eq_true
  have hlower : c.isLower = true → 97 ≤ c.toNat ∧ c.toNat ≤ 122 := fun h =>
    (Bool.and_eq_true_iff.mp h).imp of_decide_eq_true of_decide_eq_true
  have hdigit : c.isDigit = true → 48 ≤ c.toNat ∧ c.toNat ≤ 57 := fun h =>
    (Bool.and_eq_true_iff.mp h).imp of_decide_eq_true of_decide_eq_true
  rw [Char.isAlphanum, Bool.or_eq_true] at h
  rcases h with h | h
  · rcases Bool.or_eq_true_iff.mp h with h | h
    · have := hupper h
      omega
    · have := hlower h
      omega
  · have := hdigit h
    omega

theorem Text.isBlank_of_isAlphanum {c : Char} (h : c.isAlphanum = true) : Text.isBlank c = false := by
  have := isAlphanum_bounds h
  exact isBlank_eq_false (by omega) (by omega)

theorem Text.mem_stripBy {α : Type} {p : α → Bool} {l : List α} {a : α} (h : a ∈ l) (ha : p a = false) :
    a ∈ stripBy p l := by
  have hdrop : ∀ {l : List α}, a ∈ l → a ∈ l.dropWhile p := fun {l} h => by
    rw [← List.takeWhile_append_dropWhile (p := p) (l := l), List.mem_append] at h
    exact h.resolve_left fun htake => by simp [List.mem_takeWhile_imp htake] at ha
  exact List.mem_reverse.mpr (hdrop (List.mem_reverse.mpr (hdrop h)))

theorem Text.mem_trim {s : String} {c : Char} (h : c ∈ s.toList) (hc : Text.isBlank c = false) :
    c ∈ (Text.trim s).toList := by
  rw [trim, String.toList_ofList]
  exact mem_stripBy h hc

@[simp] theorem Text.trim_trim (s : String) : Text.trim (Text.trim s) = Text.trim s := by
  simp only [Text.trim, String.toList_ofList, Text.stripBy_stripBy]

@[simp] theorem keyOf_trim (name : String) : keyOf (Text.trim name) = keyOf name := by
  simp only [keyOf, Text.trim_trim]

theorem mem_keys_distinctNames_go {key : String} (seen names : List String) :
    key ∈ (distinctNames.go seen names).map keyOf ↔ key ∉ seen ∧ key ∈ names.map keyOf := by
  induction names generalizing seen with
  | nil => simp [distinctNames.go]
  | cons name rest ih =>
      simp only [distinctNames.go, List.contains_iff_mem]
      by_cases hs : keyOf name ∈ seen
      · simp only [hs, ↓reduceIte, ih, List.map_cons, List.mem_cons]
        refine and_congr_right fun hk => ⟨Or.inr, ?_⟩
        rintro (rfl | h)
        · exact absurd hs hk
        · exact h
      · simp only [hs, ↓reduceIte, List.map_cons, List.mem_cons, ih]
        by_cases hk : key = keyOf name
        · subst hk
          simp [hs]
        · simp [hk]

theorem mem_of_mem_distinctNames {name : String} {names : List String} (h : name ∈ distinctNames names) :
    name ∈ names := by
  have hgo : ∀ (names seen : List String), name ∈ distinctNames.go seen names → name ∈ names := by
    intro names
    induction names with
    | nil => exact fun _ h => absurd h List.not_mem_nil
    | cons first rest ih =>
        intro seen h
        simp only [distinctNames.go] at h
        split at h
        · exact List.mem_cons_of_mem _ (ih seen h)
        · rcases List.mem_cons.mp h with rfl | h
          · exact List.mem_cons_self
          · exact List.mem_cons_of_mem _ (ih _ h)
  exact hgo names [] h

theorem mem_keys_distinctNames {key : String} {names : List String} :
    key ∈ (distinctNames names).map keyOf ↔ key ∈ names.map keyOf := by
  simp [distinctNames, mem_keys_distinctNames_go]

theorem nodup_keys_distinctNames (names : List String) : ((distinctNames names).map keyOf).Nodup := by
  have hgo : ∀ seen, ((distinctNames.go seen names).map keyOf).Nodup := by
    induction names with
    | nil => exact fun _ => List.nodup_nil
    | cons name rest ih =>
        intro seen
        simp only [distinctNames.go]
        split
        · exact ih seen
        · rw [List.map_cons, List.nodup_cons, mem_keys_distinctNames_go]
          exact ⟨fun h => h.1 List.mem_cons_self, ih _⟩
  exact hgo []

end Parametric
