import Mathlib
import Parametric.Dependency.Order
import Parametric.Settings.Codec

/-!
# Texts in ascending order

A list that is sorted is known by the items that it has, so that lists with the same items are sorted alike. If
different items stand at the same place of the order, it is known by their order as well.
-/

namespace Parametric

/-! ## Parts of lists -/

/-- A list is its items with a property, followed by the others, if those with the property come first. -/
theorem filter_append_filter_eq_iff {α : Type} {p : α → Bool} {l : List α} :
    l.filter p ++ l.filter (!p ·) = l ↔ l.Pairwise fun a b => p b = true → p a = true := by
  constructor
  · intro h
    rw [← h, List.pairwise_append]
    refine ⟨?_, ?_, fun a ha b _ _ => (List.mem_filter.mp ha).2⟩
    · exact List.pairwise_of_forall_mem_list fun a ha b _ _ => (List.mem_filter.mp ha).2
    · refine List.pairwise_of_forall_mem_list fun a _ b hb hp => ?_
      simp [hp] at hb
  · intro h
    induction l with
    | nil => rfl
    | cons a rest ih =>
        obtain ⟨hfirst, hrest⟩ := List.pairwise_cons.mp h
        by_cases ha : p a = true
        · rw [List.filter_cons_of_pos ha, List.filter_cons_of_neg (by simp [ha]), List.cons_append, ih hrest]
        · have hnone : rest.filter p = [] := List.filter_eq_nil_iff.mpr fun b hb hp => ha (hfirst b hb hp)
          have hall : rest.filter (!p ·) = rest := List.filter_eq_self.mpr fun b hb => by
            simpa using fun hp => ha (hfirst b hb hp)
          rw [List.filter_cons_of_neg ha, List.filter_cons_of_pos (by simpa using ha), hnone, hall, List.nil_append]

theorem flatMap_eq_of_sublist {α β : Type} {f g : α → List β} {l m : List α} (hsub : m.Sublist l) (hnodup : l.Nodup)
    (hin : ∀ a ∈ m, f a = g a) (hout : ∀ a ∈ l, a ∉ m → f a = []) : l.flatMap f = m.flatMap g := by
  induction hsub with
  | slnil => rfl
  | cons a hsub ih =>
      obtain ⟨ha, hnodup⟩ := List.nodup_cons.mp hnodup
      rw [List.forall_mem_cons] at hout
      rw [List.flatMap_cons, hout.1 fun hmem => ha (hsub.subset hmem), List.nil_append, ih hnodup hin hout.2]
  | cons_cons a hsub ih =>
      obtain ⟨ha, hnodup⟩ := List.nodup_cons.mp hnodup
      rw [List.forall_mem_cons] at hin
      rw [List.flatMap_cons, List.flatMap_cons, hin.1, ih hnodup hin.2]
      intro b hb hnot
      refine hout b (List.mem_cons_of_mem _ hb) fun hmem => ?_
      rcases List.mem_cons.mp hmem with rfl | hmem
      · exact ha hb
      · exact hnot hmem

/-! ## Lists that correspond -/

section Corresponding

variable {α β : Type} {R : α → β → Prop} {l k : List α} {l' k' : List β}

theorem forall₂_mem (h : List.Forall₂ R l l') : List.Forall₂ (fun a b => a ∈ l ∧ b ∈ l' ∧ R a b) l l' := by
  induction h with
  | nil => exact .nil
  | cons hab _ ih =>
      refine .cons ⟨List.mem_cons_self, List.mem_cons_self, hab⟩ (ih.imp fun a b ⟨ha, hb, hR⟩ => ?_)
      exact ⟨List.mem_cons_of_mem _ ha, List.mem_cons_of_mem _ hb, hR⟩

theorem exists_left_of_forall₂ (h : List.Forall₂ R l l') {b : β} (hb : b ∈ l') : ∃ a ∈ l, R a b := by
  induction h with
  | nil => cases hb
  | @cons a _ rest _ hab _ ih =>
      rcases List.mem_cons.mp hb with rfl | hb
      · exact ⟨a, List.mem_cons_self, hab⟩
      · obtain ⟨a', ha', hR⟩ := ih hb
        exact ⟨a', List.mem_cons_of_mem _ ha', hR⟩

theorem forall_iff_of_forall₂ {p : α → Prop} {q : β → Prop} (h : List.Forall₂ R l l') (hiff : ∀ a b, R a b → (p a ↔ q b)) :
    (∀ a ∈ l, p a) ↔ ∀ b ∈ l', q b := by
  induction h with
  | nil => simp
  | cons hab _ ih => rw [List.forall_mem_cons, List.forall_mem_cons, hiff _ _ hab, ih]

theorem filterMap_eq_of_forall₂ {γ : Type} {f : α → Option γ} {g : β → Option γ}
    (h : List.Forall₂ (fun a b => f a = g b) l l') : l.filterMap f = l'.filterMap g := by
  induction h with
  | nil => rfl
  | cons hab _ ih => rw [List.filterMap_cons, List.filterMap_cons, hab, ih]

theorem forall₂_of_sublist (h : List.Forall₂ R l l') (hl : l.Nodup) (hl' : l'.Nodup) (hk : k.Sublist l) (hk' : k'.Sublist l')
    (hmem : ∀ a ∈ l, ∀ b ∈ l', R a b → (a ∈ k ↔ b ∈ k')) : List.Forall₂ R k k' := by
  induction h generalizing k k' with
  | nil =>
      rw [List.sublist_nil.mp hk, List.sublist_nil.mp hk']
      exact .nil
  | @cons a b l l' hab _ ih =>
      obtain ⟨ha, hl⟩ := List.nodup_cons.mp hl
      obtain ⟨hb, hl'⟩ := List.nodup_cons.mp hl'
      have hfirst := hmem a List.mem_cons_self b List.mem_cons_self hab
      have hrest : ∀ a' ∈ l, ∀ b' ∈ l', R a' b' → (a' ∈ k ↔ b' ∈ k') := fun a' ha' b' hb' =>
        hmem a' (List.mem_cons_of_mem _ ha') b' (List.mem_cons_of_mem _ hb')
      cases hk with
      | cons _ hk =>
          cases hk' with
          | cons _ hk' => exact ih hl hl' hk hk' hrest
          | cons_cons _ hk' => exact absurd (hk.subset (hfirst.mpr List.mem_cons_self)) ha
      | cons_cons _ hk =>
          cases hk' with
          | cons _ hk' => exact absurd (hk'.subset (hfirst.mp List.mem_cons_self)) hb
          | cons_cons _ hk' =>
              refine .cons hab (ih hl hl' hk hk' fun a' ha' b' hb' hR => ?_)
              have hiff := hrest a' ha' b' hb' hR
              have hne : a' ≠ a := fun heq => ha (heq ▸ ha')
              have hne' : b' ≠ b := fun heq => hb (heq ▸ hb')
              rwa [List.mem_cons, List.mem_cons, or_iff_right hne, or_iff_right hne'] at hiff

end Corresponding

/-! ## Repetitions -/

section EraseDups

variable {α : Type} [BEq α] [LawfulBEq α]

theorem nodup_eraseDups : ∀ l : List α, l.eraseDups.Nodup
  | [] => List.nodup_nil
  | a :: rest => by
      rw [List.eraseDups_cons]
      exact List.nodup_cons.mpr ⟨by simp [List.mem_eraseDups], nodup_eraseDups _⟩
termination_by l => l.length
decreasing_by exact Nat.lt_succ_of_le (List.length_filter_le _ _)

theorem perm_eraseDups {l m : List α} (h : ∀ a, a ∈ l ↔ a ∈ m) : l.eraseDups.Perm m.eraseDups :=
  (List.perm_ext_iff_of_nodup (nodup_eraseDups l) (nodup_eraseDups m)).mpr fun a => by
    simp only [List.mem_eraseDups, h]

theorem map_eraseDups {β : Type} [BEq β] [LawfulBEq β] (f : α → β) :
    ∀ l : List α, (∀ a ∈ l, ∀ b ∈ l, f a = f b → a = b) → l.eraseDups.map f = (l.map f).eraseDups
  | [], _ => rfl
  | a :: rest, h => by
      have hkept : (rest.map f).filter (fun b => !b == f a) = (rest.filter fun b => !b == a).map f := by
        rw [List.filter_map]
        refine congrArg _ (List.filter_congr fun b hb => ?_)
        have hiff : f b = f a ↔ b = a :=
          ⟨h b (List.mem_cons_of_mem a hb) a List.mem_cons_self, congrArg f⟩
        have hbeq : (f b == f a) = (b == a) := by
          rw [Bool.eq_iff_iff, beq_iff_eq, beq_iff_eq, hiff]
        simp [hbeq]
      rw [List.map_cons, List.eraseDups_cons, List.eraseDups_cons, List.map_cons, hkept,
        map_eraseDups f (rest.filter fun b => !b == a) fun b hb c hc =>
          h b (List.mem_cons_of_mem a (List.mem_of_mem_filter hb)) c
            (List.mem_cons_of_mem a (List.mem_of_mem_filter hc))]
termination_by l => l.length
decreasing_by exact Nat.lt_succ_of_le (List.length_filter_le _ _)

end EraseDups

/-! ## Sorted lists -/

/-- If no two items come each before the other, a sorted list does not depend on the order before. -/
theorem mergeSort_congr {α : Type} {le : α → α → Bool} (htrans : ∀ a b c, le a b → le b c → le a c)
    (htotal : ∀ a b, (le a b || le b a) = true) (hanti : ∀ a b, le a b → le b a → a = b) {l m : List α}
    (h : l.Perm m) : l.mergeSort le = m.mergeSort le := by
  have hperm := (List.mergeSort_perm l le).trans (h.trans (List.mergeSort_perm m le).symm)
  exact hperm.eq_of_pairwise (fun a b _ _ => hanti a b) (List.pairwise_mergeSort htrans htotal l)
    (List.pairwise_mergeSort htrans htotal m)

/-! ## Stable sorting -/

section Stable

variable {α β : Type} [LinearOrder β] {key : α → β} {l m : List α}

theorem filter_eq_of_sublist {p : α → Bool} (hperm : m.Perm l) (hsub : (l.filter p).Sublist m) :
    m.filter p = l.filter p := by
  have hclass : (l.filter p).Sublist (m.filter p) := by
    simpa only [List.filter_filter, Bool.and_self] using hsub.filter p
  exact (hclass.eq_of_length (hperm.filter p).length_eq.symm).symm

theorem mem_of_filter_eq (h : ∀ k, l.filter (fun a => key a = k) = m.filter fun a => key a = k) {a : α}
    (ha : a ∈ l) : a ∈ m := by
  have hclass : a ∈ l.filter fun b => key b = key a := List.mem_filter.mpr ⟨ha, by simp⟩
  exact List.mem_of_mem_filter (h (key a) ▸ hclass)

theorem eq_of_filter_eq (hl : l.Pairwise fun a b => key a ≤ key b) (hm : m.Pairwise fun a b => key a ≤ key b)
    (h : ∀ k, l.filter (fun a => key a = k) = m.filter fun a => key a = k) : l = m := by
  have hfirst : ∀ {a b : α} {rest : List α}, (a :: rest).Pairwise (fun a b => key a ≤ key b) →
      b ∈ a :: rest → key a ≤ key b := by
    intro a b rest hsorted hb
    rcases List.mem_cons.mp hb with rfl | hb
    · exact le_rfl
    · exact List.rel_of_pairwise_cons hsorted hb
  induction l generalizing m with
  | nil =>
      refine (List.eq_nil_iff_forall_not_mem.mpr fun b hb => ?_).symm
      exact List.not_mem_nil (mem_of_filter_eq (fun k => (h k).symm) hb)
  | cons a l ih =>
      cases m with
      | nil => exact absurd (mem_of_filter_eq h List.mem_cons_self) List.not_mem_nil
      | cons b m =>
          have ha : a ∈ b :: m := mem_of_filter_eq h List.mem_cons_self
          have hb : b ∈ a :: l := mem_of_filter_eq (fun k => (h k).symm) List.mem_cons_self
          have hkey : key a = key b := le_antisymm (hfirst hl hb) (hfirst hm ha)
          obtain ⟨rfl, -⟩ : a = b ∧ _ := by simpa [hkey] using h (key b)
          refine congrArg (a :: ·) (ih hl.of_cons hm.of_cons fun k => ?_)
          have hk := h k
          by_cases hak : key a = k <;> simpa [List.filter_cons, hak] using hk

/-- A stable sort is known by its order, and by leaving the items of each key in their order. -/
theorem eq_mergeSort_of_stable {le : α → α → Bool} (hle : ∀ a b, le a b = true ↔ key a ≤ key b) (hperm : m.Perm l)
    (hsorted : m.Pairwise fun a b => key a ≤ key b)
    (hstable : ∀ k, (l.filter fun a => key a = k).Sublist m) : m = l.mergeSort le := by
  have htrans : ∀ a b c, le a b → le b c → le a c := by
    simpa only [hle] using fun a b c => le_trans
  have htotal : ∀ a b, (le a b || le b a) = true := by
    simpa only [Bool.or_eq_true, hle] using fun a b => le_total (key a) (key b)
  refine eq_of_filter_eq hsorted ((List.pairwise_mergeSort htrans htotal l).imp (hle _ _).mp) fun k => ?_
  have hclass : (l.filter fun a => key a = k).Pairwise fun a b => le a b := by
    refine List.pairwise_of_forall_mem_list fun a ha b hb => (hle a b).mpr ?_
    simp only [List.mem_filter, decide_eq_true_eq] at ha hb
    rw [ha.2, hb.2]
  rw [filter_eq_of_sublist hperm (hstable k), filter_eq_of_sublist (List.mergeSort_perm l le)
    (List.sublist_mergeSort htrans htotal hclass List.filter_sublist)]

end Stable

/-! ## Sorted texts -/

theorem pairwise_ascending (texts : List String) : (ascending texts).Pairwise (· ≤ ·) := by
  refine (List.pairwise_mergeSort ?_ ?_ texts).imp of_decide_eq_true
  · simpa using fun _ _ _ => String.le_trans
  · simpa using String.le_total

theorem ascending_congr {l m : List String} (h : l.Perm m) : ascending l = ascending m := by
  refine mergeSort_congr ?_ ?_ ?_ h
  · simpa using fun _ _ _ => String.le_trans
  · simpa using String.le_total
  · simpa using fun _ _ => String.le_antisymm

theorem mem_sortedTexts {texts : List String} {text : String} : text ∈ sortedTexts texts ↔ text ∈ texts := by
  simp [sortedTexts, List.mem_mergeSort, List.mem_eraseDups]

theorem pairwise_sortedTexts (texts : List String) : (sortedTexts texts).Pairwise (· < ·) := by
  have hle : (sortedTexts texts).Pairwise (· ≤ ·) := pairwise_ascending texts.eraseDups
  have hne : (sortedTexts texts).Nodup := (List.mergeSort_perm _ _).nodup_iff.mpr (nodup_eraseDups texts)
  exact (hle.and hne).imp fun ⟨hle, hne⟩ => lt_of_le_of_ne hle hne

theorem ascendingPairs_congr {l m : List (String × String)} (h : l.Perm m) :
    Graph.ascendingPairs l = Graph.ascendingPairs m := by
  have hiff : ∀ a b : String × String, (decide (a.1 < b.1) || (a.1 == b.1 && decide (a.2 ≤ b.2))) = true ↔
      toLex a ≤ toLex b := by
    simp [Prod.Lex.le_iff]
  refine mergeSort_congr ?_ ?_ ?_ h
  · simpa only [hiff] using fun _ _ _ => le_trans
  · simpa only [Bool.or_eq_true, hiff] using fun a b => le_total (toLex a) (toLex b)
  · simpa only [hiff] using fun a b hab hba => toLex.injective (le_antisymm hab hba)

end Parametric
