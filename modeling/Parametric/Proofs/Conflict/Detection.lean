import Mathlib
import Parametric.Conflict.Detection
import Parametric.Proofs.Registry

/-!
# Detected conflicts

The occurrences of names are grouped by key, and every group has its conflicts. So conflicts stand in the order of
keys, and those that come with a better name are the spellings that do not follow the naming convention.
-/

namespace Parametric

/-! ## Values and who carries them -/

namespace Variant

variable {α : Type} [BEq α] [LawfulBEq α]

theorem mem_values_add {value : α} {source : String} {variants : List (Variant α)} {a : α} :
    a ∈ (add value source variants).map (·.value) ↔ a = value ∨ a ∈ variants.map (·.value) := by
  induction variants with
  | nil => simp [add]
  | cons v rest ih =>
      simp only [add]
      split
      case isTrue hsame =>
        rw [List.map_cons, List.map_cons, List.mem_cons, beq_iff_eq.mp hsame]
        exact or_self_left.symm
      case isFalse => rw [List.map_cons, List.map_cons, List.mem_cons, List.mem_cons, ih, or_left_comm]

theorem mem_values_ofList {pairs : List (α × String)} {a : α} :
    a ∈ (ofList pairs).map (·.value) ↔ a ∈ pairs.map (·.1) := by
  induction pairs using List.reverseRecOn with
  | nil => rfl
  | append_singleton init p ih =>
      have hlast : ofList (init ++ [p]) = add p.1 p.2 (ofList init) := List.foldl_concat _ _ _ _
      rw [hlast, mem_values_add, ih, List.map_append, List.mem_append, List.map_singleton, List.mem_singleton, or_comm]

end Variant

/-! ## Better names -/

/-- What a name should become that does not follow a convention. -/
def Convention.betterName? (c : Convention) (name : String) : Option String :=
  if (c.validate name).isClean || c.normalize name == "" || c.normalize name == name then none
  else some (c.normalize name)

namespace Conflict

variable {r : Registry} {c : Convention} {occurrences : List Sighting} {conflict : Conflict} {key : String}

theorem of_naming? {spelling : Variant String} (h : naming? c spelling = some conflict) :
    conflict.kind = .naming ∧ conflict.parameter = spelling.value ∧ conflict.betterName = c.betterName? spelling.value := by
  simp only [naming?] at h
  split at h
  case isTrue => cases h
  case isFalse hclean =>
    obtain rfl := Option.some.inj h
    refine ⟨rfl, rfl, ?_⟩
    simp only [Convention.betterName?, hclean, Bool.false_or]
    by_cases hempty : c.normalize spelling.value = "" <;> by_cases hsame : c.normalize spelling.value = spelling.value <;>
      simp [hempty, hsame]

theorem exists_naming? {spelling : Variant String} {new : String} (h : c.betterName? spelling.value = some new) :
    ∃ conflict, naming? c spelling = some conflict := by
  simp only [Convention.betterName?, naming?] at h ⊢
  split at h
  · cases h
  · rename_i hnot
    simp only [Bool.or_eq_true, not_or] at hnot
    rw [if_neg hnot.1.1]
    exact ⟨_, rfl⟩

/-- A conflict of a kind about a name, for which it has no better one. -/
structure Concerns (kind : Kind) (display : String) (conflict : Conflict) : Prop where
  kind_eq : conflict.kind = kind
  parameter_eq : conflict.parameter = display
  betterName_eq : conflict.betterName = none

section Detectors

variable {display : String} {registered : Option Definition}

theorem concerns_of_identity? (h : conflict ∈ identity? display occurrences registered) :
    Concerns .identity display conflict := by
  simp only [identity?, Option.bind_eq_bind, Option.mem_def] at h
  repeat' split at h
  all_goals
    obtain ⟨_, -, heq⟩ := Option.bind_eq_some_iff.mp h
    cases heq
    exact ⟨rfl, rfl, rfl⟩

theorem concerns_of_valueKind? (h : conflict ∈ valueKind? display occurrences registered) :
    Concerns .valueKind display conflict := by
  simp only [valueKind?, Option.mem_def, Option.ite_none_left_eq_some, Option.some.injEq] at h
  obtain ⟨-, rfl⟩ := h
  exact ⟨rfl, rfl, rfl⟩

theorem concerns_of_grouping? (h : conflict ∈ grouping? display occurrences registered) :
    Concerns .grouping display conflict := by
  simp only [grouping?, Option.bind_eq_bind, Option.mem_def] at h
  repeat' split at h
  all_goals
    obtain ⟨_, -, heq⟩ := Option.bind_eq_some_iff.mp h
    cases heq
    exact ⟨rfl, rfl, rfl⟩

theorem concerns_of_formula? (h : conflict ∈ formula? display occurrences registered) :
    Concerns .formula display conflict := by
  simp only [formula?, Option.mem_def, Option.ite_none_left_eq_some, Option.some.injEq] at h
  obtain ⟨-, rfl⟩ := h
  exact ⟨rfl, rfl, rfl⟩

/-- The other conflicts are about the registered spelling, and they come without a better name. -/
theorem exists_concerns
    (h : conflict ∈ (identity? display occurrences registered).toList ++
      (valueKind? display occurrences registered).toList ++
      (grouping? display occurrences registered).toList ++
      (formula? display occurrences registered).toList) : ∃ kind, Concerns kind display conflict := by
  simp only [List.mem_append, Option.mem_toList, or_assoc] at h
  rcases h with h | h | h | h
  · exact ⟨_, concerns_of_identity? h⟩
  · exact ⟨_, concerns_of_valueKind? h⟩
  · exact ⟨_, concerns_of_grouping? h⟩
  · exact ⟨_, concerns_of_formula? h⟩

end Detectors

theorem key_of_mem_ofOccurrences (hk : r.Keyed) (hkey : ∀ o ∈ occurrences, o.parameter.key = key)
    (h : conflict ∈ ofOccurrences r c occurrences) : keyOf conflict.parameter = key := by
  cases occurrences with
  | nil => cases h
  | cons first rest =>
      rcases List.mem_append.mp h with hother | hnaming
      · obtain ⟨_, hconcerns⟩ := exists_concerns hother
        rw [hconcerns.parameter_eq, ← hkey first List.mem_cons_self]
        cases hd : r.get? first.parameter.name with
        | none => rfl
        | some d => exact hk.key_eq hd
      · obtain ⟨spelling, hspelling, hconflict⟩ := List.mem_filterMap.mp hnaming
        obtain ⟨-, hparameter, -⟩ := of_naming? hconflict
        have hvalue := Variant.mem_values_ofList.mp (List.mem_map_of_mem (f := (·.value)) hspelling)
        rw [List.map_map] at hvalue
        obtain ⟨o, ho, hname⟩ := List.mem_map.mp hvalue
        rw [hparameter, ← hname]
        exact hkey o ho

/-- A spelling has a better name in some conflict exactly if it does not follow the convention. -/
theorem exists_mem_ofOccurrences_iff {name new : String} :
    (∃ conflict ∈ ofOccurrences r c occurrences,
      conflict.kind = .naming ∧ conflict.parameter = name ∧ conflict.betterName = some new) ↔
    (∃ o ∈ occurrences, o.parameter.name = name) ∧ c.betterName? name = some new := by
  cases occurrences with
  | nil => simp [ofOccurrences]
  | cons first rest =>
      have hvalues : (∃ o ∈ first :: rest, o.parameter.name = name) ↔
          name ∈ (Variant.ofList ((first :: rest).map fun o => (o.parameter.name, o.element))).map (·.value) := by
        rw [Variant.mem_values_ofList, List.map_map, List.mem_map]
        rfl
      rw [hvalues]
      constructor
      · rintro ⟨conflict, hmem, -, hparameter, hnew⟩
        rcases List.mem_append.mp hmem with hother | hnaming
        · obtain ⟨_, hconcerns⟩ := exists_concerns hother
          rw [hconcerns.betterName_eq] at hnew
          cases hnew
        · obtain ⟨spelling, hspelling, hconflict⟩ := List.mem_filterMap.mp hnaming
          obtain ⟨-, hvalue, hbetter⟩ := of_naming? hconflict
          obtain rfl : spelling.value = name := hvalue.symm.trans hparameter
          exact ⟨List.mem_map_of_mem hspelling, hbetter.symm.trans hnew⟩
      · rintro ⟨hname, hbetter⟩
        obtain ⟨spelling, hspelling, rfl⟩ := List.mem_map.mp hname
        obtain ⟨conflict, hconflict⟩ := exists_naming? hbetter
        obtain ⟨hkind, hparameter, hnew⟩ := of_naming? hconflict
        refine ⟨conflict, List.mem_append_right _ (List.mem_filterMap.mpr ⟨spelling, hspelling, hconflict⟩), hkind,
          hparameter, hnew.trans hbetter⟩

end Conflict

/-! ## Surveys -/

theorem mem_sightings_iff {captures : List Capture} {key : String} {o : Sighting} :
    (key, o) ∈ (captures.flatMap fun capture => capture.parameters.map fun p => (p.key, ⟨capture.elementId, p⟩)) ↔
      key = o.parameter.key ∧ ∃ capture ∈ captures, o.element = capture.elementId ∧ o.parameter ∈ capture.parameters := by
  simp only [List.mem_flatMap, List.mem_map, Prod.mk.injEq]
  constructor
  · rintro ⟨capture, hcapture, p, hp, rfl, rfl⟩
    exact ⟨rfl, capture, hcapture, rfl, hp⟩
  · rintro ⟨rfl, capture, hcapture, helement, hp⟩
    exact ⟨capture, hcapture, o.parameter, hp, rfl, by rw [← helement]⟩

namespace ConflictSurvey

variable {captures : List Capture} {r : Registry} {c : Convention}

theorem mem_detect_iff {conflict : Conflict} : conflict ∈ (detect captures r c).conflicts ↔
    ∃ entry ∈ (occurrencesByKey captures).entries, conflict ∈ Conflict.ofOccurrences r c entry.2 := by
  rw [detect, SortedMap.values, List.flatMap_map, List.mem_flatMap]

theorem pairwise_detect (hk : r.Keyed) : (detect captures r c).conflicts.Pairwise fun a b =>
    keyOf a.parameter ≤ keyOf b.parameter := by
  have hkey : ∀ entry ∈ (occurrencesByKey captures).entries, ∀ conflict ∈ Conflict.ofOccurrences r c entry.2,
      keyOf conflict.parameter = entry.1 := by
    intro entry hentry conflict hmem
    refine Conflict.key_of_mem_ofOccurrences hk (fun o ho => ?_) hmem
    exact (mem_sightings_iff.mp ((SortedMap.mem_grouped hentry).mp ho)).1.symm
  rw [detect, SortedMap.values, List.flatMap_map, List.pairwise_flatMap]
  constructor
  · intro entry hentry
    refine List.pairwise_of_forall_mem_list fun a ha b hb => ?_
    rw [hkey entry hentry a ha, hkey entry hentry b hb]
  · refine (occurrencesByKey captures).ascending.imp_of_mem fun {a b} ha hb hlt x hx y hy => ?_
    rw [hkey a ha x hx, hkey b hb y hy]
    exact le_of_lt hlt

/-- A name has a better one in some conflict exactly if an element carries it and it does not follow the
convention. -/
theorem exists_mem_detect_iff {name new : String} :
    (∃ conflict ∈ (detect captures r c).conflicts,
      conflict.kind = .naming ∧ conflict.parameter = name ∧ conflict.betterName = some new) ↔
    (∃ capture ∈ captures, ∃ p ∈ capture.parameters, p.name = name) ∧ c.betterName? name = some new := by
  have hgroup : (∃ conflict ∈ (detect captures r c).conflicts,
        conflict.kind = .naming ∧ conflict.parameter = name ∧ conflict.betterName = some new) ↔
      ∃ entry ∈ (occurrencesByKey captures).entries, ∃ conflict ∈ Conflict.ofOccurrences r c entry.2,
        conflict.kind = .naming ∧ conflict.parameter = name ∧ conflict.betterName = some new := by
    simp only [mem_detect_iff]
    constructor
    · rintro ⟨conflict, ⟨entry, hentry, hmem⟩, hconflict⟩
      exact ⟨entry, hentry, conflict, hmem, hconflict⟩
    · rintro ⟨entry, hentry, conflict, hmem, hconflict⟩
      exact ⟨conflict, ⟨entry, hentry, hmem⟩, hconflict⟩
  simp only [hgroup, Conflict.exists_mem_ofOccurrences_iff]
  constructor
  · rintro ⟨entry, hentry, ⟨o, ho, hname⟩, hbetter⟩
    obtain ⟨-, capture, hcapture, -, hp⟩ := mem_sightings_iff.mp ((SortedMap.mem_grouped hentry).mp ho)
    exact ⟨⟨capture, hcapture, o.parameter, hp, hname⟩, hbetter⟩
  · rintro ⟨⟨capture, hcapture, p, hp, hname⟩, hbetter⟩
    obtain ⟨values, hentry, hmem⟩ := SortedMap.exists_mem_grouped
      (mem_sightings_iff.mpr ⟨rfl, capture, hcapture, rfl, hp⟩ : (p.key, (⟨capture.elementId, p⟩ : Sighting)) ∈ _)
    exact ⟨_, hentry, ⟨_, hmem, hname⟩, hbetter⟩

end ConflictSurvey

end Parametric
