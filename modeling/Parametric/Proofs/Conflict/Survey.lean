import Mathlib
import Parametric.Definition.Supply
import Parametric.Proofs.Conflict.Detection

/-!
# What surveys say

Every detector compares the values that the copies of a name carry, so its answer depends on which values there are
and not on their order. A survey has one conflict about value kinds for each key whose kinds disagree, and the
kinds and keys of all its conflicts do not depend on the order in which elements and parameters are captured.
-/

namespace Parametric

/-! ## Values and who carries them -/

def Disagree {α : Type} (values : List α) : Prop := ∃ a ∈ values, ∃ b ∈ values, a ≠ b

theorem not_disagree_of_forall {α : Type} {l : List α} {value : α} (h : ∀ a ∈ l, a = value) : ¬Disagree l :=
  fun ⟨a, ha, b, hb, hne⟩ => hne ((h a ha).trans (h b hb).symm)

theorem Disagree.congr {α : Type} {l m : List α} (h : ∀ a, a ∈ l ↔ a ∈ m) : Disagree l ↔ Disagree m := by
  simp only [Disagree, h]

theorem not_length_lt_two_iff {α : Type} {l : List α} (h : l.Nodup) : ¬l.length < 2 ↔ Disagree l := by
  match l, h with
  | [], _ => simp [Disagree]
  | [a], _ => simp [Disagree]
  | a :: b :: rest, h =>
      have hne : a ≠ b := fun heq => (List.nodup_cons.mp h).1 (heq ▸ List.mem_cons_self)
      exact iff_of_true (by simp) ⟨a, by simp, b, by simp, hne⟩

namespace Variant

section Sources

variable {α : Type}

theorem isSome_majority? {variants : List (Variant α)} (h : variants ≠ []) : (majority? variants).isSome = true := by
  obtain ⟨v, rest, rfl⟩ := List.exists_cons_of_ne_nil h
  rw [majority?, Option.isSome_map, List.foldl_cons]
  induction rest generalizing v with
  | nil => rfl
  | cons w rest ih =>
      rw [List.foldl_cons]
      by_cases hmore : w.sources.length > v.sources.length
      · simpa [hmore] using ih w
      · simpa [hmore] using ih v

theorem exists_majority? {variants : List (Variant α)} (h : ¬variants.length < 2) :
    ∃ most, majority? variants = some most := by
  have hne : variants ≠ [] := fun hnil => h (by simp [hnil])
  exact Option.isSome_iff_exists.mp (isSome_majority? hne)

variable [BEq α]

theorem ofList_concat (init : List (α × String)) (p : α × String) :
    ofList (init ++ [p]) = add p.1 p.2 (ofList init) :=
  List.foldl_concat _ _ _ _

theorem sourcesOf_add (value : α) (source : String) (variants : List (Variant α)) :
    (sourcesOf (add value source variants)).Perm (sourcesOf variants ++ [source]) := by
  induction variants with
  | nil => exact .refl _
  | cons v rest ih =>
      simp only [add]
      split
      case isTrue =>
        simp only [sourcesOf, List.flatMap_cons, List.append_assoc]
        exact List.perm_append_comm.append_left v.sources
      case isFalse =>
        simp only [sourcesOf, List.flatMap_cons, List.append_assoc]
        exact ih.append_left v.sources

theorem sourcesOf_ofList (pairs : List (α × String)) : (sourcesOf (ofList pairs)).Perm (pairs.map (·.2)) := by
  induction pairs using List.reverseRecOn with
  | nil => exact .refl _
  | append_singleton init p ih =>
      rw [ofList_concat, List.map_append, List.map_singleton]
      exact (sourcesOf_add p.1 p.2 _).trans (ih.append_right [p.2])

end Sources

variable {α : Type} [BEq α] [LawfulBEq α]

theorem nodup_values_add {value : α} {source : String} {variants : List (Variant α)}
    (h : (variants.map (·.value)).Nodup) : ((add value source variants).map (·.value)).Nodup := by
  induction variants with
  | nil => exact List.nodup_singleton value
  | cons v rest ih =>
      simp only [add]
      split
      case isTrue => exact h
      case isFalse hne =>
        obtain ⟨hv, hrest⟩ := List.nodup_cons.mp h
        refine List.nodup_cons.mpr ⟨fun hmem => ?_, ih hrest⟩
        rcases mem_values_add.mp hmem with heq | hmem
        · exact hne (beq_iff_eq.mpr heq)
        · exact hv hmem

theorem nodup_values_ofList (pairs : List (α × String)) : ((ofList pairs).map (·.value)).Nodup := by
  induction pairs using List.reverseRecOn with
  | nil => exact List.nodup_nil
  | append_singleton init p ih =>
      rw [ofList_concat]
      exact nodup_values_add ih

theorem not_length_ofList_lt_two_iff {pairs : List (α × String)} :
    ¬(ofList pairs).length < 2 ↔ Disagree (pairs.map (·.1)) := by
  rw [← List.length_map (·.value), not_length_lt_two_iff (nodup_values_ofList pairs)]
  exact Disagree.congr fun _ => mem_values_ofList

theorem not_length_add_ofList_lt_two_iff {pairs : List (α × String)} {value : α} {source : String} :
    ¬(add value source (ofList pairs)).length < 2 ↔ Disagree (pairs.map (·.1) ++ [value]) := by
  rw [← List.length_map (·.value), not_length_lt_two_iff (nodup_values_add (nodup_values_ofList pairs))]
  exact Disagree.congr fun a => by rw [mem_values_add, mem_values_ofList, List.mem_append, List.mem_singleton, or_comm]

theorem any_ne_ofList {pairs : List (α × String)} {value : α} :
    (ofList pairs).any (·.value != value) = true ↔ Disagree (pairs.map (·.1) ++ [value]) := by
  have hany : (ofList pairs).any (·.value != value) = true ↔ ∃ a ∈ pairs.map (·.1), a ≠ value := by
    simp only [← mem_values_ofList]
    simp
  rw [hany]
  constructor
  · rintro ⟨a, ha, hne⟩
    exact ⟨a, List.mem_append_left _ ha, value, by simp, hne⟩
  · intro hdisagree
    by_contra hnone
    refine not_disagree_of_forall (fun a ha => (?_ : a = value)) hdisagree
    rcases List.mem_append.mp ha with ha | ha
    · exact not_not.mp fun hne => hnone ⟨a, ha, hne⟩
    · exact List.mem_singleton.mp ha

theorem all_ofList {pairs : List (α × String)} {p : α → Bool} :
    (ofList pairs).all (p ·.value) = true ↔ ∀ a ∈ pairs.map (·.1), p a = true := by
  simp only [← mem_values_ofList, List.forall_mem_map, List.all_eq_true]

theorem values_ofList_perm {pairs others : List (α × String)} (h : (pairs.map (·.1)).Perm (others.map (·.1))) :
    ((ofList pairs).map (·.value)).Perm ((ofList others).map (·.value)) := by
  refine (List.perm_ext_iff_of_nodup (nodup_values_ofList pairs) (nodup_values_ofList others)).mpr fun a => ?_
  rw [mem_values_ofList, mem_values_ofList]
  exact h.mem_iff

end Variant

/-! ## Detectors -/

namespace Conflict

variable {display : String} {occurrences : List Sighting} {registered : Option Definition} {conflict : Conflict}

def tokensOf (occurrences : List Sighting) : List Identity := occurrences.filterMap (·.parameter.identity)

def groupsOf (occurrences : List Sighting) : List String :=
  (occurrences.map fun o => Text.trim o.parameter.group).filter (· != "")

def formulasOf (occurrences : List Sighting) : List String :=
  (occurrences.filterMap fun o => o.parameter.formula.map Text.trim).filter (· != "")

theorem isSome_identity?_iff : (identity? display occurrences registered).isSome = true ↔
    match registered with
    | some d => ∃ token ∈ tokensOf occurrences, token ≠ d.identity
    | none => Disagree (tokensOf occurrences) := by
  have hpairs : (occurrences.filterMap fun o => o.parameter.identity.map (·, o.element)).map (·.1) =
      tokensOf occurrences := by
    simp only [tokensOf, List.map_filterMap, Option.map_map]
    exact List.filterMap_congr fun o _ => by simp [Function.comp_def]
  simp only [identity?, Option.bind_eq_bind]
  rw [← hpairs]
  generalize (occurrences.filterMap fun o => o.parameter.identity.map (·, o.element)) = pairs
  cases registered with
  | some d =>
      have hall := @Variant.all_ofList _ _ _ pairs (· == d.identity)
      simp only [beq_iff_eq] at hall
      by_cases hsame : ((Variant.ofList pairs).all (·.value == d.identity)) = true
      · simpa [hsame] using hall.mp hsame
      · simpa [hsame] using mt hall.mpr hsame
  | none =>
      rw [← Variant.not_length_ofList_lt_two_iff]
      by_cases hfew : (Variant.ofList pairs).length < 2
      · simp [hfew]
      · obtain ⟨most, hmost⟩ := Variant.exists_majority? hfew
        simp [hfew, hmost]

theorem isSome_grouping?_iff : (grouping? display occurrences registered).isSome = true ↔
    match registered with
    | some d => ∃ group ∈ groupsOf occurrences, Text.sameAscii group d.group = false
    | none => Disagree (groupsOf occurrences) := by
  have hpairs : ((occurrences.map fun o => (Text.trim o.parameter.group, o.element)).filter (·.1 != "")).map (·.1) =
      groupsOf occurrences := by
    simp only [groupsOf, List.filter_map, List.map_map]
    rfl
  simp only [grouping?, Option.bind_eq_bind]
  rw [← hpairs]
  generalize (occurrences.map fun o => (Text.trim o.parameter.group, o.element)).filter (·.1 != "") = pairs
  cases registered with
  | some d =>
      have hall := @Variant.all_ofList _ _ _ pairs (Text.sameAscii · d.group)
      by_cases hsame : ((Variant.ofList pairs).all (Text.sameAscii ·.value d.group)) = true
      · simpa [hsame] using hall.mp hsame
      · simpa [hsame] using mt hall.mpr hsame
  | none =>
      rw [← Variant.not_length_ofList_lt_two_iff]
      by_cases hfew : (Variant.ofList pairs).length < 2
      · simp [hfew]
      · obtain ⟨most, hmost⟩ := Variant.exists_majority? hfew
        simp [hfew, hmost]

theorem isSome_formula?_iff : (formula? display occurrences registered).isSome = true ↔
    Disagree (formulasOf occurrences ++ ((registered.bind (·.formula)).map Text.trim).toList) := by
  have hpairs : ((occurrences.filterMap fun o =>
      o.parameter.formula.map fun f => (Text.trim f, o.element)).filter (·.1 != "")).map (·.1) =
        formulasOf occurrences := by
    rw [formulasOf, show occurrences.filterMap (fun o => o.parameter.formula.map Text.trim) =
      (occurrences.filterMap fun o => o.parameter.formula.map fun f => (Text.trim f, o.element)).map (·.1) by
        simp [List.map_filterMap, Function.comp_def], List.filter_map]
    rfl
  simp only [formula?]
  rw [← hpairs]
  generalize (occurrences.filterMap fun o =>
    o.parameter.formula.map fun f => (Text.trim f, o.element)).filter (·.1 != "") = pairs
  cases registered.bind (·.formula) with
  | some f =>
      rw [Option.map_some, Option.toList_some, ← @Variant.not_length_add_ofList_lt_two_iff _ _ _ pairs (Text.trim f) registrySource]
      split <;> simp_all
  | none =>
      rw [Option.map_none, Option.toList_none, List.append_nil, ← Variant.not_length_ofList_lt_two_iff]
      split <;> simp_all

def kindsOf (occurrences : List Sighting) (registered : Option Definition) : List ValueKind :=
  occurrences.map (·.parameter.kind) ++ (registered.map (·.kind)).toList

/-- The variants that a conflict about value kinds is about. -/
def kindVariants (occurrences : List Sighting) (registered : Option Definition) : List (Variant ValueKind) :=
  let carried := Variant.ofList (occurrences.map fun o => (o.parameter.kind, o.element))
  match registered with
  | some d => if carried.any (·.value != d.kind) then Variant.add d.kind registrySource carried else carried
  | none => carried

theorem not_length_kindVariants_lt_two_iff :
    ¬(kindVariants occurrences registered).length < 2 ↔ Disagree (kindsOf occurrences registered) := by
  have hpairs : occurrences.map (·.parameter.kind) =
      (occurrences.map fun o => (o.parameter.kind, o.element)).map (·.1) := by simp
  simp only [kindVariants, kindsOf, hpairs]
  generalize (occurrences.map fun o => (o.parameter.kind, o.element)) = pairs
  cases registered with
  | none => simpa using Variant.not_length_ofList_lt_two_iff
  | some d =>
      by_cases hany : (Variant.ofList pairs).any (·.value != d.kind) = true
      · simp only [hany, ↓reduceIte]
        exact Variant.not_length_add_ofList_lt_two_iff
      · simp only [hany, ↓reduceIte, Bool.false_eq_true]
        have hnone := mt Variant.any_ne_ofList.mpr hany
        rw [Variant.not_length_ofList_lt_two_iff]
        exact iff_of_false (fun ⟨a, ha, b, hb, hne⟩ =>
          hnone ⟨a, List.mem_append_left _ ha, b, List.mem_append_left _ hb, hne⟩) hnone

/-- The sources of a conflict about value kinds are all copies, and the registry if it knows the name. -/
theorem sourcesOf_kindVariants (h : Disagree (kindsOf occurrences registered)) :
    (Variant.sourcesOf (kindVariants occurrences registered)).Perm
      (occurrences.map (·.element) ++ if registered.isSome then [registrySource] else []) := by
  have hpairs : occurrences.map (·.element) =
      (occurrences.map fun o => (o.parameter.kind, o.element)).map (·.2) := by simp
  have hkinds : occurrences.map (·.parameter.kind) =
      (occurrences.map fun o => (o.parameter.kind, o.element)).map (·.1) := by simp
  simp only [kindsOf, kindVariants, hpairs, hkinds] at h ⊢
  generalize (occurrences.map fun o => (o.parameter.kind, o.element)) = pairs at h ⊢
  cases registered with
  | none => simpa using Variant.sourcesOf_ofList pairs
  | some d =>
      simp only [Variant.any_ne_ofList.mpr h, ↓reduceIte, Option.isSome_some]
      exact (Variant.sourcesOf_add _ _ _).trans ((Variant.sourcesOf_ofList pairs).append_right _)

theorem sources_valueKind? : (valueKind? display occurrences registered).map (·.sources) =
    if (kindVariants occurrences registered).length < 2 then none
    else some (Variant.sourcesOf (kindVariants occurrences registered)) := by
  simp only [valueKind?, kindVariants, apply_ite (Option.map _), Option.map_none, Option.map_some]
  cases registered <;> rfl

theorem isSome_valueKind?_iff :
    (valueKind? display occurrences registered).isSome = true ↔ Disagree (kindsOf occurrences registered) := by
  rw [← not_length_kindVariants_lt_two_iff, ← Option.isSome_map (f := (·.sources)), sources_valueKind?]
  split <;> simp_all

/-! ## What a conflict is about -/

/-- The kind of a conflict and the key of the name that it is about. -/
def tag (c : Conflict) : Kind × String := (c.kind, keyOf c.parameter)

theorem tags_congr {found other : Option Conflict} {kind : Kind} {display display' : String}
    (hfound : ∀ c ∈ found, Concerns kind display c) (hother : ∀ c ∈ other, Concerns kind display' c) (hkey : keyOf display = keyOf display')
    (h : found.isSome = true ↔ other.isSome = true) : found.toList.map tag = other.toList.map tag := by
  cases found with
  | none =>
      have hnone : other = none := by simpa using h
      rw [hnone]
  | some a =>
      obtain ⟨b, rfl⟩ := Option.isSome_iff_exists.mp (h.mp rfl)
      obtain ⟨hkind, hparameter, -⟩ := hfound a rfl
      obtain ⟨hkind', hparameter', -⟩ := hother b rfl
      simp only [Option.toList_some, List.map_singleton, tag, hkind, hkind', hparameter, hparameter', hkey]

theorem tags_naming {c : Convention} (spellings : List (Variant String)) : (spellings.filterMap (naming? c)).map tag =
    ((spellings.map (·.value)).filter fun name => !(c.validate name).isClean).map fun name => (.naming, keyOf name) := by
  induction spellings with
  | nil => rfl
  | cons spelling rest ih =>
      rw [List.map_cons]
      cases hclean : (c.validate spelling.value).isClean with
      | true =>
          have hnone : naming? c spelling = none := by simp only [naming?, hclean, ↓reduceIte]
          rw [List.filterMap_cons_none hnone, List.filter_cons_of_neg (by simp [hclean]), ih]
      | false =>
          obtain ⟨conflict, hsome⟩ : ∃ conflict, naming? c spelling = some conflict := by
            simp only [naming?, hclean, Bool.false_eq_true, ↓reduceIte]
            exact ⟨_, rfl⟩
          obtain ⟨hkind, hparameter, -⟩ := of_naming? hsome
          rw [List.filterMap_cons_some hsome, List.filter_cons_of_pos (by simp [hclean]), List.map_cons, List.map_cons,
            ih, tag, hkind, hparameter]

/-- What the conflicts about one name are about does not depend on the order of its occurrences. -/
theorem tags_ofOccurrences {r : Registry} {c : Convention} {key : String} {others : List Sighting}
    (h : occurrences.Perm others) (hkey : ∀ o ∈ occurrences, o.parameter.key = key) :
    ((ofOccurrences r c occurrences).map tag).Perm ((ofOccurrences r c others).map tag) := by
  match occurrences, others with
  | [], [] => exact .refl _
  | [], _ :: _ => exact absurd h (by simp)
  | _ :: _, [] => exact absurd h (by simp)
  | first :: rest, first' :: rest' =>
      have hfirst : keyOf first.parameter.name = key := hkey first List.mem_cons_self
      have hfirst' : keyOf first'.parameter.name = key := hkey first' (h.mem_iff.mpr List.mem_cons_self)
      have hsame : r.get? first'.parameter.name = r.get? first.parameter.name := by
        rw [Registry.get?, Registry.get?, hfirst, hfirst']
      simp only [ofOccurrences, hsame, List.map_append, tags_naming]
      generalize r.get? first.parameter.name = registered
      -- without a definition the first occurrence gives the name, and only its key is sure to stay
      have hdisplay : keyOf ((registered.map (·.name)).getD first.parameter.name) =
          keyOf ((registered.map (·.name)).getD first'.parameter.name) := by
        cases registered with
        | none => exact hfirst.trans hfirst'.symm
        | some d => rfl
      have htokens : ∀ token, token ∈ tokensOf (first :: rest) ↔ token ∈ tokensOf (first' :: rest') := fun _ =>
        (h.filterMap _).mem_iff
      have hkinds : ∀ kind, kind ∈ kindsOf (first :: rest) registered ↔ kind ∈ kindsOf (first' :: rest') registered :=
        fun _ => ((h.map _).append_right _).mem_iff
      have hgroups : ∀ group, group ∈ groupsOf (first :: rest) ↔ group ∈ groupsOf (first' :: rest') := fun _ =>
        ((h.map _).filter _).mem_iff
      have hformulas : ∀ formula, formula ∈ formulasOf (first :: rest) ↔ formula ∈ formulasOf (first' :: rest') :=
        fun _ => ((h.filterMap _).filter _).mem_iff
      refine .append (.of_eq ?_) (((Variant.values_ofList_perm ?_).filter _).map _)
      · rw [tags_congr (fun _ => concerns_of_identity?) (fun _ => concerns_of_identity?) hdisplay,
          tags_congr (fun _ => concerns_of_valueKind?) (fun _ => concerns_of_valueKind?) hdisplay,
          tags_congr (fun _ => concerns_of_grouping?) (fun _ => concerns_of_grouping?) hdisplay,
          tags_congr (fun _ => concerns_of_formula?) (fun _ => concerns_of_formula?) hdisplay]
        · rw [isSome_formula?_iff, isSome_formula?_iff]
          exact Disagree.congr fun a => by simp only [List.mem_append, hformulas]
        · rw [isSome_grouping?_iff, isSome_grouping?_iff]
          cases registered with
          | none => exact Disagree.congr hgroups
          | some d => simp only [hgroups]
        · rw [isSome_valueKind?_iff, isSome_valueKind?_iff]
          exact Disagree.congr hkinds
        · rw [isSome_identity?_iff, isSome_identity?_iff]
          cases registered with
          | none => exact Disagree.congr htokens
          | some d => simp only [htokens]
      · simp only [List.map_map]
        exact h.map _

/-! ## Repetitions -/

variable {r : Registry} {c : Convention}

theorem kinds_sublist {found : Option Conflict} {kind : Kind} {display : String}
    (h : ∀ conflict ∈ found, Concerns kind display conflict) :
    (found.toList.map (·.kind)).Sublist [kind] := by
  cases found with
  | none => exact List.nil_sublist _
  | some conflict => rw [Option.toList_some, List.map_singleton, (h conflict rfl).kind_eq]

theorem parameters_naming_sublist (spellings : List (Variant String)) :
    ((spellings.filterMap (naming? c)).map (·.parameter)).Sublist (spellings.map (·.value)) := by
  induction spellings with
  | nil => exact List.nil_sublist _
  | cons spelling rest ih =>
      cases hconflict : naming? c spelling with
      | none =>
          rw [List.filterMap_cons_none hconflict]
          exact ih.cons _
      | some conflict =>
          rw [List.filterMap_cons_some hconflict, List.map_cons, List.map_cons, (of_naming? hconflict).2.1]
          exact ih.cons_cons _

/-- No two conflicts about the occurrences of one name are the same: they are of different kinds, or about different
spellings. -/
theorem nodup_ofOccurrences : (ofOccurrences r c occurrences).Nodup := by
  cases occurrences with
  | nil => exact List.nodup_nil
  | cons first rest =>
      let display := ((r.get? first.parameter.name).map (·.name)).getD first.parameter.name
      let registered := r.get? first.parameter.name
      let spellings := Variant.ofList ((first :: rest).map fun o => (o.parameter.name, o.element))
      have hkinds : (((identity? display (first :: rest) registered).toList ++
          (valueKind? display (first :: rest) registered).toList ++
          (grouping? display (first :: rest) registered).toList ++
          (formula? display (first :: rest) registered).toList).map (·.kind)).Sublist
            [.identity, .valueKind, .grouping, .formula] := by
        simp only [List.map_append]
        exact (((kinds_sublist fun _ => concerns_of_identity?).append (kinds_sublist fun _ => concerns_of_valueKind?)).append
          (kinds_sublist fun _ => concerns_of_grouping?)).append (kinds_sublist fun _ => concerns_of_formula?)
      have hspellings : (spellings.filterMap (naming? c)).Nodup :=
        .of_map (·.parameter) ((Variant.nodup_values_ofList _).sublist (parameters_naming_sublist spellings))
      refine List.Nodup.append (.of_map (·.kind) (hkinds.nodup (by decide))) hspellings fun conflict hother hnaming => ?_
      obtain ⟨spelling, -, hconflict⟩ := List.mem_filterMap.mp hnaming
      have hmem := hkinds.subset (List.mem_map_of_mem hother)
      rw [(of_naming? hconflict).1] at hmem
      exact absurd hmem (by decide)

end Conflict

/-! ## Occurrences -/

def sightings (captures : List Capture) : List Sighting :=
  captures.flatMap fun capture => capture.parameters.map (⟨capture.elementId, ·⟩)

def sightingsOf (captures : List Capture) (key : String) : List Sighting :=
  (sightings captures).filter (·.parameter.key == key)

variable {captures others : List Capture} {r : Registry} {c : Convention} {key : String}

theorem key_of_mem_sightingsOf {o : Sighting} (h : o ∈ sightingsOf captures key) : o.parameter.key = key :=
  beq_iff_eq.mp (List.mem_filter.mp h).2

theorem getD_occurrencesByKey (captures : List Capture) (key : String) :
    ((occurrencesByKey captures).get? key).getD [] = sightingsOf captures key := by
  have hpairs : (captures.flatMap fun capture =>
      capture.parameters.map fun p => (p.key, (⟨capture.elementId, p⟩ : Sighting))) =
        (sightings captures).map fun o => (o.parameter.key, o) := by
    simp [sightings, List.map_flatMap, Function.comp_def]
  rw [occurrencesByKey, SortedMap.getD_get?_grouped, hpairs, List.filter_map, List.map_map, sightingsOf]
  exact List.map_id' _

theorem contains_occurrencesByKey :
    (occurrencesByKey captures).contains key = true ↔ sightingsOf captures key ≠ [] := by
  rw [occurrencesByKey, SortedMap.contains_grouped, sightingsOf, ne_eq, List.filter_eq_nil_iff]
  simp [sightings, List.map_flatMap, Function.comp_def]

theorem conflicts_detect (captures : List Capture) (r : Registry) (c : Convention) :
    (ConflictSurvey.detect captures r c).conflicts =
      (occurrencesByKey captures).keys.flatMap fun key => Conflict.ofOccurrences r c (sightingsOf captures key) := by
  rw [ConflictSurvey.detect, SortedMap.values, SortedMap.keys, List.flatMap_map, List.flatMap_map]
  refine List.flatMap_congr fun entry hentry => ?_
  rw [← getD_occurrencesByKey, SortedMap.mem_entries_iff.mp hentry, Option.getD_some]

/-- No conflict comes twice. -/
theorem ConflictSurvey.nodup_detect (hk : r.Keyed) : (detect captures r c).conflicts.Nodup := by
  have hkey {key : String} {conflict : Conflict}
      (h : conflict ∈ Conflict.ofOccurrences r c (sightingsOf captures key)) : keyOf conflict.parameter = key :=
    Conflict.key_of_mem_ofOccurrences hk (fun _ => key_of_mem_sightingsOf) h
  rw [conflicts_detect, List.nodup_flatMap]
  refine ⟨fun _ _ => Conflict.nodup_ofOccurrences, (SortedMap.keys_nodup _).imp fun hne conflict ha hb => ?_⟩
  exact hne ((hkey ha).symm.trans (hkey hb))

/-! ## Value kinds -/

/-- The value kinds that a key is carried and registered with disagree. -/
def Disputed (captures : List Capture) (r : Registry) (key : String) : Prop :=
  sightingsOf captures key ≠ [] ∧ Disagree (Conflict.kindsOf (sightingsOf captures key) (r.table.get? key))

/-- A conflict is the one about the value kinds of a key. -/
structure Conflict.OnKinds (captures : List Capture) (r : Registry) (key : String) (conflict : Conflict) : Prop where
  kind : conflict.kind = .valueKind
  /-- The name is the registered one, or else the one that occurs first. -/
  parameter : some conflict.parameter = ((r.table.get? key).map (·.name) <|>
    (sightingsOf captures key).head?.map (·.parameter.name))
  /-- Every occurrence is a source, and the registry is one if it knows the name. -/
  sources : conflict.sources.Perm
    ((sightingsOf captures key).map (·.element) ++ if r.table.contains key then [registrySource] else [])

/-- A conflict about the value kinds of a key is about a name of this key, if the key registers no other name. -/
theorem Conflict.OnKinds.keyOf_parameter {conflict : Conflict} (h : OnKinds captures r key conflict)
    (hkey : ∀ d, r.table.get? key = some d → d.key = key) : keyOf conflict.parameter = key := by
  have hparameter := h.parameter
  cases hd : r.table.get? key with
  | some d =>
      rw [hd] at hparameter
      have hname : conflict.parameter = d.name := Option.some.inj hparameter
      rw [hname]
      exact hkey d hd
  | none =>
      rw [hd] at hparameter
      obtain ⟨first, hfirst, hname⟩ := Option.map_eq_some_iff.mp hparameter.symm
      rw [← hname]
      exact key_of_mem_sightingsOf (List.mem_of_head? hfirst)

theorem Conflict.filter_valueKind_ofOccurrences (first : Sighting) (rest : List Sighting) :
    (ofOccurrences r c (first :: rest)).filter (·.kind == .valueKind) =
      (valueKind? (((r.get? first.parameter.name).map (·.name)).getD first.parameter.name) (first :: rest)
        (r.get? first.parameter.name)).toList := by
  have hother : ∀ {found : Option Conflict} {kind : Kind} {display : String}, kind ≠ .valueKind →
      (∀ conflict ∈ found, Concerns kind display conflict) →
        found.toList.filter (·.kind == .valueKind) = [] := fun {_ kind _} hne hfound =>
    List.filter_eq_nil_iff.mpr fun conflict hmem => by
      rw [(hfound conflict (Option.mem_toList.mp hmem)).kind_eq]
      simpa using hne
  have hkinds : ∀ {display : String} {registered : Option Definition},
      (valueKind? display (first :: rest) registered).toList.filter (·.kind == .valueKind) =
        (valueKind? display (first :: rest) registered).toList := fun {_ _} =>
    List.filter_eq_self.mpr fun conflict hmem => by
      rw [(concerns_of_valueKind? (Option.mem_toList.mp hmem)).kind_eq]
      rfl
  have hnaming : ∀ spellings : List (Variant String),
      (spellings.filterMap (naming? c)).filter (·.kind == .valueKind) = [] := fun spellings =>
    List.filter_eq_nil_iff.mpr fun conflict hmem => by
      obtain ⟨spelling, -, hspelling⟩ := List.mem_filterMap.mp hmem
      rw [(of_naming? hspelling).1]
      decide
  simp only [ofOccurrences, List.filter_append, hkinds, hnaming, List.append_nil]
  rw [hother (by decide) fun _ => concerns_of_identity?, hother (by decide) fun _ => concerns_of_grouping?,
    hother (by decide) fun _ => concerns_of_formula?, List.nil_append, List.append_nil, List.append_nil]

/-- A key whose kinds disagree has one conflict about them, and no other key has any. -/
theorem Conflict.onKinds_of_disputed (h : Disputed captures r key) : ∃ conflict,
    (ofOccurrences r c (sightingsOf captures key)).filter (·.kind == .valueKind) = [conflict] ∧
      OnKinds captures r key conflict := by
  obtain ⟨hne, hdisagree⟩ := h
  obtain ⟨first, rest, hoccurrences⟩ := List.exists_cons_of_ne_nil hne
  have hregistered : r.get? first.parameter.name = r.table.get? key := by
    rw [Registry.get?, show keyOf first.parameter.name = key from
      key_of_mem_sightingsOf (hoccurrences ▸ List.mem_cons_self)]
  let display := ((r.table.get? key).map (·.name)).getD first.parameter.name
  have hfound : (valueKind? display (sightingsOf captures key) (r.table.get? key)).isSome = true :=
    isSome_valueKind?_iff.mpr hdisagree
  have hsources : (valueKind? display (sightingsOf captures key) (r.table.get? key)).map (·.sources) = _ :=
    sources_valueKind?
  obtain ⟨conflict, hconflict⟩ := Option.isSome_iff_exists.mp hfound
  rw [hconflict, if_neg (not_length_kindVariants_lt_two_iff.mpr hdisagree), Option.map_some, Option.some.injEq]
    at hsources
  obtain ⟨hkind, hparameter, -⟩ := concerns_of_valueKind? hconflict
  refine ⟨conflict, ?_, hkind, ?_, hsources ▸ sourcesOf_kindVariants hdisagree⟩
  · rw [hoccurrences, filter_valueKind_ofOccurrences, hregistered, ← hoccurrences, hconflict, Option.toList_some]
  · rw [hparameter, hoccurrences]
    simp only [display]
    cases r.table.get? key <;> rfl

theorem Conflict.filter_valueKind_of_not_disputed (h : ¬Disputed captures r key) :
    (ofOccurrences r c (sightingsOf captures key)).filter (·.kind == .valueKind) = [] := by
  cases hoccurrences : sightingsOf captures key with
  | nil => rfl
  | cons first rest =>
      have hregistered : r.get? first.parameter.name = r.table.get? key := by
        rw [Registry.get?, show keyOf first.parameter.name = key from
          key_of_mem_sightingsOf (hoccurrences ▸ List.mem_cons_self)]
      have hagree : ¬Disagree (kindsOf (sightingsOf captures key) (r.table.get? key)) := fun hdisagree =>
        h ⟨by simp [hoccurrences], hdisagree⟩
      rw [filter_valueKind_ofOccurrences, hregistered, Option.toList_eq_nil_iff, ← hoccurrences,
        ← Option.not_isSome_iff_eq_none]
      exact mt isSome_valueKind?_iff.mp hagree

namespace ConflictSurvey

theorem about_valueKind_detect (captures : List Capture) (r : Registry) (c : Convention) :
    (detect captures r c).about .valueKind = (occurrencesByKey captures).keys.flatMap fun key =>
      (Conflict.ofOccurrences r c (sightingsOf captures key)).filter (·.kind == .valueKind) := by
  rw [about, conflicts_detect, List.filter_flatMap]

/-- The conflicts about value kinds are those about the keys whose kinds disagree. -/
theorem exists_forall₂_onKinds (captures : List Capture) (r : Registry) (c : Convention) :
    ∃ keys : List String, keys.Nodup ∧ (∀ key, key ∈ keys ↔ Disputed captures r key) ∧
      List.Forall₂ (Conflict.OnKinds captures r) keys ((detect captures r c).about .valueKind) := by
  classical
  refine ⟨(occurrencesByKey captures).keys.filter fun key => Disputed captures r key,
    (SortedMap.keys_nodup _).filter _, fun key => ?_, ?_⟩
  · rw [List.mem_filter, SortedMap.mem_keys_iff, contains_occurrencesByKey, decide_eq_true_iff]
    exact and_iff_right_of_imp And.left
  · rw [about_valueKind_detect]
    induction (occurrencesByKey captures).keys with
    | nil => exact .nil
    | cons key rest ih =>
        rw [List.flatMap_cons]
        by_cases h : Disputed captures r key
        · obtain ⟨conflict, hone, hon⟩ := Conflict.onKinds_of_disputed (c := c) h
          rw [hone, List.filter_cons_of_pos (by simpa using h)]
          exact .cons hon ih
        · rw [Conflict.filter_valueKind_of_not_disputed h, List.filter_cons_of_neg (by simpa using h)]
          exact ih

/-! ## Tallies -/

theorem canMerge_iff {survey : ConflictSurvey} : survey.canMerge = true ↔ survey.about .valueKind = [] := by
  have hcritical : ∀ conflict : Conflict,
      (conflict.severity.name == Severity.critical.name) = (conflict.kind == .valueKind) := by
    intro conflict
    cases hkind : conflict.kind <;> simp only [Conflict.severity, hkind] <;> decide
  have hcount : (survey.conflicts.map (·.severity.name)).count Severity.critical.name =
      (survey.about .valueKind).length := by
    rw [List.count_eq_countP, List.countP_map, about, List.countP_eq_length_filter]
    exact congrArg List.length (List.filter_congr fun conflict _ => hcritical conflict)
  rw [canMerge, blockers, bySeverity, SortedMap.get?_tally, hcount, ← List.length_eq_zero_iff]
  cases (survey.about .valueKind).length <;> simp [Option.guard]

theorem get?_byKind (survey : ConflictSurvey) (name : String) :
    survey.byKind.get? name = Option.guard (· != 0) (survey.conflicts.countP (·.kind.name == name)) := by
  rw [byKind, SortedMap.get?_tally, List.count_eq_countP, List.countP_map]
  rfl

theorem get?_bySeverity (survey : ConflictSurvey) (name : String) :
    survey.bySeverity.get? name = Option.guard (· != 0) (survey.conflicts.countP (·.severity.name == name)) := by
  rw [bySeverity, SortedMap.get?_tally, List.count_eq_countP, List.countP_map]
  rfl

end ConflictSurvey

/-! ## Other orders -/

def Capture.Reordered (a b : Capture) : Prop :=
  a.elementId = b.elementId ∧ a.category = b.category ∧ a.parameters.Perm b.parameters

/-- Elements in another order, each with its parameters in another order. -/
def Reordered (captures others : List Capture) : Prop :=
  ∃ between, captures.Perm between ∧ List.Forall₂ Capture.Reordered between others

theorem sightings_perm (h : Reordered captures others) : (sightings captures).Perm (sightings others) := by
  obtain ⟨between, hperm, hpairs⟩ := h
  refine (hperm.flatMap_right _).trans ?_
  clear hperm
  induction hpairs with
  | nil => exact .refl _
  | @cons a b rest rest' hab _ ih =>
      obtain ⟨hid, -, hparameters⟩ := hab
      rw [List.flatMap_cons, sightings, List.flatMap_cons, hid]
      exact (hparameters.map _).append ih

namespace ConflictSurvey

/-- What conflicts are about does not depend on the order of elements and parameters. -/
theorem tags_detect (r : Registry) (c : Convention) (h : Reordered captures others) :
    ((detect captures r c).conflicts.map Conflict.tag).Perm ((detect others r c).conflicts.map Conflict.tag) := by
  have hsightings : ∀ key, (sightingsOf captures key).Perm (sightingsOf others key) := fun key =>
    (sightings_perm h).filter _
  have hkeys : (occurrencesByKey captures).keys = (occurrencesByKey others).keys := SortedMap.keys_congr fun key => by
    rw [contains_occurrencesByKey, contains_occurrencesByKey, ne_eq, ne_eq, ← List.length_eq_zero_iff,
      ← List.length_eq_zero_iff, (hsightings key).length_eq]
  rw [conflicts_detect, conflicts_detect, hkeys, List.map_flatMap, List.map_flatMap]
  exact .flatMap_left _ fun key _ => Conflict.tags_ofOccurrences (hsightings key) fun _ => key_of_mem_sightingsOf

/-- A survey has one conflict about value kinds for every key whose kinds disagree. Elements can be merged exactly if
there is no such key. What the conflicts are about does not depend on the order of elements and parameters. -/
theorem detect_complete (captures : List Capture) (r : Registry) (c : Convention) :
    (∃ keys : List String, keys.Nodup ∧ (∀ key, key ∈ keys ↔ Disputed captures r key) ∧
      List.Forall₂ (Conflict.OnKinds captures r) keys ((detect captures r c).about .valueKind) ∧
      (r.Keyed → ((detect captures r c).about .valueKind).map (keyOf ·.parameter) = keys)) ∧
    ((detect captures r c).canMerge = true ↔ ∀ key, ¬Disputed captures r key) ∧
    (∀ name, (detect captures r c).byKind.get? name =
      Option.guard (· != 0) ((detect captures r c).conflicts.countP (·.kind.name == name))) ∧
    (∀ name, (detect captures r c).bySeverity.get? name =
      Option.guard (· != 0) ((detect captures r c).conflicts.countP (·.severity.name == name))) ∧
    ∀ others, Reordered captures others →
      ((detect captures r c).conflicts.map Conflict.tag).Perm ((detect others r c).conflicts.map Conflict.tag) := by
  obtain ⟨keys, hnodup, hmem, hpairs⟩ := exists_forall₂_onKinds captures r c
  refine ⟨⟨keys, hnodup, hmem, hpairs, fun hk => ?_⟩, ?_, get?_byKind _, get?_bySeverity _, fun _ => tags_detect r c⟩
  · have hkeys : List.Forall₂ (fun key conflict => key = keyOf conflict.parameter) keys
        ((detect captures r c).about .valueKind) :=
      hpairs.imp fun _ _ hon => (hon.keyOf_parameter fun _ hd => hk hd).symm
    exact (List.forall₂_eq_eq_eq ▸ List.forall₂_map_right_iff.mpr hkeys : keys = _).symm
  · rw [canMerge_iff]
    constructor
    · intro hnone key hdisputed
      rw [hnone, List.forall₂_nil_right_iff] at hpairs
      exact List.not_mem_nil (hpairs ▸ (hmem key).mpr hdisputed)
    · intro hnone
      have hkeys : keys = [] := List.eq_nil_iff_forall_not_mem.mpr fun key hkey => hnone key ((hmem key).mp hkey)
      rwa [hkeys, List.forall₂_nil_left_iff] at hpairs

/-- Two doors carry a width of another kind than the registered one, in whatever order they are captured. -/
theorem detect_complete_doors :
    let r := ({} : Registry).put
      { identity := (TokenSupply.ofSeed 0).token 0, name := "Width", kind := .text, group := "General"
        createdAt := ⟨0, 0⟩ }
    let width : CarriedParameter := { name := "width", kind := .length }
    let mark : CarriedParameter := { name := "Mark", kind := .text }
    let captures : List Capture := [⟨"door-1", "Doors", [width, mark]⟩, ⟨"door-2", "Doors", [width]⟩]
    let others : List Capture := [⟨"door-2", "Doors", [width]⟩, ⟨"door-1", "Doors", [mark, width]⟩]
    Disputed captures r "width" ∧
      ((detect captures r {}).about .valueKind).map (·.sources) = [["door-1", "door-2", "registry"]] ∧
      ((detect captures r {}).conflicts.map Conflict.tag).Perm ((detect others r {}).conflicts.map Conflict.tag) := by
  intro r width mark captures others
  have hkeyed : r.Keyed := Registry.Keyed.empty.put _
  have hreordered : Reordered captures others :=
    ⟨captures.reverse, (List.reverse_perm _).symm,
      .cons ⟨rfl, rfl, .refl _⟩ (.cons ⟨rfl, rfl, .swap mark width []⟩ .nil)⟩
  obtain ⟨⟨keys, -, hmem, -, hkeys⟩, -, -, -, horder⟩ := detect_complete captures r {}
  refine ⟨(hmem "width").mp ?_, by decide +kernel, horder others hreordered⟩
  rw [← hkeys hkeyed]
  decide +kernel

end ConflictSurvey

end Parametric
