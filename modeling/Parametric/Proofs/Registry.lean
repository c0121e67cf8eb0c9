import Mathlib.Data.List.Nodup
import Parametric.Proofs.Name
import Parametric.Proofs.SortedMap
import Parametric.Registry.Basic

/-!
# Registries

Shapes and labels of definitions, and registries whose definitions stand under the keys of their names.
-/

namespace Parametric

/-! ## Shapes and labels -/

namespace Definition

/-- A definition without the time of creation and the usage count. -/
def shape (d : Definition) : Definition := { d with createdAt := default, uses := 0 }

theorem agreesWith_iff {a b : Definition} : a.agreesWith b = true ↔ a.shape = b.shape := by
  simp only [agreesWith, shape, Bool.and_eq_true, beq_iff_eq, Definition.mk.injEq, and_assoc, and_true]

/-- What a definition is known by. -/
def label (d : Definition) : String × Identity := (d.name, d.identity)

end Definition

namespace Registry

/-! ## Keys -/

/-- Every definition stands under the key of its name. -/
def Keyed (r : Registry) : Prop := ∀ ⦃key d⦄, r.table.get? key = some d → d.key = key

variable {r : Registry} {d : Definition} {name : String}

theorem Keyed.empty : Keyed {} := by
  intro key d h
  simp at h

theorem Keyed.key_eq (h : r.Keyed) (hd : r.get? name = some d) : d.key = keyOf name := h hd

theorem Keyed.put (h : r.Keyed) (d : Definition) : (r.put d).Keyed := by
  intro key d' hd
  rw [Registry.put, SortedMap.get?_insert] at hd
  split at hd
  · rename_i hk
    cases hd
    exact hk.symm
  · exact h hd

theorem Keyed.remove (h : r.Keyed) (name : String) : (r.remove name).Keyed := by
  intro key d hd
  rw [Registry.remove, SortedMap.get?_erase] at hd
  split at hd
  · cases hd
  · exact h hd

theorem Keyed.modify (h : r.Keyed) {f : Definition → Definition}
    (hf : ∀ d, r.get? name = some d → (f d).key = d.key) : (r.modify name f).Keyed := by
  intro key d' hd
  rw [Registry.modify, SortedMap.get?_modify] at hd
  split at hd
  · rename_i hk
    obtain ⟨d, hget, rfl⟩ := Option.map_eq_some_iff.mp hd
    rw [hf d hget, h hget, hk]
  · exact h hd

/-! ## Answers after a change -/

variable {other : String}

@[simp] theorem get?_put :
    (r.put d).get? other = if keyOf other = d.key then some d else r.get? other := by
  simp [get?, put]

@[simp] theorem get?_remove :
    (r.remove name).get? other = if keyOf other = keyOf name then none else r.get? other := by
  simp [get?, remove]

@[simp] theorem get?_modify {f : Definition → Definition} :
    (r.modify name f).get? other =
      if keyOf other = keyOf name then (r.get? name).map f else r.get? other := by
  simp [get?, modify]

theorem get?_congr (h : keyOf other = keyOf name) : r.get? other = r.get? name := by
  simp only [get?, h]

theorem label_modify {f : Definition → Definition}
    (hf : ∀ d, r.get? name = some d → (f d).label = d.label) :
    ((r.modify name f).get? other).map Definition.label = (r.get? other).map Definition.label := by
  rw [get?_modify]
  split
  · rename_i hk
    rw [get?_congr hk, Option.map_map]
    exact Option.map_congr hf
  · rfl

theorem contains_of_label {r' : Registry}
    (h : (r'.get? name).map Definition.label = (r.get? name).map Definition.label) :
    r'.contains name = r.contains name := by
  have hsome := congrArg Option.isSome h
  rwa [Option.isSome_map, Option.isSome_map] at hsome

theorem contains_remove :
    (r.remove name).contains other = true ↔ keyOf other ≠ keyOf name ∧ r.contains other = true :=
  SortedMap.contains_erase

theorem mem_definitions_iff (h : r.Keyed) : d ∈ r.definitions ↔ r.get? d.name = some d := by
  rw [definitions, SortedMap.mem_values_iff]
  refine ⟨?_, fun hd => ⟨_, hd⟩⟩
  rintro ⟨key, hd⟩
  have hk : keyOf d.name = key := h hd
  rwa [get?, hk]

theorem Keyed.label_ownerOf? {r' : Registry} (h : r.Keyed) (h' : r'.Keyed)
    (hlabels : ∀ name, (r'.get? name).map Definition.label = (r.get? name).map Definition.label) (token : Identity) :
    (r'.ownerOf? token).map Definition.label = (r.ownerOf? token).map Definition.label := by
  have hkeys : r'.table.keys = r.table.keys := by
    have hsub : ∀ {r r' : Registry}, r.Keyed →
        (∀ name, (r'.get? name).map Definition.label = (r.get? name).map Definition.label) →
        ∀ key, r.table.contains key = true → r'.table.contains key = true := by
      intro r r' h hlabels key hkey
      obtain ⟨d, hd⟩ := SortedMap.contains_iff.mp hkey
      obtain rfl : keyOf d.name = key := h hd
      exact (contains_of_label (hlabels d.name)).trans hkey
    exact SortedMap.keys_congr fun key => ⟨hsub h' (fun name => (hlabels name).symm) key, hsub h hlabels key⟩
  have hdefinitions : r'.definitions.map Definition.label = r.definitions.map Definition.label := by
    rw [definitions, definitions, SortedMap.values_eq_filterMap, SortedMap.values_eq_filterMap, hkeys,
      List.map_filterMap, List.map_filterMap]
    refine List.filterMap_congr fun key hkey => ?_
    obtain ⟨d, hd⟩ := SortedMap.contains_iff.mp (SortedMap.mem_keys_iff.mp hkey)
    obtain rfl : keyOf d.name = key := h hd
    exact hlabels d.name
  have hfind : ∀ ds : List Definition, (ds.find? (·.identity == token)).map Definition.label =
      (ds.map Definition.label).find? (·.2 == token) := by
    intro ds
    rw [List.find?_map]
    rfl
  rw [ownerOf?, ownerOf?, hfind, hfind, hdefinitions]

theorem Keyed.ext {r' : Registry} (h : r.Keyed) (h' : r'.Keyed) (hget : ∀ name, r.get? name = r'.get? name) :
    r = r' := by
  have hsub : ∀ {r r' : Registry}, r.Keyed → (∀ name, r.get? name = r'.get? name) →
      ∀ key d, r.table.get? key = some d → r'.table.get? key = some d := by
    intro r r' h hget key d hd
    obtain rfl : keyOf d.name = key := h hd
    exact (hget d.name).symm.trans hd
  have htable : r.table = r'.table := by
    refine SortedMap.ext_get? fun key => Option.ext fun d => ⟨hsub h hget key d, ?_⟩
    exact hsub h' (fun name => (hget name).symm) key d
  cases r
  cases r'
  cases htable
  rfl

theorem Keyed.ofList (ds : List Definition) : (ofList ds).Keyed := by
  have hput : ∀ {r : Registry}, r.Keyed → (ds.foldl Registry.put r).Keyed := by
    induction ds with
    | nil => exact fun h => h
    | cons d rest ih => exact fun h => ih (h.put d)
  exact hput .empty

theorem definitions_ofList {ds : List Definition} (h : (ds.map Definition.key).Nodup) :
    (ofList ds).definitions.Perm ds := by
  have htable : ∀ r : Registry,
      (ds.foldl Registry.put r).table = ds.foldl (fun m d => m.insert d.key d) r.table := by
    clear h
    induction ds with
    | nil => exact fun r => rfl
    | cons d rest ih => exact fun r => ih (r.put d)
  rw [definitions, ofList, htable]
  simpa only [SortedMap.values_empty, List.append_nil] using SortedMap.values_insertAll h (m := ∅) fun d _ => SortedMap.get?_empty d.key

theorem Keyed.keys_definitions (h : r.Keyed) : r.definitions.map (·.key) = r.table.keys := by
  rw [definitions, SortedMap.values, SortedMap.keys, List.map_map]
  exact List.map_congr_left fun entry he => h (SortedMap.mem_entries_iff.mp he)

theorem Keyed.names_nodup (h : r.Keyed) : r.names.Nodup := by
  have hnodup : (r.definitions.map (·.key)).Nodup := h.keys_definitions ▸ r.table.keys_nodup
  refine List.Nodup.of_map keyOf ?_
  rw [names, List.map_map]
  exact hnodup

end Registry

end Parametric
