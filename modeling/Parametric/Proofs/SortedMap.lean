import Mathlib.Data.List.Induction
import Mathlib.Data.List.Nodup
import Parametric.SortedMap

/-!
# Look-ups in finite maps

What a map answers after a change, and its entries and values in terms of its answers.
-/

namespace Parametric

variable {α : Type}

theorem lookup_cons_ite (key other : String) (value : α) (l : List (String × α)) :
    List.lookup other ((key, value) :: l) = if other = key then some value else l.lookup other := by
  by_cases h : other = key
  · subst h
    simp
  · have hb : (other == key) = false := by simpa using h
    rw [List.lookup_cons, hb, if_neg h]

theorem lookup_insertEntry (key other : String) (value : α) (l : List (String × α)) :
    (insertEntry key value l).lookup other = if other = key then some value else l.lookup other := by
  induction l with
  | nil => exact lookup_cons_ite key other value []
  | cons entry rest ih =>
      obtain ⟨k, v⟩ := entry
      simp only [insertEntry]
      split
      · exact lookup_cons_ite key other value _
      · split
        · rename_i heq
          subst heq
          simp only [lookup_cons_ite]
          split <;> rfl
        · rename_i hne
          simp only [lookup_cons_ite, ih]
          by_cases hk : other = k
          · subst hk
            simp [Ne.symm hne]
          · simp [hk]

theorem lookup_filter_ne (key other : String) (l : List (String × α)) :
    (l.filter (·.1 != key)).lookup other = if other = key then none else l.lookup other := by
  induction l with
  | nil => simp
  | cons entry rest ih =>
      obtain ⟨k, v⟩ := entry
      by_cases hk : k = key
      · subst hk
        rw [List.filter_cons_of_neg (by simp), ih, lookup_cons_ite]
        split <;> rfl
      · rw [List.filter_cons_of_pos (by simpa using hk), lookup_cons_ite, lookup_cons_ite, ih]
        by_cases h : other = k
        · subst h
          simp [hk]
        · simp [h]

theorem lookup_eq_some_iff {l : List (String × α)} (h : (l.map (·.1)).Nodup) {key : String}
    {value : α} : l.lookup key = some value ↔ (key, value) ∈ l := by
  induction l with
  | nil => simp
  | cons entry rest ih =>
      obtain ⟨k, v⟩ := entry
      simp only [List.map_cons, List.nodup_cons] at h
      rw [lookup_cons_ite]
      by_cases hk : key = k
      · subst hk
        have hn : (key, value) ∉ rest := fun hm => h.1 (List.mem_map.mpr ⟨_, hm, rfl⟩)
        simp [hn, eq_comm]
      · simp [hk, ih h.2]

namespace SortedMap

/-! ## Answers after a change -/

@[simp] theorem get?_empty (key : String) : (∅ : SortedMap α).get? key = none := rfl

@[simp] theorem get?_insert (m : SortedMap α) (key other : String) (value : α) :
    (m.insert key value).get? other = if other = key then some value else m.get? other :=
  lookup_insertEntry key other value m.entries

@[simp] theorem get?_erase (m : SortedMap α) (key other : String) :
    (m.erase key).get? other = if other = key then none else m.get? other :=
  lookup_filter_ne key other m.entries

@[simp] theorem get?_modify (m : SortedMap α) (key other : String) (f : α → α) :
    (m.modify key f).get? other = if other = key then (m.get? key).map f else m.get? other := by
  simp only [modify]
  cases h : m.get? key with
  | none =>
      by_cases ho : other = key
      · subst ho
        simpa using h
      · simp [ho]
  | some value => simp

theorem mem_of_get?_ofList {entries : List (String × α)} {key : String} {value : α}
    (h : (ofList entries).get? key = some value) : (key, value) ∈ entries := by
  induction entries using List.reverseRecOn with
  | nil => cases h
  | append_singleton init entry ih =>
      rw [ofList, List.foldl_append, List.foldl_cons, List.foldl_nil, get?_insert] at h
      split at h
      case isTrue hkey =>
        obtain rfl := Option.some.inj h
        rw [hkey]
        exact List.mem_append_right _ (List.mem_singleton_self entry)
      case isFalse => exact List.mem_append_left _ (ih h)

theorem get?_ofList_congr {β : Type} {f g : β → String × α} {l : List β} {key : String}
    (h : ∀ b ∈ l, (f b).1 = (g b).1 ∧ ((f b).1 = key → (f b).2 = (g b).2)) :
    (ofList (l.map f)).get? key = (ofList (l.map g)).get? key := by
  induction l using List.reverseRecOn with
  | nil => rfl
  | append_singleton init b ih =>
      rw [List.forall_mem_append, List.forall_mem_singleton] at h
      simp only [ofList, List.map_append, List.map_cons, List.map_nil, List.foldl_append, List.foldl_cons,
        List.foldl_nil, get?_insert] at ih ⊢
      rw [ih h.1, ← h.2.1]
      split
      case isTrue hkey => rw [h.2.2 hkey.symm]
      case isFalse => rfl

theorem contains_iff {m : SortedMap α} {key : String} :
    m.contains key = true ↔ ∃ value, m.get? key = some value := by
  simp [contains, Option.isSome_iff_exists]

theorem contains_eq_false_iff {m : SortedMap α} {key : String} :
    m.contains key = false ↔ m.get? key = none := by
  simp [contains]

theorem contains_insert {m : SortedMap α} {key other : String} {value : α} :
    (m.insert key value).contains other = true ↔ other = key ∨ m.contains other = true := by
  rw [contains_iff, contains_iff]
  by_cases h : other = key <;> simp [h]

theorem contains_erase {m : SortedMap α} {key other : String} :
    (m.erase key).contains other = true ↔ other ≠ key ∧ m.contains other = true := by
  rw [contains_iff, contains_iff]
  by_cases h : other = key <;> simp [h]

/-! ## Entries and values -/

theorem keys_pairwise (m : SortedMap α) : m.keys.Pairwise (· < ·) :=
  List.pairwise_map.mpr m.ascending

theorem keys_nodup (m : SortedMap α) : m.keys.Nodup := by
  refine m.keys_pairwise.imp ?_
  intro a b h he
  exact String.lt_irrefl b (he ▸ h)

theorem mem_keys_iff {m : SortedMap α} {key : String} : key ∈ m.keys ↔ m.contains key = true := by
  rw [contains_iff, keys, List.mem_map]
  constructor
  · rintro ⟨⟨_, value⟩, he, rfl⟩
    exact ⟨value, (lookup_eq_some_iff m.keys_nodup).mpr he⟩
  · rintro ⟨value, hv⟩
    exact ⟨(key, value), (lookup_eq_some_iff m.keys_nodup).mp hv, rfl⟩

theorem keys_congr {β : Type} {m : SortedMap α} {n : SortedMap β}
    (h : ∀ key, m.contains key = true ↔ n.contains key = true) : m.keys = n.keys := by
  have hperm : m.keys.Perm n.keys := (List.perm_ext_iff_of_nodup m.keys_nodup n.keys_nodup).mpr
    fun key => by rw [mem_keys_iff, mem_keys_iff, h]
  refine hperm.eq_of_pairwise ?_ m.keys_pairwise n.keys_pairwise
  exact fun a b _ _ hab hba => absurd (String.lt_trans hab hba) (String.lt_irrefl a)

theorem size_eq (m : SortedMap α) : m.size = m.keys.length := (List.length_map _).symm

theorem size_erase {m : SortedMap α} {key : String} (h : m.contains key = true) :
    (m.erase key).size + 1 = m.size := by
  have hnodup : (key :: (m.erase key).keys).Nodup := by
    refine List.nodup_cons.mpr ⟨fun hm => ?_, keys_nodup _⟩
    exact (contains_erase.mp (mem_keys_iff.mp hm)).1 rfl
  have hperm : m.keys.Perm (key :: (m.erase key).keys) := by
    refine (List.perm_ext_iff_of_nodup m.keys_nodup hnodup).mpr fun other => ?_
    rw [List.mem_cons, mem_keys_iff, mem_keys_iff, contains_erase]
    by_cases ho : other = key
    · simp [ho, h]
    · simp [ho]
  rw [size_eq, size_eq, hperm.length_eq, List.length_cons]

theorem size_insert (m : SortedMap α) (key : String) (value : α) :
    (m.insert key value).size = (m.erase key).size + 1 := by
  have hkeys : ((m.insert key value).erase key).keys = (m.erase key).keys := by
    refine keys_congr fun other => ?_
    rw [contains_erase, contains_erase, contains_insert]
    exact and_congr_right fun ho => or_iff_right ho
  rw [← size_erase (contains_insert.mpr (.inl rfl)), size_eq, hkeys, size_eq]

theorem mem_entries_iff {m : SortedMap α} {key : String} {value : α} :
    (key, value) ∈ m.entries ↔ m.get? key = some value :=
  (lookup_eq_some_iff m.keys_nodup).symm

/-- A map is known by its answers. -/
theorem ext_get? {m n : SortedMap α} (h : ∀ key, m.get? key = n.get? key) : m = n := by
  have hnodup : ∀ m : SortedMap α, m.entries.Nodup := fun m => List.Nodup.of_map Prod.fst m.keys_nodup
  have hperm : m.entries.Perm n.entries := by
    refine (List.perm_ext_iff_of_nodup (hnodup m) (hnodup n)).mpr fun (key, value) => ?_
    rw [mem_entries_iff, mem_entries_iff, h]
  have hentries : m.entries = n.entries := by
    refine hperm.eq_of_pairwise ?_ m.ascending n.ascending
    exact fun a b _ _ hab hba => absurd (String.lt_trans hab hba) (String.lt_irrefl a.1)
  cases m
  cases n
  cases hentries
  rfl

theorem mem_values_iff {m : SortedMap α} {value : α} :
    value ∈ m.values ↔ ∃ key, m.get? key = some value := by
  simp only [values, List.mem_map, Prod.exists, exists_eq_right, mem_entries_iff]

theorem values_eq_filterMap (m : SortedMap α) : m.values = m.keys.filterMap m.get? := by
  rw [values, keys, List.filterMap_map]
  refine (List.filterMap_eq_map_iff_forall_eq_some.mpr fun entry hentry => ?_).symm
  exact mem_entries_iff.mp hentry

theorem perm_insertEntry {key : String} {value : α} {l : List (String × α)} (h : l.lookup key = none) :
    (insertEntry key value l).Perm ((key, value) :: l) := by
  induction l with
  | nil => exact .refl _
  | cons entry rest ih =>
      obtain ⟨k, v⟩ := entry
      rw [lookup_cons_ite] at h
      split at h
      · cases h
      · rename_i hne
        simp only [insertEntry, hne, ↓reduceIte]
        split
        · exact .refl _
        · exact ((ih h).cons (k, v)).trans (.swap _ _ _)

@[simp] theorem values_empty : (∅ : SortedMap α).values = [] := rfl

theorem values_insert {m : SortedMap α} {key : String} (h : m.get? key = none) (value : α) :
    (m.insert key value).values.Perm (value :: m.values) :=
  (perm_insertEntry h).map Prod.snd

theorem values_insertAll {key : α → String} {l : List α} (hnodup : (l.map key).Nodup) {m : SortedMap α}
    (hnew : ∀ a ∈ l, m.get? (key a) = none) :
    (l.foldl (fun m a => m.insert (key a) a) m).values.Perm (l ++ m.values) := by
  induction l generalizing m with
  | nil => exact .refl _
  | cons a rest ih =>
      obtain ⟨ha, hrest⟩ := List.nodup_cons.mp hnodup
      obtain ⟨hnone, hnew⟩ := List.forall_mem_cons.mp hnew
      refine (ih hrest fun b hb => ?_).trans (((values_insert hnone a).append_left rest).trans List.perm_middle)
      have hne : key b ≠ key a := fun hk => ha (hk ▸ List.mem_map_of_mem hb)
      rw [get?_insert, if_neg hne, hnew b hb]

theorem get?_ofList {entries : List (String × α)} (hnodup : (entries.map (·.1)).Nodup) {key : String} {value : α}
    (h : (key, value) ∈ entries) : (ofList entries).get? key = some value := by
  induction entries using List.reverseRecOn with
  | nil => cases h
  | append_singleton init entry ih =>
      rw [List.map_append, List.map_singleton, List.nodup_append] at hnodup
      rw [ofList, List.foldl_append, List.foldl_cons, List.foldl_nil, get?_insert]
      rcases List.mem_append.mp h with hinit | hlast
      · have hne : key ≠ entry.1 := hnodup.2.2 _ (List.mem_map_of_mem hinit) _ (List.mem_singleton_self _)
        rw [if_neg hne]
        exact ih hnodup.1 hinit
      · obtain rfl := List.mem_singleton.mp hlast
        rw [if_pos rfl]

/-! ## Groups -/

theorem getD_get?_grouped (entries : List (String × α)) (key : String) :
    ((grouped entries).get? key).getD [] = (entries.filter (·.1 == key)).map (·.2) := by
  induction entries using List.reverseRecOn with
  | nil => rfl
  | append_singleton init e ih =>
      have hlast : grouped (init ++ [e]) = (grouped init).insert e.1 (((grouped init).get? e.1).getD [] ++ [e.2]) :=
        List.foldl_concat _ _ _ _
      rw [hlast, get?_insert, List.filter_append, List.map_append, ← ih]
      by_cases hkey : key = e.1
      · subst hkey
        simp
      · have hother : (e.1 == key) = false := by simpa using Ne.symm hkey
        simp [hkey, hother]

theorem mem_grouped {entries : List (String × α)} {key : String} {values : List α}
    (h : (key, values) ∈ (grouped entries).entries) {value : α} : value ∈ values ↔ (key, value) ∈ entries := by
  have hget := getD_get?_grouped entries key
  rw [mem_entries_iff.mp h, Option.getD_some] at hget
  rw [hget, List.mem_map]
  constructor
  · rintro ⟨e, he, rfl⟩
    obtain ⟨he, hkey⟩ := List.mem_filter.mp he
    rwa [← beq_iff_eq.mp hkey]
  · exact fun he => ⟨_, List.mem_filter.mpr ⟨he, beq_self_eq_true key⟩, rfl⟩

theorem exists_mem_grouped {entries : List (String × α)} {key : String} {value : α} (h : (key, value) ∈ entries) :
    ∃ values, (key, values) ∈ (grouped entries).entries ∧ value ∈ values := by
  have hget := getD_get?_grouped entries key
  have hmem : value ∈ ((grouped entries).get? key).getD [] := by
    rw [hget]
    exact List.mem_map.mpr ⟨_, List.mem_filter.mpr ⟨h, beq_self_eq_true key⟩, rfl⟩
  cases hvalues : (grouped entries).get? key with
  | none =>
      rw [hvalues] at hmem
      exact absurd hmem List.not_mem_nil
  | some values =>
      rw [hvalues] at hmem
      exact ⟨values, mem_entries_iff.mpr hvalues, hmem⟩

theorem contains_grouped {entries : List (String × α)} {key : String} :
    (grouped entries).contains key = true ↔ key ∈ entries.map (·.1) := by
  induction entries using List.reverseRecOn with
  | nil => exact iff_of_false Bool.false_ne_true List.not_mem_nil
  | append_singleton init e ih =>
      have hlast : grouped (init ++ [e]) = (grouped init).insert e.1 (((grouped init).get? e.1).getD [] ++ [e.2]) :=
        List.foldl_concat _ _ _ _
      rw [hlast, contains_insert, ih, List.map_append, List.map_singleton, List.mem_append, List.mem_singleton, or_comm]

/-! ## Tallies -/

theorem get?_tally (keys : List String) (key : String) :
    (tally keys).get? key = Option.guard (· != 0) (keys.count key) := by
  induction keys using List.reverseRecOn with
  | nil => rfl
  | append_singleton init last ih =>
      have hlast : tally (init ++ [last]) = (tally init).insert last (((tally init).get? last).getD 0 + 1) :=
        List.foldl_concat _ _ _ _
      rw [hlast, get?_insert, List.count_append, List.count_singleton]
      by_cases hkey : key = last
      · subst hkey
        by_cases hzero : init.count key = 0 <;> simp [ih, hzero, Option.guard]
      · have hother : (last == key) = false := by simpa using Ne.symm hkey
        simp [hkey, hother, ih]

end SortedMap

end Parametric
