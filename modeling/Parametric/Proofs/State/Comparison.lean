import Parametric.Element.Local
import Parametric.Proofs.Sorting
import Parametric.Proofs.State.Replay

/-!
# Comparisons of registries

A difference sorts the keys of two registries by what becomes of them. The list of differing fields, the
agreement of definitions and the changes of rollbacks are three comparisons of their own, and they agree.
-/

namespace Parametric

/-! ## Definitions -/

namespace Definition

variable {old new : Definition} {m : Modification}

theorem differingFields_isEmpty : (old.differingFields new).isEmpty = old.agreesWith new := by
  rw [Bool.eq_iff_iff, List.isEmpty_iff, differingFields, List.map_eq_nil_iff, List.filter_eq_nil_iff, agreesWith]
  simp [and_assoc]

theorem modification?_eq_some (h : old.modification? new = some m) :
    m.name = new.name ∧ old.agreesWith new = false := by
  rw [modification?, differingFields_isEmpty] at h
  cases hagrees : old.agreesWith new with
  | true => simp [hagrees] at h
  | false =>
    simp only [hagrees, Bool.false_eq_true, if_false, Option.some.injEq] at h
    exact ⟨h ▸ rfl, rfl⟩

theorem modification?_isSome : (old.modification? new).isSome = !old.agreesWith new := by
  simp only [modification?, differingFields_isEmpty]
  cases old.agreesWith new <;> rfl

theorem agreesWith_comm : old.agreesWith new = new.agreesWith old := by
  rw [Bool.eq_iff_iff, agreesWith_iff, agreesWith_iff, eq_comm]

end Definition

/-! ## Differences -/

/-- A difference sorts the keys of two registries: those that only the second one has, those that only the
first one has, and those under which the two have different shapes. -/
structure Difference.Sorts (d : Difference) (a b : Registry) : Prop where
  added : ∀ key, key ∈ d.added.map keyOf ↔ b.table.contains key = true ∧ a.table.contains key = false
  removed : ∀ key, key ∈ d.removed.map keyOf ↔ a.table.contains key = true ∧ b.table.contains key = false
  modified : ∀ key, key ∈ d.modified.map (keyOf ·.name) ↔
    ∃ old new, a.table.get? key = some old ∧ b.table.get? key = some new ∧ old.agreesWith new = false
  /-- Every key is listed once at most. -/
  distinct : (d.added.map keyOf ++ d.removed.map keyOf ++ d.modified.map (keyOf ·.name)).Nodup
  isEmpty_iff : d.isEmpty = true ↔ a.table.keys = b.table.keys ∧
    ∀ key old new, a.table.get? key = some old → b.table.get? key = some new → old.agreesWith new = true

namespace Registry

variable {a b r target : Registry} {key name : String}

theorem Keyed.map_keyOf_namesMissingIn (h : r.Keyed) (other : Registry) :
    (r.namesMissingIn other).map keyOf = r.table.keys.filter fun key => !other.table.contains key := by
  rw [← h.keys_definitions, namesMissingIn, List.filter_map, List.map_map]
  rfl

theorem Keyed.map_keyOf_modified (hb : b.Keyed) (a : Registry) (source target : SnapshotNumber) :
    (a.difference source target b).modified.map (keyOf ·.name) =
      (a.definitions.filter fun old => (b.get? old.name).any fun new => !old.agreesWith new).map Definition.key := by
  rw [difference, List.map_filterMap, ← List.filterMap_eq_map, List.filterMap_filter]
  refine List.filterMap_congr fun old _ => ?_
  cases hnew : b.get? old.name with
  | none => rfl
  | some new =>
    have hkey : keyOf new.name = old.key := hb.key_eq hnew
    simp only [Option.bind_some, Option.any_some]
    cases hm : old.modification? new with
    | none =>
      have hagrees : (old.modification? new).isSome = !old.agreesWith new := Definition.modification?_isSome
      rw [hm] at hagrees
      simp [← hagrees]
    | some m =>
      obtain ⟨hname, hagrees⟩ := Definition.modification?_eq_some hm
      simp [hagrees, hname, hkey]

theorem Keyed.mem_namesMissingIn_iff (h : r.Keyed) (other : Registry) :
    key ∈ (r.namesMissingIn other).map keyOf ↔ r.table.contains key = true ∧ other.table.contains key = false := by
  rw [h.map_keyOf_namesMissingIn, List.mem_filter, SortedMap.mem_keys_iff, Bool.not_eq_true']

section Differences

variable (ha : a.Keyed) (hb : b.Keyed) (source target : SnapshotNumber)

include ha hb

theorem mem_modified_iff : key ∈ (a.difference source target b).modified.map (keyOf ·.name) ↔
    ∃ old new, a.table.get? key = some old ∧ b.table.get? key = some new ∧ old.agreesWith new = false := by
  rw [hb.map_keyOf_modified]
  simp only [List.mem_map, List.mem_filter, mem_definitions_iff ha, Option.any_eq_true, Bool.not_eq_true']
  constructor
  · rintro ⟨old, ⟨hold, new, hnew, hagrees⟩, rfl⟩
    exact ⟨old, new, hold, hnew, hagrees⟩
  · rintro ⟨old, new, hold, hnew, hagrees⟩
    obtain rfl : old.key = key := ha hold
    exact ⟨old, ⟨hold, new, hnew, hagrees⟩, rfl⟩

theorem nodup_difference : ((a.difference source target b).added.map keyOf ++
    (a.difference source target b).removed.map keyOf ++
    (a.difference source target b).modified.map (keyOf ·.name)).Nodup := by
  refine List.Nodup.append (List.Nodup.append ?added ?removed ?apart) ?modified ?common
  case added => exact hb.map_keyOf_namesMissingIn a ▸ b.table.keys_nodup.filter _
  case removed => exact ha.map_keyOf_namesMissingIn b ▸ a.table.keys_nodup.filter _
  case apart =>
    intro key hadded hremoved
    have hin := ((hb.mem_namesMissingIn_iff a).mp hadded).1
    have hout := ((ha.mem_namesMissingIn_iff b).mp hremoved).2
    exact Bool.false_ne_true (hout.symm.trans hin)
  case modified =>
    rw [hb.map_keyOf_modified]
    exact (ha.keys_definitions ▸ a.table.keys_nodup).sublist (List.filter_sublist.map _)
  case common =>
    intro key hone hmodified
    obtain ⟨old, new, hold, hnew, -⟩ := (mem_modified_iff ha hb source target).mp hmodified
    rcases List.mem_append.mp hone with hadded | hremoved
    · have hout := ((hb.mem_namesMissingIn_iff a).mp hadded).2
      exact Bool.false_ne_true (hout.symm.trans (SortedMap.contains_iff.mpr ⟨old, hold⟩))
    · have hout := ((ha.mem_namesMissingIn_iff b).mp hremoved).2
      exact Bool.false_ne_true (hout.symm.trans (SortedMap.contains_iff.mpr ⟨new, hnew⟩))

theorem isEmpty_difference_iff : (a.difference source target b).isEmpty = true ↔
    a.table.keys = b.table.keys ∧ ∀ key old new, a.table.get? key = some old → b.table.get? key = some new →
      old.agreesWith new = true := by
  have hnone : ∀ {α : Type} (f : α → String) (l : List α), l.isEmpty = true ↔ ∀ key, key ∉ l.map f := by
    intro α f l
    rw [List.isEmpty_iff, ← List.map_eq_nil_iff, List.eq_nil_iff_forall_not_mem]
  have hadded : (a.difference source target b).added.isEmpty = true ↔
      ∀ key, b.table.contains key = true → a.table.contains key = true := by
    rw [hnone keyOf]
    refine forall_congr' fun key => ?_
    rw [difference, hb.mem_namesMissingIn_iff, not_and, Bool.not_eq_false]
  have hremoved : (a.difference source target b).removed.isEmpty = true ↔
      ∀ key, a.table.contains key = true → b.table.contains key = true := by
    rw [hnone keyOf]
    refine forall_congr' fun key => ?_
    rw [difference, ha.mem_namesMissingIn_iff, not_and, Bool.not_eq_false]
  have hmodified : (a.difference source target b).modified.isEmpty = true ↔
      ∀ key old new, a.table.get? key = some old → b.table.get? key = some new → old.agreesWith new = true := by
    rw [hnone (keyOf ·.name)]
    refine forall_congr' fun key => ?_
    simp only [mem_modified_iff ha hb, not_exists, not_and, Bool.not_eq_false]
  have hkeys : a.table.keys = b.table.keys ↔
      (∀ key, b.table.contains key = true → a.table.contains key = true) ∧
        ∀ key, a.table.contains key = true → b.table.contains key = true := by
    refine ⟨fun h => ?_, fun ⟨hba, hab⟩ => SortedMap.keys_congr fun key => ⟨hab key, hba key⟩⟩
    simp only [← SortedMap.mem_keys_iff, h, imp_self, implies_true, and_self]
  rw [Difference.isEmpty, Bool.and_eq_true, Bool.and_eq_true, hadded, hremoved, hmodified, hkeys]

/-- A comparison of registries is sound and complete. -/
theorem sorts_difference : (a.difference source target b).Sorts a b where
  added _ := hb.mem_namesMissingIn_iff a
  removed _ := ha.mem_namesMissingIn_iff b
  modified _ := mem_modified_iff ha hb source target
  distinct := nodup_difference ha hb source target
  isEmpty_iff := isEmpty_difference_iff ha hb source target

end Differences

/-! ## Rollbacks -/

theorem exists_changeInto?_iff {d : Definition} : (∃ c, d.changeInto? target = some c ∧ c.definition.name = name) ↔
    (target.contains d.name = false ∧ d.name = name) ∨
      ∃ m, (target.get? d.name).bind d.modification? = some m ∧ m.name = name := by
  cases hget : target.get? d.name with
  | none =>
    have hgone : target.contains d.name = false := SortedMap.contains_eq_false_iff.mpr hget
    simp [Definition.changeInto?, hget, hgone]
  | some restored =>
    have hthere : target.contains d.name = true := SortedMap.contains_iff.mpr ⟨restored, hget⟩
    have hcomm : restored.agreesWith d = d.agreesWith restored := Definition.agreesWith_comm
    simp only [Definition.changeInto?, hget, hthere, hcomm, Option.bind_some, Definition.modification?,
      Definition.differingFields_isEmpty]
    cases d.agreesWith restored <;> simp

/-- The names in the changes from a registry to another one are those of their difference. -/
theorem mem_names_changesInto (r target : Registry) (source goal : SnapshotNumber) :
    name ∈ (r.changesInto target).map (·.definition.name) ↔
      name ∈ (r.difference source goal target).added ∨ name ∈ (r.difference source goal target).removed ∨
        name ∈ (r.difference source goal target).modified.map (·.name) := by
  have hcreated : ((target.definitions.filter fun d => !r.contains d.name).map
      (⟨.created, ·⟩ : Definition → Change)).map (·.definition.name) = (r.difference source goal target).added :=
    List.map_map
  have hchanged : name ∈ (r.definitions.filterMap (·.changeInto? target)).map (·.definition.name) ↔
      name ∈ (r.difference source goal target).removed ∨
        name ∈ (r.difference source goal target).modified.map (·.name) := by
    calc name ∈ (r.definitions.filterMap (·.changeInto? target)).map (·.definition.name)
        ↔ ∃ d ∈ r.definitions, ∃ c, d.changeInto? target = some c ∧ c.definition.name = name := by
          simp only [List.mem_map, List.mem_filterMap]
          tauto
      _ ↔ ∃ d ∈ r.definitions, (target.contains d.name = false ∧ d.name = name) ∨
            ∃ m, (target.get? d.name).bind d.modification? = some m ∧ m.name = name := by
          simp only [exists_changeInto?_iff]
      _ ↔ _ := by
          simp only [difference, namesMissingIn, List.mem_map, List.mem_filterMap, List.mem_filter, Bool.not_eq_true']
          constructor
          · rintro ⟨d, hd, ⟨hgone, hname⟩ | ⟨m, hm, hname⟩⟩
            · exact .inl ⟨d, ⟨hd, hgone⟩, hname⟩
            · exact .inr ⟨m, ⟨d, hd, hm⟩, hname⟩
          · rintro (⟨d, ⟨hd, hgone⟩, hname⟩ | ⟨m, ⟨d, hd, hm⟩, hname⟩)
            · exact ⟨d, hd, .inl ⟨hgone, hname⟩⟩
            · exact ⟨d, hd, .inr ⟨m, hm, hname⟩⟩
  rw [changesInto, List.map_append, List.mem_append, hcreated, hchanged]
  tauto

end Registry

theorem State.commits_rollback {s : State} {id : SnapshotNumber} {target : Snapshot} (settings : Settings) (now : Instant)
    (hfound : s.history.snapshot? id = some target) :
    ∃ commit, (s.rollback settings now id).2.history.commits = s.history.commits ++ [commit] ∧
      commit.changes = sortedTexts ((s.registry.changesInto target.registry).map (·.definition.name)) := by
  simp only [rollback, hfound]
  exact ⟨_, rfl, rfl⟩

namespace Engine

variable {ε : Type} [ElementAccess ε]

/-- Comparing two registries lists a key as added if only the second one has it, as removed if only the first
one has it, and as modified if the two have definitions of different shapes under it. The other way round,
added and removed names change places. After every run, a rollback to a snapshot records the names of the
comparison of the registry with the one of the snapshot. -/
theorem difference_rollback_run (source target : SnapshotNumber) :
    (∀ a b : Registry, a.Keyed → b.Keyed → (a.difference source target b).Sorts a b ∧
      (a.difference source target b).added = (b.difference target source a).removed) ∧
    ∀ (settings : Settings) (start : Instant) (supply : TokenSupply) (steps : List (Instant × Operation ε))
      (now : Instant) (id : SnapshotNumber) (snapshot : Snapshot),
      let e := (fresh settings start supply).run steps
      let d := e.state.registry.difference source target snapshot.registry
      e.state.history.snapshot? id = some snapshot →
        d.Sorts e.state.registry snapshot.registry ∧
        ∃ commit, (e.rollback now id).2.state.history.commits = e.state.history.commits ++ [commit] ∧
          ∀ name, name ∈ commit.changes ↔
            name ∈ d.added ∨ name ∈ d.removed ∨ name ∈ d.modified.map (·.name) := by
  refine ⟨fun a b ha hb => ⟨Registry.sorts_difference ha hb source target, rfl⟩, ?_⟩
  intro settings start supply steps now id snapshot e d hfound
  have hkeyed : e.state.Keyed := keyed_invariant.of_any_run start settings supply steps
  have hsnapshot : snapshot.registry.Keyed := hkeyed.snapshots snapshot (History.mem_of_snapshot? hfound)
  refine ⟨Registry.sorts_difference hkeyed.registry hsnapshot source target, ?_⟩
  obtain ⟨commit, hcommits, hchanges⟩ := State.commits_rollback e.settings now hfound
  refine ⟨commit, ?_, fun name => ?_⟩
  · rw [(moved_rollback e now id).state, hcommits]
  · rw [hchanges, mem_sortedTexts, Registry.mem_names_changesInto]

/-- After the snapshot, `z` is created, `x` gets a formula and `y` is deleted. -/
theorem difference_rollback_revisedRun :
    let steps : List (Instant × Operation LocalElement) :=
      [(⟨0, 0⟩, .create { entries := [{ name := "x", kind := "real" }, { name := "y", kind := "real" }] } false),
        (⟨1, 0⟩, .addSnapshot none), (⟨2, 0⟩, .create { entries := [{ name := "z", kind := "real" }] } false),
        (⟨3, 0⟩, .compile {} "x" "2 * z"), (⟨4, 0⟩, .delete "y" true)]
    let e := (fresh {} ⟨0, 0⟩ (.ofSeed 0)).run steps
    ∃ snapshot, e.state.history.snapshot? ⟨1⟩ = some snapshot ∧
      let d := e.state.registry.difference ⟨0⟩ ⟨1⟩ snapshot.registry
      d.added = ["Y"] ∧ d.removed = ["Z"] ∧ d.modified.map (·.name) = ["X"] ∧
      d.Sorts e.state.registry snapshot.registry ∧
      (snapshot.registry.difference ⟨1⟩ ⟨0⟩ e.state.registry).removed = ["Y"] ∧
      ∃ commit, (e.rollback ⟨5, 0⟩ ⟨1⟩).2.state.history.commits = e.state.history.commits ++ [commit] ∧
        ∀ name, name ∈ commit.changes ↔ name = "Y" ∨ name = "Z" ∨ name = "X" := by
  intro steps e
  have hvalues : (e.state.history.snapshot? ⟨1⟩).any (fun snapshot =>
      let d := e.state.registry.difference ⟨0⟩ ⟨1⟩ snapshot.registry
      d.added = ["Y"] ∧ d.removed = ["Z"] ∧ d.modified.map (·.name) = ["X"]) = true := by decide +kernel
  obtain ⟨snapshot, hfound, hd⟩ := (Option.any_eq_true _ _).mp hvalues
  obtain ⟨hadded, hremoved, hmodified⟩ := of_decide_eq_true hd
  have hkeyed : e.state.Keyed := keyed_invariant.of_any_run ⟨0, 0⟩ {} (.ofSeed 0) steps
  have hsnapshot : snapshot.registry.Keyed := hkeyed.snapshots snapshot (History.mem_of_snapshot? hfound)
  obtain ⟨hall, hrun⟩ := difference_rollback_run (ε := LocalElement) ⟨0⟩ ⟨1⟩
  obtain ⟨hsorts, hswapped⟩ := hall e.state.registry snapshot.registry hkeyed.registry hsnapshot
  obtain ⟨-, commit, hcommits, hnames⟩ := hrun {} ⟨0, 0⟩ (.ofSeed 0) steps ⟨5, 0⟩ ⟨1⟩ snapshot hfound
  refine ⟨snapshot, hfound, hadded, hremoved, hmodified, hsorts, hswapped.symm.trans hadded, commit, hcommits,
    fun name => ?_⟩
  rw [hnames, hadded, hremoved, hmodified, List.mem_singleton, List.mem_singleton, List.mem_singleton]

end Engine

end Parametric
