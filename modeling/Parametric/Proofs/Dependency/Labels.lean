import Parametric.Proofs.Dependency.Triples

/-!
# Names of nodes

A node has the spelling in which its name came first. In the graph that is built anew from a table these are
the first mentions of the table, from the formula of the first key on.
-/

namespace Parametric

/-- The first of some names that has a key, without the white space around it. -/
def firstSpelling? (key : String) (names : List String) : Option String :=
  (names.find? (keyOf · == key)).map Text.trim

theorem firstSpelling?_append (key : String) (names more : List String) :
    firstSpelling? key (names ++ more) = (firstSpelling? key names).or (firstSpelling? key more) := by
  simp only [firstSpelling?, List.find?_append, Option.map_or]

theorem firstSpelling?_cons (key name : String) (rest : List String) :
    firstSpelling? key (name :: rest) = (firstSpelling? key [name]).or (firstSpelling? key rest) :=
  firstSpelling?_append key [name] rest

theorem firstSpelling?_singleton (key name : String) :
    firstSpelling? key [name] = if key = keyOf name then some (Text.trim name) else none := by
  by_cases hk : key = keyOf name
  · simp [firstSpelling?, hk]
  · simp [firstSpelling?, hk, Ne.symm hk]

theorem isSome_firstSpelling? {key : String} {names : List String} :
    (firstSpelling? key names).isSome = true ↔ ∃ name ∈ names, keyOf name = key := by
  simp [firstSpelling?, List.find?_isSome]

namespace Formulas

/-- All names that the formulas of a table mention, each formula beginning with its result. -/
def mentions (t : Formulas) : List String := t.references.flatMap fun f => f.1 :: f.2

/-- The first name of a key that the formulas of a table mention. -/
def firstMention? (t : Formulas) (key : String) : Option String := firstSpelling? key t.mentions

theorem Keyed.mentioned {t : Formulas} {key : String} (h : t.Keyed) (hm : (t.firstMention? key).isSome = true) :
    t.contains key = true ∨ ∃ source position, t.Links source key position := by
  obtain ⟨name, hname, rfl⟩ := isSome_firstSpelling?.mp hm
  obtain ⟨entry, hentry, hname⟩ := List.mem_flatMap.mp hname
  obtain ⟨f, hf, rfl⟩ := (mem_references_iff h).mp hentry
  rcases List.mem_cons.mp hname with rfl | hreference
  · exact .inl (SortedMap.contains_iff.mpr ⟨f, hf⟩)
  · obtain ⟨position, hposition⟩ := List.getElem?_of_mem (List.mem_map_of_mem (f := keyOf) hreference)
    exact .inr ⟨keyOf f.result, position, f, hf, hposition⟩

end Formulas

namespace Graph

variable {g g' : Graph} {id source position : Nat} {key name result : String} {references : List String}
  {formulas : List (String × List String)} {t : Formulas}

def label? (g : Graph) (key : String) : Option String := (g.index.get? key).bind g.nameOf?

/-! ## Labels after changes -/

theorem label?_congr (hnodes : g'.nodes = g.nodes) (hindex : g'.index = g.index) :
    g'.label? key = g.label? key := by
  have hname : g'.nameOf? = g.nameOf? := by
    funext id
    simp only [nameOf?, hnodes]
  rw [label?, label?, hindex, hname]

theorem Coherent.isSome_label? (h : g.Coherent) : (g.label? key).isSome = (g.index.get? key).isSome := by
  cases hi : g.index.get? key with
  | none => simp [label?, hi]
  | some id =>
      obtain ⟨name, hname, -⟩ := Option.map_eq_some_iff.mp (h.index_sound hi)
      simp [label?, hi, hname]

theorem label?_withNode (h : g.Coherent) :
    (g.withNode name).2.label? key = (g.label? key).or (firstSpelling? key [name]) := by
  rw [firstSpelling?_singleton]
  cases hn : g.node? name with
  | some id =>
      rw [withNode_of_some hn]
      by_cases hk : key = keyOf name
      · have hsome : (g.label? key).isSome = true := by
          rw [h.isSome_label?, hk]
          exact Option.isSome_iff_exists.mpr ⟨id, hn⟩
        rw [Option.or_of_isSome hsome]
      · rw [if_neg hk, Option.or_none]
  | none =>
      rw [withNode_of_none hn]
      simp only [label?, SortedMap.get?_insert]
      by_cases hk : key = keyOf name
      · have hnone : g.index.get? key = none := hk ▸ hn
        rw [if_pos hk, if_pos hk, hnone, Option.bind_none, Option.none_or]
        simp [nameOf?]
      · rw [if_neg hk, if_neg hk, Option.or_none]
        cases hi : g.index.get? key with
        | none => rfl
        | some id =>
            have hne : g.nextId ≠ id := Nat.ne_of_gt (h.lt_nextId (h.index_sound hi))
            simp [nameOf?, hne]

theorem label?_addEdges (h : g.Coherent) (hs : g.keyAt? source = some name) (first : Nat)
    (names : List String) :
    (g.addEdges source first names).label? key = (g.label? key).or (firstSpelling? key names) := by
  induction names generalizing g first with
  | nil => simp [addEdges, firstSpelling?]
  | cons reference rest ih =>
      have hnode := grown_withNode h reference
      have hedge := grown_addEdge hnode.coherent ⟨source, (g.withNode reference).1, first⟩
        (hnode.keyAt? hs) (keyAt?_withNode h reference)
      have hsame : label? { (g.withNode reference).2 with
          edges := ⟨source, (g.withNode reference).1, first⟩ :: (g.withNode reference).2.edges } key =
            (g.withNode reference).2.label? key := label?_congr rfl rfl
      rw [addEdges_cons, ih hedge.coherent (hedge.keyAt? (hnode.keyAt? hs)), hsame, label?_withNode h,
        Option.or_assoc, ← firstSpelling?_cons]

theorem label?_setReferences (h : g.Coherent) : (g.setReferences result references).label? key =
    (g.label? key).or (firstSpelling? key (result :: references)) := by
  have hclear := grown_clearFrom (grown_withNode h result).coherent (g.withNode result).1
  have hadd : (g.linked result references).label? key =
      (((g.withNode result).2.clearFrom (g.withNode result).1).label? key).or (firstSpelling? key references) :=
    label?_addEdges hclear.coherent (hclear.keyAt? (keyAt?_withNode h result)) 0 references
  have hsame : ((g.withNode result).2.clearFrom (g.withNode result).1).label? key =
      (g.withNode result).2.label? key := label?_congr rfl rfl
  refine (label?_congr (g := g.linked result references) rfl rfl).trans ?_
  rw [hadd, hsame, label?_withNode h, Option.or_assoc, ← firstSpelling?_cons]

theorem label?_setAll (h : g.Coherent) : (g.setAll formulas).label? key =
    (g.label? key).or (firstSpelling? key (formulas.flatMap fun f => f.1 :: f.2)) := by
  induction formulas using List.reverseRecOn with
  | nil => simp [setAll, firstSpelling?]
  | append_singleton init f ih =>
      rw [setAll_concat, label?_setReferences h.setAll, ih, Option.or_assoc, ← firstSpelling?_append,
        List.flatMap_append, List.flatMap_singleton]

/-- In the graph that is built from a table, names are spelled as the table mentions them first. -/
theorem label?_graph : t.graph.label? key = t.firstMention? key :=
  (label?_setAll .empty).trans (Option.none_or ..)

/-! ## Labels and nodes -/

theorem Coherent.nameOf?_of_mem (h : g.Coherent) {node : Node} (hm : node ∈ g.nodes) :
    g.nameOf? node.id = some node.name := by
  cases hf : g.nodes.find? (·.id == node.id) with
  | none => simpa using List.find?_eq_none.mp hf node hm
  | some found =>
      have hid : found.id = node.id := by simpa using List.find?_some hf
      have heq := List.inj_on_of_nodup_map h.ids_nodup (List.mem_of_find?_eq_some hf) hm hid
      rw [nameOf?, hf, Option.map_some, heq]

namespace WellFormed

variable (h : g.WellFormed)
include h

theorem nameOf?_eq (hid : g.keyAt? id = some key) : g.nameOf? id = g.label? key := by
  rw [label?, Coherent.eq_of_keyAt? (h.not_split key) hid, Option.bind_some]

theorem isSome_label?_of_keyAt? (hid : g.keyAt? id = some key) : (g.label? key).isSome = true := by
  rw [← h.nameOf?_eq hid]
  obtain ⟨name, hname, -⟩ := Option.map_eq_some_iff.mp hid
  exact Option.isSome_iff_exists.mpr ⟨name, hname⟩

theorem label?_eq_some_iff : g.label? key = some name ↔ name ∈ g.nodes.map (·.name) ∧ keyOf name = key := by
  constructor
  · intro hlabel
    obtain ⟨id, hid, hname⟩ := Option.bind_eq_some_iff.mp hlabel
    have hkey := h.index_sound hid
    rw [keyAt?, hname, Option.map_some, Option.some_inj] at hkey
    obtain ⟨node, hf, hn⟩ := Option.map_eq_some_iff.mp hname
    exact ⟨List.mem_map.mpr ⟨node, List.mem_of_find?_eq_some hf, hn⟩, hkey⟩
  · rintro ⟨hm, rfl⟩
    obtain ⟨node, hnode, rfl⟩ := List.mem_map.mp hm
    have hname := h.nameOf?_of_mem hnode
    have hkey : g.keyAt? node.id = some (keyOf node.name) := by rw [keyAt?, hname, Option.map_some]
    rw [← h.nameOf?_eq hkey, hname]

theorem nodup_keys : (g.nodes.map fun node => keyOf node.name).Nodup := by
  have hkeyAt : ∀ {node}, node ∈ g.nodes → g.keyAt? node.id = some (keyOf node.name) := fun hm => by
    rw [keyAt?, h.nameOf?_of_mem hm, Option.map_some]
  have hnodes : g.nodes.Nodup := List.Nodup.of_map _ h.ids_nodup
  refine hnodes.map_on fun a ha b hb (hkey : keyOf a.name = keyOf b.name) => ?_
  have hb' := hkeyAt hb
  rw [← hkey] at hb'
  have hid : a.id = b.id := Coherent.keyAt?_inj (h.not_split _) (hkeyAt ha) hb'
  exact List.inj_on_of_nodup_map h.ids_nodup ha hb hid

theorem nodup_names : (g.nodes.map (·.name)).Nodup := by
  refine List.Nodup.of_map keyOf ?_
  rw [List.map_map]
  exact h.nodup_keys

theorem mem_keys_iff : (key ∈ g.nodes.map fun node => keyOf node.name) ↔ (g.label? key).isSome = true := by
  simp [Option.isSome_iff_exists, h.label?_eq_some_iff]

theorem isSome_label?_of_results (hr : g.results.contains key = true) : (g.label? key).isSome = true := by
  obtain ⟨id, hid⟩ := h.result_known hr
  rw [h.isSome_label?, hid, Option.isSome_some]

end WellFormed

/-! ## Spelling -/

/-- Every node of a graph is mentioned by a table, and spelled as it is mentioned first. -/
def SpelledAs (g : Graph) (t : Formulas) : Prop :=
  ∀ node ∈ g.nodes, t.firstMention? (keyOf node.name) = some node.name

instance : Decidable (g.SpelledAs t) := inferInstanceAs (Decidable (∀ node ∈ g.nodes, _))

/-- Every name that a table mentions has a node in each graph of the table. -/
theorem Represents.isSome_label? (h : g.Represents t) (hkeyed : t.Keyed)
    (hm : (t.firstMention? key).isSome = true) : (g.label? key).isSome = true := by
  rcases hkeyed.mentioned hm with hresult | ⟨source, position, hlink⟩
  · exact h.isSome_label?_of_results (h.results.mpr hresult)
  · obtain ⟨edge, -, -, htarget, -⟩ := h.links.mpr hlink
    exact h.isSome_label?_of_keyAt? htarget

theorem Represents.spelledAs_iff (h : g.Represents t) (hkeyed : t.Keyed) :
    g.SpelledAs t ↔ ∀ key, t.graph.label? key = g.label? key := by
  constructor
  · intro hspelled key
    rw [label?_graph]
    cases hlabel : g.label? key with
    | some name =>
        obtain ⟨hm, rfl⟩ := h.label?_eq_some_iff.mp hlabel
        obtain ⟨node, hnode, rfl⟩ := List.mem_map.mp hm
        exact hspelled node hnode
    | none =>
        refine Option.not_isSome_iff_eq_none.mp fun hsome => ?_
        simpa [hlabel] using h.isSome_label? hkeyed hsome
  · intro heq node hm
    rw [← label?_graph, heq]
    exact h.label?_eq_some_iff.mpr ⟨List.mem_map_of_mem hm, rfl⟩

end Graph

end Parametric
