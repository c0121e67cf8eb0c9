import Parametric.Proofs.Dependency.Basic

/-!
# Changes of dependency graphs

Every change keeps the graph coherent. What it does to the edges is said for names with one node.
-/

namespace Parametric.Graph

variable {g g' : Graph} {id source position : Nat} {key target name result : String}

theorem links_congr (hnodes : g'.nodes = g.nodes) (hedges : g'.edges = g.edges) :
    g'.Links key target position ↔ g.Links key target position := by
  simp only [Links, hedges, keyAt?_congr hnodes]

theorem Grown.of_nodes (h : g.Coherent) (hnodes : g'.nodes = g.nodes) (hindex : g'.index = g.index)
    (hnext : g'.nextId = g.nextId) (hresults : g'.results = g.results)
    (hsource : ∀ edge ∈ g'.edges, ∃ key, g.keyAt? edge.source = some key)
    (htarget : ∀ edge ∈ g'.edges, ∃ key, g.keyAt? edge.target = some key) : g.Grown g' where
  coherent :=
    { ids_nodup := hnodes ▸ h.ids_nodup
      ids_lt := by
        rw [hnodes, hnext]
        exact h.ids_lt
      index_sound := fun hi => by
        rw [hindex] at hi
        rw [Graph.keyAt?_congr hnodes]
        exact h.index_sound hi
      result_known := fun hr => by
        rw [hresults] at hr
        rw [hindex]
        exact h.result_known hr
      source_known := fun edge hm => by
        simp only [Graph.keyAt?_congr hnodes]
        exact hsource edge hm
      target_known := fun edge hm => by
        simp only [Graph.keyAt?_congr hnodes]
        exact htarget edge hm }
  keyAt? := fun hk => by rwa [Graph.keyAt?_congr hnodes]
  index := fun hi => by rwa [hindex]
  isSplit := by simp only [IsSplit, Graph.keyAt?_congr hnodes, hindex, implies_true]
  results := hresults

/-! ## References of a formula -/

theorem grown_clearFrom (h : g.Coherent) (id : Nat) : g.Grown (g.clearFrom id) :=
  .of_nodes h rfl rfl rfl rfl (fun edge hm => h.source_known edge (List.mem_of_mem_filter hm))
    fun edge hm => h.target_known edge (List.mem_of_mem_filter hm)

theorem links_clearFrom_of_ne (hid : g.keyAt? id = some name) (hk : key ≠ name) :
    (g.clearFrom id).Links key target position ↔ g.Links key target position := by
  constructor
  · rintro ⟨edge, hm, hrest⟩
    exact ⟨edge, List.mem_of_mem_filter hm, hrest⟩
  · rintro ⟨edge, hm, hsource, hrest⟩
    have hne : edge.source ≠ id := by
      rintro rfl
      exact hk (Option.some.inj (hsource.symm.trans hid))
    exact ⟨edge, List.mem_filter.mpr ⟨hm, by simpa using hne⟩, hsource, hrest⟩

theorem not_links_clearFrom (hs : ¬g.IsSplit key) (hid : g.keyAt? id = some key) :
    ¬(g.clearFrom id).Links key target position := by
  rintro ⟨edge, hm, hsource, -, -⟩
  have hne := (List.mem_filter.mp hm).2
  have heq : edge.source = id := Coherent.keyAt?_inj hs hsource hid
  simp [heq] at hne

theorem links_addEdge (edge : Edge) :
    Links { g with edges := edge :: g.edges } key target position ↔
      (g.keyAt? edge.source = some key ∧ g.keyAt? edge.target = some target ∧
        edge.position = position) ∨ g.Links key target position := by
  simp only [Links, List.exists_mem_cons_iff]
  rfl

theorem grown_addEdge (h : g.Coherent) (edge : Edge) {k t : String}
    (hsource : g.keyAt? edge.source = some k) (htarget : g.keyAt? edge.target = some t) :
    g.Grown { g with edges := edge :: g.edges } :=
  .of_nodes h rfl rfl rfl rfl
    (List.forall_mem_cons.mpr ⟨⟨k, hsource⟩, h.source_known⟩)
    (List.forall_mem_cons.mpr ⟨⟨t, htarget⟩, h.target_known⟩)

theorem addEdges_cons (g : Graph) (source position : Nat) (name : String) (rest : List String) :
    g.addEdges source position (name :: rest) =
      addEdges { (g.withNode name).2 with
        edges := ⟨source, (g.withNode name).1, position⟩ :: (g.withNode name).2.edges }
        source (position + 1) rest := rfl

theorem grown_addEdges (h : g.Coherent) (hs : g.keyAt? source = some key) (position : Nat)
    (names : List String) : g.Grown (g.addEdges source position names) := by
  induction names generalizing g position with
  | nil => exact .refl h
  | cons name rest ih =>
      have hnode := grown_withNode h name
      have hedge := grown_addEdge hnode.coherent ⟨source, (g.withNode name).1, position⟩
        (hnode.keyAt? hs) (keyAt?_withNode h name)
      rw [addEdges_cons]
      exact (hnode.trans hedge).trans (ih hedge.coherent (hedge.keyAt? (hnode.keyAt? hs)) _)

theorem links_addEdges (h : g.Coherent) (hs : g.keyAt? source = some name) (first : Nat)
    (names : List String) : (g.addEdges source first names).Links key target position ↔
      (key = name ∧ first ≤ position ∧ (names.map keyOf)[position - first]? = some target) ∨
        g.Links key target position := by
  induction names generalizing g first with
  | nil => simp [addEdges]
  | cons reference rest ih =>
      have hnode := grown_withNode h reference
      have hedge := grown_addEdge hnode.coherent ⟨source, (g.withNode reference).1, first⟩
        (hnode.keyAt? hs) (keyAt?_withNode h reference)
      rw [addEdges_cons, ih hedge.coherent (hedge.keyAt? (hnode.keyAt? hs)), links_addEdge,
        hnode.links_iff h edges_withNode, hnode.keyAt? hs, keyAt?_withNode h reference, ← or_assoc]
      refine or_congr_left ?_
      simp only [Option.some.injEq]
      rcases Nat.lt_trichotomy position first with hlt | rfl | hgt
      · omega
      · have hnot : ¬position + 1 ≤ position := by omega
        simp [hnot, eq_comm (a := key)]
      · obtain ⟨step, rfl⟩ := Nat.exists_eq_add_of_lt hgt
        have hne : ¬first = first + step + 1 := by omega
        have hle : first + 1 ≤ first + step + 1 := by omega
        have hle' : first ≤ first + step + 1 := by omega
        rw [show first + step + 1 - (first + 1) = step by omega,
          show first + step + 1 - first = step + 1 by omega]
        simp [hne, hle, hle']

variable {references : List String}

/-- The graph with the edges of a formula, before its key counts as a result. -/
def linked (g : Graph) (result : String) (references : List String) : Graph :=
  ((g.withNode result).2.clearFrom (g.withNode result).1).addEdges (g.withNode result).1 0
    references

theorem setReferences_eq : g.setReferences result references =
    ⟨(g.linked result references).nodes, (g.linked result references).index,
      (g.linked result references).results.insert (keyOf result) (),
      (g.linked result references).edges, (g.linked result references).nextId⟩ := rfl

theorem grown_linked (h : g.Coherent) (result : String) (references : List String) :
    g.Grown (g.linked result references) := by
  have hnode := grown_withNode h result
  have hclear := grown_clearFrom hnode.coherent (g.withNode result).1
  have hadd := grown_addEdges hclear.coherent (hclear.keyAt? (keyAt?_withNode h result)) 0 references
  exact (hnode.trans hclear).trans hadd

theorem Coherent.setReferences (h : g.Coherent) :
    (g.setReferences result references).Coherent := by
  have hnode := grown_withNode h result
  have hclear := grown_clearFrom hnode.coherent (g.withNode result).1
  have hadd := grown_addEdges hclear.coherent (hclear.keyAt? (keyAt?_withNode h result)) 0 references
  have hl := hadd.coherent
  refine ⟨hl.ids_nodup, hl.ids_lt, hl.index_sound, ?_, hl.source_known, hl.target_known⟩
  intro key hr
  rw [setReferences_eq, SortedMap.contains_iff] at hr
  obtain ⟨_, hr⟩ := hr
  rw [SortedMap.get?_insert] at hr
  split at hr
  · rename_i hk
    subst hk
    exact ⟨_, hadd.index (hclear.index node?_withNode)⟩
  · exact hl.result_known (SortedMap.contains_iff.mpr ⟨_, hr⟩)

theorem isSplit_setReferences (h : g.Coherent) :
    (g.setReferences result references).IsSplit key ↔ g.IsSplit key :=
  (grown_linked h result references).isSplit

theorem WellFormed.setReferences (h : g.WellFormed) :
    (g.setReferences result references).WellFormed where
  toCoherent := h.toCoherent.setReferences
  not_split := fun key hs => h.not_split key ((isSplit_setReferences h.toCoherent).mp hs)

theorem contains_results_setReferences (h : g.Coherent) :
    (g.setReferences result references).results.contains key = true ↔
      key = keyOf result ∨ g.results.contains key = true := by
  rw [setReferences_eq, SortedMap.contains_iff, SortedMap.contains_iff, (grown_linked h result references).results]
  by_cases hk : key = keyOf result <;> simp [hk]

theorem links_setReferences (h : g.Coherent) :
    (g.setReferences result references).Links key target position ↔
      (key = keyOf result ∧ (references.map keyOf)[position]? = some target) ∨
        ((g.withNode result).2.clearFrom (g.withNode result).1).Links key target position := by
  have hclear := grown_clearFrom (grown_withNode h result).coherent (g.withNode result).1
  refine (links_addEdges hclear.coherent (hclear.keyAt? (keyAt?_withNode h result)) 0
    references).trans ?_
  simp only [Nat.zero_le, true_and, Nat.sub_zero]

theorem links_setReferences_of_ne (h : g.Coherent) (hk : key ≠ keyOf result) :
    (g.setReferences result references).Links key target position ↔
      g.Links key target position := by
  rw [links_setReferences h, links_clearFrom_of_ne (keyAt?_withNode h result) hk,
    (grown_withNode h result).links_iff h edges_withNode]
  simp [hk]

theorem links_setReferences_self (h : g.Coherent) (hs : ¬g.IsSplit (keyOf result)) :
    (g.setReferences result references).Links (keyOf result) target position ↔
      (references.map keyOf)[position]? = some target := by
  have hsplit := mt (grown_withNode h result).isSplit.mp hs
  have hnot : ¬((g.withNode result).2.clearFrom (g.withNode result).1).Links (keyOf result) target
      position := not_links_clearFrom hsplit (keyAt?_withNode h result)
  rw [links_setReferences h]
  simp [hnot]

/-! ## Several formulas -/

variable {formulas : List (String × List String)}

theorem setAll_append (g : Graph) (formulas more : List (String × List String)) :
    g.setAll (formulas ++ more) = (g.setAll formulas).setAll more :=
  List.foldl_append

theorem setAll_concat (g : Graph) (formulas : List (String × List String))
    (f : String × List String) :
    g.setAll (formulas ++ [f]) = (g.setAll formulas).setReferences f.1 f.2 :=
  setAll_append g formulas [f]

theorem Coherent.setAll (h : g.Coherent) : (g.setAll formulas).Coherent := by
  induction formulas using List.reverseRecOn with
  | nil => exact h
  | append_singleton init f ih =>
      rw [setAll_concat]
      exact ih.setReferences

theorem isSplit_setAll (h : g.Coherent) : (g.setAll formulas).IsSplit key ↔ g.IsSplit key := by
  induction formulas using List.reverseRecOn with
  | nil => rfl
  | append_singleton init f ih => rw [setAll_concat, isSplit_setReferences h.setAll, ih]

theorem WellFormed.setAll (h : g.WellFormed) : (g.setAll formulas).WellFormed where
  toCoherent := h.toCoherent.setAll
  not_split := fun key hs => h.not_split key ((isSplit_setAll h.toCoherent).mp hs)

theorem contains_results_setAll (h : g.Coherent) :
    (g.setAll formulas).results.contains key = true ↔
      (∃ f ∈ formulas, key = keyOf f.1) ∨ g.results.contains key = true := by
  induction formulas using List.reverseRecOn with
  | nil => simp [setAll]
  | append_singleton init f ih =>
      rw [setAll_concat, contains_results_setReferences h.setAll, ih]
      simp only [List.mem_append, List.mem_singleton, or_and_right, exists_or, exists_eq_left]
      rw [← or_assoc, or_comm (a := key = keyOf f.1)]

theorem links_setAll_of_ne (h : g.Coherent) (hk : ∀ f ∈ formulas, keyOf f.1 ≠ key) :
    (g.setAll formulas).Links key target position ↔ g.Links key target position := by
  induction formulas using List.reverseRecOn with
  | nil => rfl
  | append_singleton init f ih =>
      rw [List.forall_mem_append] at hk
      rw [setAll_concat, links_setReferences_of_ne h.setAll (hk.2 f List.mem_cons_self).symm,
        ih hk.1]

/-- Formulas of one key that all have the same references give it these references. -/
theorem links_setAll_self (h : g.Coherent) (hs : ¬g.IsSplit key)
    {f : String × List String} (hf : f ∈ formulas) (hkey : keyOf f.1 = key)
    (hsame : ∀ f' ∈ formulas, keyOf f'.1 = key → f'.2 = f.2) :
    (g.setAll formulas).Links key target position ↔
      (f.2.map keyOf)[position]? = some target := by
  induction formulas using List.reverseRecOn with
  | nil => exact absurd hf List.not_mem_nil
  | append_singleton init last ih =>
      rw [List.forall_mem_append] at hsame
      rw [setAll_concat]
      by_cases hl : keyOf last.1 = key
      · subst hl
        rw [links_setReferences_self h.setAll (mt (isSplit_setAll h).mp hs),
          hsame.2 last List.mem_cons_self rfl]
      · rw [links_setReferences_of_ne h.setAll (Ne.symm hl)]
        refine ih ?_ hsame.1
        rcases List.mem_append.mp hf with hf | hf
        · exact hf
        · rw [List.mem_singleton] at hf
          exact absurd (hf ▸ hkey) hl

/-! ## Nodes that are taken away -/

theorem keyAt?_removeNode (h : g'.nodes = g.nodes.filter (·.id != id)) {i : Nat} :
    g'.keyAt? i = if i = id then none else g.keyAt? i := by
  simp only [keyAt?, nameOf?, h, List.find?_filter]
  by_cases hi : i = id
  · subst hi
    simp
  · have hsame : (fun node : Node => decide ((node.id != id) = true ∧ (node.id == i) = true)) =
        fun node => node.id == i := by
      funext node
      by_cases hn : node.id = i
      · simp [hn, hi]
      · simp [hn]
    rw [hsame, if_neg hi]

/-- A coherent graph with the same edges, of which some nodes may be missing. -/
structure Trimmed (g g' : Graph) : Prop where
  coherent : g'.Coherent
  links : ∀ {key target position}, g'.Links key target position ↔ g.Links key target position
  isSplit : ∀ {key}, g'.IsSplit key → g.IsSplit key
  results : g'.results = g.results

theorem Trimmed.refl (h : g.Coherent) : g.Trimmed g := ⟨h, Iff.rfl, id, rfl⟩

theorem Trimmed.trans {g'' : Graph} (h : g.Trimmed g') (h' : g'.Trimmed g'') : g.Trimmed g'' where
  coherent := h'.coherent
  links := h'.links.trans h.links
  isSplit := fun hs => h.isSplit (h'.isSplit hs)
  results := h'.results.trans h.results

theorem trimmed_removeNode (h : g.Coherent) (hid : g.keyAt? id = some key)
    (hresult : g.results.contains key = false)
    (hfrom : ∀ edge ∈ g.edges, edge.source ≠ id) (hto : ∀ edge ∈ g.edges, edge.target ≠ id)
    (hnodes : g'.nodes = g.nodes.filter (·.id != id)) (hindex : g'.index = g.index.erase key)
    (hnext : g'.nextId = g.nextId) (hedges : g'.edges = g.edges)
    (hresults : g'.results = g.results) : g.Trimmed g' := by
  have hat : ∀ {i}, i ≠ id → g'.keyAt? i = g.keyAt? i := fun hi => by
    rw [keyAt?_removeNode hnodes, if_neg hi]
  constructor
  case results => exact hresults
  case coherent =>
    constructor
    case ids_nodup =>
      rw [hnodes]
      exact (List.filter_sublist.map _).nodup h.ids_nodup
    case ids_lt =>
      intro node hm
      rw [hnext]
      exact h.ids_lt node (List.mem_of_mem_filter (hnodes ▸ hm))
    case index_sound =>
      intro k i hi
      rw [hindex, SortedMap.get?_erase] at hi
      split at hi
      · cases hi
      · rename_i hk
        have hne : i ≠ id := by
          rintro rfl
          exact hk (Option.some.inj ((h.index_sound hi).symm.trans hid))
        rw [hat hne]
        exact h.index_sound hi
    case result_known =>
      intro k hr
      rw [hresults] at hr
      have hne : k ≠ key := by
        rintro rfl
        exact absurd (hr.symm.trans hresult) (by simp)
      rw [hindex, SortedMap.get?_erase, if_neg hne]
      exact h.result_known hr
    case source_known =>
      intro edge hm
      rw [hedges] at hm
      rw [hat (hfrom edge hm)]
      exact h.source_known edge hm
    case target_known =>
      intro edge hm
      rw [hedges] at hm
      rw [hat (hto edge hm)]
      exact h.target_known edge hm
  case links =>
    intro k t p
    simp only [Links, hedges]
    refine exists_congr fun edge => and_congr_right fun hm => ?_
    rw [hat (hfrom edge hm), hat (hto edge hm)]
  case isSplit =>
    -- only the key of the removed node lost its entry: another node with that key was split before
    rintro k ⟨i, hi, hne⟩
    rw [keyAt?_removeNode hnodes] at hi
    split at hi
    · cases hi
    · rename_i hidne
      rw [hindex, SortedMap.get?_erase] at hne
      by_cases hk : k = key
      · subst hk
        by_contra hs
        exact hidne (Coherent.keyAt?_inj hs hi hid)
      · rw [if_neg hk] at hne
        exact ⟨i, hi, hne⟩

theorem trimmed_prune (h : g.Coherent) (id : Nat) : g.Trimmed (g.prune id) := by
  simp only [prune]
  split
  · exact .refl h
  · rename_i name hname
    split
    · exact .refl h
    · rename_i hfree
      simp only [Bool.or_eq_true, Bool.not_eq_true', List.isEmpty_eq_false_iff, not_or,
        ne_eq, not_not, edgesTo, edgesFrom, List.filter_eq_nil_iff, beq_iff_eq] at hfree
      have hkey : g.keyAt? id = some (keyOf name) := by rw [keyAt?, hname, Option.map_some]
      exact trimmed_removeNode h hkey (by simpa [computes] using hfree.2) hfree.1.2 hfree.1.1
        rfl rfl rfl rfl rfl

theorem trimmed_pruneAll (h : g.Coherent) (ids : List Nat) : g.Trimmed (ids.foldl prune g) := by
  induction ids generalizing g with
  | nil => exact .refl h
  | cons id rest ih =>
      have hp := trimmed_prune h id
      exact hp.trans (ih hp.coherent)

theorem dropFormula_of_none (h : g.node? result = none) : g.dropFormula result = g := by
  simp only [dropFormula, h]

/-- The graph with the formula of a result cleared, and with all nodes that it had. -/
def cleared (g : Graph) (result : String) (id : Nat) : Graph :=
  ⟨g.nodes, g.index, g.results.erase (keyOf result), (g.clearFrom id).edges, g.nextId⟩

theorem Coherent.cleared (h : g.Coherent) (result : String) (id : Nat) :
    (g.cleared result id).Coherent :=
  have hc := (grown_clearFrom h id).coherent
  { hc with
    result_known := fun hr => by
      obtain ⟨_, hr⟩ := SortedMap.contains_iff.mp hr
      simp only [Graph.cleared, SortedMap.get?_erase] at hr
      split at hr
      · cases hr
      · exact h.result_known (SortedMap.contains_iff.mpr ⟨_, hr⟩) }

theorem trimmed_dropFormula (h : g.Coherent) (hid : g.node? result = some id) :
    (g.cleared result id).Trimmed (g.dropFormula result) := by
  have hp := trimmed_prune (h.cleared result id) id
  have hall := hp.trans (trimmed_pruneAll hp.coherent (g.successors id))
  simp only [dropFormula, hid]
  exact hall

theorem Coherent.dropFormula (h : g.Coherent) : (g.dropFormula result).Coherent := by
  cases hid : g.node? result with
  | none => rwa [dropFormula_of_none hid]
  | some id => exact (trimmed_dropFormula h hid).coherent

theorem WellFormed.dropFormula (h : g.WellFormed) : (g.dropFormula result).WellFormed where
  toCoherent := h.toCoherent.dropFormula
  not_split := by
    intro key hs
    cases hid : g.node? result with
    | none => exact h.not_split key (by rwa [dropFormula_of_none hid] at hs)
    | some id => exact h.not_split key ((trimmed_dropFormula h.toCoherent hid).isSplit hs)

theorem links_dropFormula (h : g.WellFormed) :
    (g.dropFormula result).Links key target position ↔
      key ≠ keyOf result ∧ g.Links key target position := by
  cases hid : g.node? result with
  | none =>
      rw [dropFormula_of_none hid]
      refine ⟨fun hl => ⟨?_, hl⟩, And.right⟩
      rintro rfl
      obtain ⟨edge, -, hsource, -⟩ := hl
      exact absurd (hid.symm.trans (Coherent.eq_of_keyAt? (h.not_split _) hsource)) (by simp)
  | some id =>
      have hkey := h.toCoherent.keyAt?_node? hid
      have hcleared : (g.cleared result id).Links key target position ↔
          (g.clearFrom id).Links key target position := links_congr rfl rfl
      rw [(trimmed_dropFormula h.toCoherent hid).links, hcleared]
      by_cases hk : key = keyOf result
      · subst hk
        simp [not_links_clearFrom (h.not_split _) hkey]
      · simp [links_clearFrom_of_ne hkey hk, hk]

theorem contains_results_dropFormula (h : g.Coherent) :
    (g.dropFormula result).results.contains key = true ↔
      key ≠ keyOf result ∧ g.results.contains key = true := by
  cases hid : g.node? result with
  | none =>
      rw [dropFormula_of_none hid]
      refine ⟨fun hr => ⟨?_, hr⟩, And.right⟩
      rintro rfl
      obtain ⟨_, hi⟩ := h.result_known hr
      exact absurd (hid.symm.trans hi) (by simp)
  | some id =>
      rw [(trimmed_dropFormula h hid).results, SortedMap.contains_iff, SortedMap.contains_iff, cleared]
      by_cases hk : key = keyOf result <;> simp [hk]

/-! ## Other names for nodes -/

theorem keyAt?_renameNode {new : String} {i : Nat} (h : g'.nodes = g.nodes.map fun node =>
    if node.id == id then ⟨id, new⟩ else node) :
    g'.keyAt? i = if i = id then (g.keyAt? i).map fun _ => keyOf new else g.keyAt? i := by
  have hids : ((fun node : Node => node.id == i) ∘ fun node =>
      if node.id == id then ⟨id, new⟩ else node) = fun node => node.id == i := by
    funext node
    by_cases hn : node.id = id <;> simp [hn]
  simp only [keyAt?, nameOf?, h, List.find?_map, hids, Option.map_map]
  cases hf : g.nodes.find? (·.id == i) with
  | none => simp
  | some node =>
      have hn : node.id = i := by simpa using List.find?_some hf
      by_cases hi : i = id <;> simp [hn, hi]

theorem coherent_renameNode {old new : String} (h : g.Coherent)
    (hid : g.index.get? old = some id)
    (hnodes : g'.nodes = g.nodes.map fun node => if node.id == id then ⟨id, new⟩ else node)
    (hindex : g'.index = (g.index.erase old).insert (keyOf new) id)
    (hresults : g'.results = if g.results.contains old then
      (g.results.erase old).insert (keyOf new) () else g.results)
    (hnext : g'.nextId = g.nextId) (hedges : g'.edges = g.edges) : g'.Coherent := by
  have hup : ∀ {i k}, g.keyAt? i = some k → ∃ k', g'.keyAt? i = some k' := by
    intro i k hi
    rw [keyAt?_renameNode hnodes]
    split
    · exact ⟨_, by rw [hi, Option.map_some]⟩
    · exact ⟨k, hi⟩
  constructor
  case ids_nodup =>
    have hids : g'.nodes.map (·.id) = g.nodes.map (·.id) := by
      rw [hnodes, List.map_map]
      refine List.map_congr_left fun node _ => ?_
      by_cases hn : node.id = id <;> simp [hn]
    rw [hids]
    exact h.ids_nodup
  case ids_lt =>
    intro node hm
    rw [hnodes] at hm
    rw [hnext]
    obtain ⟨before, hb, rfl⟩ := List.mem_map.mp hm
    have hlt := h.ids_lt before hb
    by_cases hn : before.id = id
    · simpa [hn] using hn ▸ hlt
    · simpa [hn] using hlt
  case index_sound =>
    intro k i hi
    rw [hindex, SortedMap.get?_insert, SortedMap.get?_erase] at hi
    rw [keyAt?_renameNode hnodes]
    split at hi
    · rename_i hk
      cases hi
      rw [if_pos rfl, h.index_sound hid, Option.map_some, hk]
    · split at hi
      · cases hi
      · rename_i hk
        have hne : i ≠ id := by
          rintro rfl
          exact hk (Option.some.inj ((h.index_sound hi).symm.trans (h.index_sound hid)))
        rw [if_neg hne]
        exact h.index_sound hi
  case result_known =>
    intro k hr
    rw [hindex, SortedMap.get?_insert, SortedMap.get?_erase]
    by_cases hk : k = keyOf new
    · exact ⟨id, by rw [if_pos hk]⟩
    · -- another result keeps its entry: only that of the old key was moved
      have hr' : k ≠ old ∧ g.results.contains k = true := by
        rw [hresults, SortedMap.contains_iff] at hr
        obtain ⟨_, hr⟩ := hr
        split at hr
        · rw [SortedMap.get?_insert, if_neg hk, SortedMap.get?_erase] at hr
          split at hr
          · cases hr
          · rename_i hne
            exact ⟨hne, SortedMap.contains_iff.mpr ⟨_, hr⟩⟩
        · rename_i hnone
          refine ⟨?_, SortedMap.contains_iff.mpr ⟨_, hr⟩⟩
          rintro rfl
          exact hnone (SortedMap.contains_iff.mpr ⟨_, hr⟩)
      rw [if_neg hk, if_neg hr'.1]
      exact h.result_known hr'.2
  case source_known =>
    intro edge hm
    obtain ⟨k, hk⟩ := h.source_known edge (hedges ▸ hm)
    exact hup hk
  case target_known =>
    intro edge hm
    obtain ⟨k, hk⟩ := h.target_known edge (hedges ▸ hm)
    exact hup hk

theorem Coherent.rename {old new : String} (h : g.Coherent) : (g.rename old new).Coherent := by
  simp only [Graph.rename]
  cases hid : g.node? old with
  | none => exact h
  | some id => exact coherent_renameNode h hid rfl rfl rfl rfl rfl

end Parametric.Graph
