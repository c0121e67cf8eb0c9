import Mathlib.Logic.Relation
import Parametric.Dependency.Search
import Parametric.Proofs.Name
import Parametric.Proofs.SortedMap

/-!
# Dependency graphs as relations between keys

Nodes are numbers; what the rest of the program sees of them are the keys of their names.
-/

namespace Parametric

/-! ## Coherence -/

namespace Graph

def keyAt? (g : Graph) (id : Nat) : Option String := (g.nameOf? id).map keyOf

/-- Whether a name has a node other than the one that its key stands for. -/
def IsSplit (g : Graph) (key : String) : Prop :=
  ∃ id, g.keyAt? id = some key ∧ g.index.get? key ≠ some id

/-- The index leads to nodes of its keys and knows all results, and edges join nodes that exist. -/
structure Coherent (g : Graph) : Prop where
  ids_nodup : (g.nodes.map (·.id)).Nodup
  ids_lt : ∀ node ∈ g.nodes, node.id < g.nextId
  index_sound : ∀ {key id}, g.index.get? key = some id → g.keyAt? id = some key
  result_known : ∀ {key}, g.results.contains key = true → ∃ id, g.index.get? key = some id
  source_known : ∀ edge ∈ g.edges, ∃ key, g.keyAt? edge.source = some key
  target_known : ∀ edge ∈ g.edges, ∃ key, g.keyAt? edge.target = some key

/-- A coherent graph in which every name has one node. -/
structure WellFormed (g : Graph) : Prop extends g.Coherent where
  not_split : ∀ key, ¬g.IsSplit key

/-! ## Edges between keys -/

/-- A formula of one key references another one at a position. -/
def Links (g : Graph) (key target : String) (position : Nat) : Prop :=
  ∃ edge ∈ g.edges, g.keyAt? edge.source = some key ∧ g.keyAt? edge.target = some target ∧
    edge.position = position

/-- A formula of one key references another one. -/
def References (g : Graph) (key target : String) : Prop := ∃ position, g.Links key target position

/-- No key leads back to itself. -/
def Acyclic (g : Graph) : Prop := ∀ key, ¬Relation.TransGen g.References key key

variable {g g' : Graph} {id : Nat} {key name : String}

theorem keyAt?_eq_some_iff : g.keyAt? id = some key ↔
    ∃ node, g.nodes.find? (·.id == id) = some node ∧ keyOf node.name = key := by
  simp [keyAt?, nameOf?]

theorem exists_node_of_keyAt? (h : g.keyAt? id = some key) :
    ∃ node ∈ g.nodes, node.id = id ∧ keyOf node.name = key := by
  obtain ⟨node, hf, hk⟩ := keyAt?_eq_some_iff.mp h
  exact ⟨node, List.mem_of_find?_eq_some hf, by simpa using List.find?_some hf, hk⟩

theorem keyAt?_congr (h : g'.nodes = g.nodes) : g'.keyAt? id = g.keyAt? id := by
  simp only [keyAt?, nameOf?, h]

theorem keyAt?_addNode (node : Node) (h : g'.nodes = node :: g.nodes) :
    g'.keyAt? id = if id = node.id then some (keyOf node.name) else g.keyAt? id := by
  simp only [keyAt?, nameOf?, h, List.find?_cons]
  by_cases hid : id = node.id
  · subst hid
    simp
  · have hb : (node.id == id) = false := by simpa using Ne.symm hid
    simp [hb, hid]

namespace Coherent

theorem lt_nextId (h : g.Coherent) (hid : g.keyAt? id = some key) : id < g.nextId := by
  obtain ⟨node, hm, rfl, -⟩ := exists_node_of_keyAt? hid
  exact h.ids_lt node hm

theorem keyAt?_node? (h : g.Coherent) (hn : g.node? name = some id) :
    g.keyAt? id = some (keyOf name) :=
  h.index_sound hn

theorem eq_of_keyAt? (hs : ¬g.IsSplit key) (hid : g.keyAt? id = some key) :
    g.index.get? key = some id := by
  by_contra hne
  exact hs ⟨id, hid, hne⟩

theorem keyAt?_inj {a b : Nat} (hs : ¬g.IsSplit key) (ha : g.keyAt? a = some key)
    (hb : g.keyAt? b = some key) : a = b :=
  Option.some.inj ((eq_of_keyAt? hs ha).symm.trans (eq_of_keyAt? hs hb))

theorem empty : Coherent {} where
  ids_nodup := List.nodup_nil
  ids_lt := by simp
  index_sound := by simp
  result_known := by simp [SortedMap.contains]
  source_known := by simp
  target_known := by simp

end Coherent

theorem WellFormed.empty : WellFormed {} where
  toCoherent := .empty
  not_split := fun _ ⟨_, h, _⟩ => by simp [keyAt?, nameOf?] at h

theorem not_links_empty {target : String} {position : Nat} :
    ¬Links {} key target position := by
  simp [Links]

/-! ## Graphs that grow -/

/-- A coherent graph with all the nodes of another one, under their keys. -/
structure Grown (g g' : Graph) : Prop where
  coherent : g'.Coherent
  keyAt? : ∀ {id key}, g.keyAt? id = some key → g'.keyAt? id = some key
  index : ∀ {id key}, g.index.get? key = some id → g'.index.get? key = some id
  isSplit : ∀ {key}, g'.IsSplit key ↔ g.IsSplit key
  results : g'.results = g.results

namespace Grown

theorem refl (h : g.Coherent) : g.Grown g where
  coherent := h
  keyAt? := fun hk => hk
  index := fun hi => hi
  isSplit := Iff.rfl
  results := rfl

theorem trans {g'' : Graph} (h : g.Grown g') (h' : g'.Grown g'') : g.Grown g'' where
  coherent := h'.coherent
  keyAt? := fun hk => h'.keyAt? (h.keyAt? hk)
  index := fun hi => h'.index (h.index hi)
  isSplit := h'.isSplit.trans h.isSplit
  results := h'.results.trans h.results

theorem links_iff (h : g.Grown g') (hc : g.Coherent) (he : g'.edges = g.edges)
    {target : String} {position : Nat} :
    g'.Links key target position ↔ g.Links key target position := by
  have back : ∀ {id k}, (∃ k', g.keyAt? id = some k') → g'.keyAt? id = some k →
      g.keyAt? id = some k := by
    rintro id k ⟨k', hk'⟩ hk
    rwa [← (h.keyAt? hk').symm.trans hk]
  constructor
  · rintro ⟨edge, hm, hsource, htarget, hp⟩
    rw [he] at hm
    exact ⟨edge, hm, back (hc.source_known edge hm) hsource, back (hc.target_known edge hm) htarget, hp⟩
  · rintro ⟨edge, hm, hsource, htarget, hp⟩
    exact ⟨edge, he ▸ hm, h.keyAt? hsource, h.keyAt? htarget, hp⟩

end Grown

/-! ## Nodes of names -/

theorem withNode_of_some (h : g.node? name = some id) : g.withNode name = (id, g) := by
  simp only [withNode, h]

theorem withNode_of_none (h : g.node? name = none) :
    g.withNode name = (g.nextId, { g with
      nodes := ⟨g.nextId, Text.trim name⟩ :: g.nodes
      index := g.index.insert (keyOf name) g.nextId
      nextId := g.nextId + 1 }) := by
  simp only [withNode, h]

theorem edges_withNode : (g.withNode name).2.edges = g.edges := by
  simp only [withNode]
  split <;> rfl

theorem grown_addNode (h : g.Coherent) (hn : g.node? name = none)
    (hnodes : g'.nodes = ⟨g.nextId, Text.trim name⟩ :: g.nodes)
    (hindex : g'.index = g.index.insert (keyOf name) g.nextId) (hnext : g'.nextId = g.nextId + 1)
    (hedges : g'.edges = g.edges) (hresults : g'.results = g.results) : g.Grown g' := by
  have hat : ∀ {i}, g'.keyAt? i = if i = g.nextId then some (keyOf name) else g.keyAt? i := by
    intro i
    rw [keyAt?_addNode _ hnodes, keyOf_trim]
  have hget : ∀ {k}, g'.index.get? k = if k = keyOf name then some g.nextId else g.index.get? k := by
    intro k
    rw [hindex, SortedMap.get?_insert]
  have hup : ∀ {i k}, g.keyAt? i = some k → g'.keyAt? i = some k := by
    intro i k hi
    rw [hat, if_neg (Nat.ne_of_lt (h.lt_nextId hi)), hi]
  have hkept : ∀ {i k}, g.index.get? k = some i → g'.index.get? k = some i := by
    intro i k hi
    have hne : k ≠ keyOf name := by
      rintro rfl
      exact absurd (hn.symm.trans hi) (by simp)
    rw [hget, if_neg hne, hi]
  constructor
  case keyAt? => exact hup
  case index => exact hkept
  case results => exact hresults
  case coherent =>
    constructor
    case ids_nodup =>
      rw [hnodes]
      refine List.nodup_cons.mpr ⟨fun hm => ?_, h.ids_nodup⟩
      obtain ⟨node, hm, hid⟩ := List.mem_map.mp hm
      exact Nat.ne_of_lt (h.ids_lt node hm) hid
    case ids_lt =>
      intro node hm
      rw [hnodes] at hm
      rw [hnext]
      rcases List.mem_cons.mp hm with rfl | hm
      · exact Nat.lt_succ_self _
      · exact Nat.lt_succ_of_lt (h.ids_lt node hm)
    case index_sound =>
      intro k i hi
      rw [hget] at hi
      split at hi
      · rename_i hk
        rw [hat, if_pos (Option.some.inj hi).symm, hk]
      · exact hup (h.index_sound hi)
    case result_known =>
      exact fun hr => (h.result_known (hresults ▸ hr)).imp fun _ => hkept
    case source_known =>
      exact fun edge hm => (h.source_known edge (hedges ▸ hm)).imp fun _ => hup
    case target_known =>
      exact fun edge hm => (h.target_known edge (hedges ▸ hm)).imp fun _ => hup
  case isSplit =>
    -- the new node is the one that its key leads to, and no old node had that key in the index
    intro k
    constructor
    · rintro ⟨i, hi, hne⟩
      rw [hget] at hne
      rw [hat] at hi
      by_cases hid : i = g.nextId
      · rw [if_pos hid] at hi
        rw [if_pos (Option.some.inj hi).symm, hid] at hne
        exact absurd rfl hne
      · rw [if_neg hid] at hi
        refine ⟨i, hi, fun hk => ?_⟩
        by_cases hkey : k = keyOf name
        · subst hkey
          exact absurd (hn.symm.trans hk) (by simp)
        · rw [if_neg hkey] at hne
          exact hne hk
    · rintro ⟨i, hi, hne⟩
      refine ⟨i, hup hi, fun hk => ?_⟩
      rw [hget] at hk
      split at hk
      · exact Nat.ne_of_lt (h.lt_nextId hi) (Option.some.inj hk).symm
      · exact hne hk

theorem grown_withNode (h : g.Coherent) (name : String) : g.Grown (g.withNode name).2 := by
  cases hn : g.node? name with
  | some id =>
      rw [withNode_of_some hn]
      exact .refl h
  | none =>
      rw [withNode_of_none hn]
      exact grown_addNode h hn rfl rfl rfl rfl rfl

theorem node?_withNode : (g.withNode name).2.node? name = some (g.withNode name).1 := by
  cases hn : g.node? name with
  | some id => rw [withNode_of_some hn, hn]
  | none =>
      rw [withNode_of_none hn]
      simp [node?]

theorem keyAt?_withNode (h : g.Coherent) (name : String) :
    (g.withNode name).2.keyAt? (g.withNode name).1 = some (keyOf name) :=
  (grown_withNode h name).coherent.keyAt?_node? node?_withNode

end Graph

end Parametric
