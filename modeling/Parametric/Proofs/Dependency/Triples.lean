import Mathlib.Data.List.Nodup
import Parametric.Proofs.Dependency.Table

/-!
# Edges as data

The edges of a graph in terms of keys. If every name has one node and no two edges leave a node at
one position, each edge stands there once, so that two graphs of one table have the same edges.
-/

namespace Parametric

namespace Graph

variable {g g' : Graph} {id source position : Nat} {key target name result : String}
  {references : List String}

def triple? (g : Graph) (edge : Edge) : Option (String × String × Nat) := do
  return (← g.keyAt? edge.source, ← g.keyAt? edge.target, edge.position)

/-- The edges of a graph as triples of a result, a reference and a position, the newest first. -/
def triples (g : Graph) : List (String × String × Nat) := g.edges.filterMap g.triple?

theorem triple?_eq_some_iff {edge : Edge} : g.triple? edge = some (key, target, position) ↔
    g.keyAt? edge.source = some key ∧ g.keyAt? edge.target = some target ∧
      edge.position = position := by
  simp only [triple?, bind, pure, Option.bind_eq_some_iff, Option.some.injEq, Prod.mk.injEq]
  constructor
  · rintro ⟨k, hk, t, ht, rfl, rfl, rfl⟩
    exact ⟨hk, ht, rfl⟩
  · rintro ⟨hk, ht, rfl⟩
    exact ⟨key, hk, target, ht, rfl, rfl, rfl⟩

theorem mem_triples : (key, target, position) ∈ g.triples ↔ g.Links key target position := by
  simp only [triples, List.mem_filterMap, triple?_eq_some_iff, Links]

theorem Coherent.length_triples (h : g.Coherent) : g.triples.length = g.edges.length := by
  refine List.filterMap_length_eq_length.mpr fun edge hm => ?_
  obtain ⟨key, hkey⟩ := h.source_known edge hm
  obtain ⟨target, htarget⟩ := h.target_known edge hm
  exact Option.isSome_iff_exists.mpr ⟨_, triple?_eq_some_iff.mpr ⟨hkey, htarget, rfl⟩⟩

/-! ## Edges at different positions -/

/-- No two edges leave a node at one position. -/
def Simple (g : Graph) : Prop := (g.edges.map fun edge => (edge.source, edge.position)).Nodup

theorem Simple.empty : Simple {} := List.nodup_nil

theorem Simple.of_sublist (h : g.Simple) (he : g'.edges.Sublist g.edges) : g'.Simple :=
  (he.map _).nodup h

theorem simple_clearFrom (h : g.Simple) (id : Nat) : (g.clearFrom id).Simple :=
  h.of_sublist List.filter_sublist

theorem simple_addEdges (h : g.Simple) (first : Nat) (names : List String)
    (hfree : ∀ edge ∈ g.edges, edge.source = source → edge.position < first) :
    (g.addEdges source first names).Simple := by
  induction names generalizing g first with
  | nil => exact h
  | cons name rest ih =>
      rw [addEdges_cons, edges_withNode]
      refine ih ?_ (first + 1) ?_
      · refine List.nodup_cons.mpr ⟨fun hm => ?_, h⟩
        obtain ⟨edge, hm, heq⟩ := List.mem_map.mp hm
        obtain ⟨hs, hp⟩ := Prod.mk.inj heq
        exact Nat.ne_of_lt (hfree edge hm hs) hp
      · refine List.forall_mem_cons.mpr ⟨fun _ => Nat.lt_succ_self first, fun edge hm hs => ?_⟩
        exact Nat.lt_succ_of_lt (hfree edge hm hs)

theorem Simple.setReferences (h : g.Simple) : (g.setReferences result references).Simple := by
  have hnode : (g.withNode result).2.Simple := by
    rw [Simple, edges_withNode]
    exact h
  refine simple_addEdges (simple_clearFrom hnode (g.withNode result).1) 0 references ?_
  intro edge hm (hs : edge.source = (g.withNode result).1)
  have hne := (List.mem_filter.mp hm).2
  simp [hs] at hne

theorem Simple.setAll (h : g.Simple) {formulas : List (String × List String)} :
    (g.setAll formulas).Simple := by
  induction formulas using List.reverseRecOn with
  | nil => exact h
  | append_singleton init f ih =>
      rw [setAll_concat]
      exact ih.setReferences

theorem edges_prune : (g.prune id).edges = g.edges := by
  simp only [prune]
  repeat' split
  all_goals rfl

theorem edges_pruneAll (ids : List Nat) : (ids.foldl prune g).edges = g.edges := by
  induction ids generalizing g with
  | nil => rfl
  | cons id rest ih => rw [List.foldl_cons, ih, edges_prune]

theorem Simple.dropFormula (h : g.Simple) : (g.dropFormula result).Simple := by
  cases hid : g.node? result with
  | none => rwa [dropFormula_of_none hid]
  | some id =>
      refine h.of_sublist ?_
      simp only [Graph.dropFormula, hid, edges_pruneAll, edges_prune]
      exact List.filter_sublist

theorem triples_nodup (h : g.Simple) (hs : ∀ key, ¬g.IsSplit key) : g.triples.Nodup := by
  refine List.pairwise_filterMap.mpr ((List.pairwise_map.mp h).imp ?_)
  rintro a b hne ⟨key, target, position⟩ ha _ hb rfl
  obtain ⟨hka, -, hpa⟩ := triple?_eq_some_iff.mp ha
  obtain ⟨hkb, -, hpb⟩ := triple?_eq_some_iff.mp hb
  exact hne (Prod.ext (Coherent.keyAt?_inj (hs key) hka hkb) (hpa.trans hpb.symm))

/-! ## Edges of one formula -/

/-- The edges of the formula of a key, the newest first. -/
def triplesOf (g : Graph) (key : String) : List (String × String × Nat) :=
  g.triples.filter (·.1 == key)

theorem Grown.triples_eq (h : g.Grown g') (hc : g.Coherent) (he : g'.edges = g.edges) :
    g'.triples = g.triples := by
  rw [triples, triples, he]
  refine List.filterMap_congr fun edge hm => ?_
  obtain ⟨k, hk⟩ := hc.source_known edge hm
  obtain ⟨t, ht⟩ := hc.target_known edge hm
  simp only [triple?, hk, ht, h.keyAt? hk, h.keyAt? ht]

theorem triplesOf_clearFrom (hid : g.keyAt? id = some name) (hk : key ≠ name) :
    (g.clearFrom id).triplesOf key = g.triplesOf key := by
  simp only [triplesOf, triples, clearFrom, List.filter_filterMap, List.filterMap_filter]
  refine List.filterMap_congr fun edge _ => ?_
  split
  · rfl
  · rename_i hs
    have hs : edge.source = id := by simpa using hs
    have hfree : (g.triple? edge).filter (·.1 == key) = none := by
      rw [Option.filter_eq_none_iff]
      rintro ⟨k, t, p⟩ he
      obtain ⟨hsource, -, -⟩ := triple?_eq_some_iff.mp he
      rw [hs, hid, Option.some.injEq] at hsource
      simpa [← hsource] using hk.symm
    exact hfree.symm

theorem triplesOf_addEdges (h : g.Coherent) (hs : g.keyAt? source = some name) (hk : key ≠ name)
    (first : Nat) (names : List String) :
    (g.addEdges source first names).triplesOf key = g.triplesOf key := by
  induction names generalizing g first with
  | nil => rfl
  | cons reference rest ih =>
      have hnode := grown_withNode h reference
      have hedge := grown_addEdge hnode.coherent ⟨source, (g.withNode reference).1, first⟩
        (hnode.keyAt? hs) (keyAt?_withNode h reference)
      rw [addEdges_cons, ih hedge.coherent (hedge.keyAt? (hnode.keyAt? hs)), triplesOf, triplesOf,
        ← hnode.triples_eq h edges_withNode]
      have hnew : triple? { (g.withNode reference).2 with
          edges := ⟨source, (g.withNode reference).1, first⟩ :: (g.withNode reference).2.edges }
          ⟨source, (g.withNode reference).1, first⟩ = some (name, keyOf reference, first) :=
        triple?_eq_some_iff.mpr ⟨hnode.keyAt? hs, keyAt?_withNode h reference, rfl⟩
      rw [triples, List.filterMap_cons, hnew, List.filter_cons_of_neg (by simpa using hk.symm)]
      rfl

theorem triplesOf_setReferences (h : g.Coherent) (hk : key ≠ keyOf result) :
    (g.setReferences result references).triplesOf key = g.triplesOf key := by
  have hnode := grown_withNode h result
  have hid := keyAt?_withNode h result
  have hclear := grown_clearFrom hnode.coherent (g.withNode result).1
  have hadd := triplesOf_addEdges hclear.coherent (hclear.keyAt? hid) hk 0 references
  refine hadd.trans ?_
  rw [triplesOf_clearFrom hid hk, triplesOf, triplesOf, hnode.triples_eq h edges_withNode]

theorem triplesOf_setAll (h : g.Coherent) {formulas : List (String × List String)}
    (hk : ∀ f ∈ formulas, keyOf f.1 ≠ key) : (g.setAll formulas).triplesOf key = g.triplesOf key := by
  induction formulas using List.reverseRecOn with
  | nil => rfl
  | append_singleton init f ih =>
      rw [List.forall_mem_append] at hk
      rw [setAll_concat, triplesOf_setReferences h.setAll (hk.2 f List.mem_cons_self).symm, ih hk.1]

end Graph

/-! ## Graphs of tables -/

/-- A graph has the results and the edges of the graph that is built anew from a table. -/
structure Graph.Mirrors (g : Graph) (t : Formulas) : Prop where
  results : g.results.keys = t.graph.results.keys
  triples : g.triples.Perm t.graph.triples

namespace Graph

variable {g : Graph} {t : Formulas}

theorem keys_results_graph (h : t.Keyed) : t.graph.results.keys = t.keys :=
  SortedMap.keys_congr fun _ => (Represents.graph h).results

/-- A graph mirrors a table if it has its results and references, and no edge twice. -/
theorem mirrors_iff (h : t.Keyed) : g.Mirrors t ↔
    (∀ key, g.results.contains key = true ↔ t.contains key = true) ∧ g.triples.Nodup ∧
      ∀ key target position, g.Links key target position ↔ t.Links key target position := by
  have hr := Represents.graph h
  have hnodup : t.graph.triples.Nodup := triples_nodup Simple.empty.setAll hr.not_split
  constructor
  · rintro ⟨hresults, hperm⟩
    refine ⟨fun key => ?_, hperm.nodup_iff.mpr hnodup, fun key target position => ?_⟩
    · rw [← hr.results, ← SortedMap.mem_keys_iff, ← SortedMap.mem_keys_iff, hresults]
    · rw [← hr.links, ← mem_triples, ← mem_triples, hperm.mem_iff]
  · rintro ⟨hresults, hg, hlinks⟩
    refine ⟨SortedMap.keys_congr fun key => (hresults key).trans hr.results.symm, ?_⟩
    refine (List.perm_ext_iff_of_nodup hg hnodup).mpr ?_
    rintro ⟨key, target, position⟩
    rw [mem_triples, mem_triples, hlinks, hr.links]

theorem Mirrors.contains_iff (h : g.Mirrors t) (hkeyed : t.Keyed) {key : String} :
    g.results.contains key = true ↔ t.contains key = true := ((mirrors_iff hkeyed).mp h).1 key

theorem Mirrors.links_iff (h : g.Mirrors t) (hkeyed : t.Keyed) {key target : String} {position : Nat} :
    g.Links key target position ↔ t.Links key target position :=
  ((mirrors_iff hkeyed).mp h).2.2 key target position

theorem Mirrors.not_links (h : g.Mirrors t) (hkeyed : t.Keyed) {name target : String} {position : Nat}
    (hnone : t.formula? name = none) : ¬g.Links (keyOf name) target position := by
  rw [h.links_iff hkeyed]
  rintro ⟨f, hf, -⟩
  exact absurd (hnone.symm.trans hf) (by simp)

theorem Represents.mirrors (h : g.Represents t) (hs : g.Simple) (hkeyed : t.Keyed) : g.Mirrors t :=
  (mirrors_iff hkeyed).mpr ⟨fun _ => h.results, triples_nodup hs h.not_split, fun _ _ _ => h.links⟩

end Graph

end Parametric
