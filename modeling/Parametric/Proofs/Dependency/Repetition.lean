import Parametric.Proofs.Dependency.Change
import Parametric.Proofs.Sorting

/-!
# Formulas that are set again

A formula whose references are set again gets its edges back, as the newest ones. So formulas that are set
again change nothing but the order of edges, and not even that if all formulas set after them are set again.
-/

namespace Parametric

/-! ## Edges of a formula -/

/-- The edges from a node to names whose nodes are known, the newest first. -/
def Edge.ofNames (index : SortedMap Nat) (source position : Nat) : List String → List Edge
  | [] => []
  | name :: rest =>
    ofNames index source (position + 1) rest ++ [⟨source, (index.get? (keyOf name)).getD 0, position⟩]

namespace Edge

variable {index index' : SortedMap Nat} {source position : Nat} {names : List String} {edge : Edge}

theorem source_of_mem_ofNames (h : edge ∈ ofNames index source position names) : edge.source = source := by
  induction names generalizing position with
  | nil => cases h
  | cons name rest ih =>
    rcases List.mem_append.mp h with h | h
    · exact ih h
    · rw [List.mem_singleton.mp h]

theorem ofNames_eq_nil_iff : ofNames index source position names = [] ↔ names = [] := by
  cases names <;> simp [ofNames]

theorem ofNames_congr (h : ∀ name ∈ names, index'.get? (keyOf name) = index.get? (keyOf name)) :
    ofNames index' source position names = ofNames index source position names := by
  induction names generalizing position with
  | nil => rfl
  | cons name rest ih =>
    rw [List.forall_mem_cons] at h
    rw [ofNames, ofNames, h.1, ih h.2]

end Edge

namespace Graph

variable {g g' : Graph} {source position id : Nat} {key : String} {names : List String}
  {f : String × List String} {formulas again : List (String × List String)}

theorem node?_congr_of_grown (h : g.Grown g') {name : String} (hknown : (g.node? name).isSome = true) :
    g'.index.get? (keyOf name) = g.index.get? (keyOf name) := by
  obtain ⟨id, hid⟩ := Option.isSome_iff_exists.mp hknown
  exact (h.index hid).trans hid.symm

theorem addEdges_of_known (h : ∀ name ∈ names, (g.node? name).isSome = true) :
    g.addEdges source position names =
      { g with edges := Edge.ofNames g.index source position names ++ g.edges } := by
  induction names generalizing g position with
  | nil => rfl
  | cons name rest ih =>
    rw [List.forall_mem_cons] at h
    obtain ⟨id, hid⟩ := Option.isSome_iff_exists.mp h.1
    have htarget : (g.index.get? (keyOf name)).getD 0 = id := congrArg (Option.getD · 0) hid
    have hfirst : g.addEdges source position (name :: rest) =
        addEdges { g with edges := ⟨source, id, position⟩ :: g.edges } source (position + 1) rest := by
      rw [addEdges_cons, withNode_of_some hid]
    have hrest : addEdges { g with edges := ⟨source, id, position⟩ :: g.edges } source (position + 1) rest =
        { g with edges := Edge.ofNames g.index source (position + 1) rest ++ ⟨source, id, position⟩ :: g.edges } := ih h.2
    rw [hfirst, hrest, Edge.ofNames, htarget, List.append_assoc]
    rfl

/-- Names get nodes where they have none, and the edges to them are put before the other edges. -/
theorem edges_addEdges (h : g.Coherent) (hs : g.keyAt? source = some key) :
    (g.addEdges source position names).edges =
        Edge.ofNames (g.addEdges source position names).index source position names ++ g.edges ∧
      ∀ name ∈ names, ((g.addEdges source position names).node? name).isSome = true := by
  induction names generalizing g position with
  | nil => exact ⟨rfl, by simp⟩
  | cons name rest ih =>
    have hnode := grown_withNode h name
    have hedge := grown_addEdge hnode.coherent ⟨source, (g.withNode name).1, position⟩
      (hnode.keyAt? hs) (keyAt?_withNode h name)
    have hrest := grown_addEdges hedge.coherent (hedge.keyAt? (hnode.keyAt? hs)) (position + 1) rest
    have hnew : (g.withNode name).2.node? name = some (g.withNode name).1 := node?_withNode
    have hid := hrest.index (hedge.index hnew)
    rw [addEdges_cons]
    obtain ⟨hedges, hknown⟩ := ih hedge.coherent (hedge.keyAt? (hnode.keyAt? hs))
    refine ⟨?_, List.forall_mem_cons.mpr ⟨Option.isSome_iff_exists.mpr ⟨_, hid⟩, hknown⟩⟩
    rw [hedges, Edge.ofNames, hid, Option.getD_some, edges_withNode, List.append_assoc]
    rfl

/-! ## Formulas in a graph -/

/-- The edges of a formula in a graph that has the nodes of its names. -/
def edgesOf (g : Graph) (f : String × List String) : List Edge :=
  Edge.ofNames g.index ((g.node? f.1).getD 0) 0 f.2

def leaves (g : Graph) (f : String × List String) (edge : Edge) : Bool := g.node? f.1 == some edge.source

/-- A graph has a formula: the nodes of all its names, its result, and of the edges from the node of the result
exactly its own. -/
structure Holds (g : Graph) (f : String × List String) : Prop where
  node : (g.node? f.1).isSome = true
  known : ∀ name ∈ f.2, (g.node? name).isSome = true
  result : g.results.contains (keyOf f.1) = true
  edges : g.edges.filter (g.leaves f) = g.edgesOf f

theorem leaves_of_mem_edgesOf {edge : Edge} (hnode : (g.node? f.1).isSome = true) (h : edge ∈ g.edgesOf f) :
    g.leaves f edge = true := by
  obtain ⟨id, hid⟩ := Option.isSome_iff_exists.mp hnode
  have hsource : edge.source = id := by
    rw [Edge.source_of_mem_ofNames h, hid, Option.getD_some]
  rw [leaves, hid, hsource, beq_self_eq_true]

theorem Coherent.not_leaves (h : g.Coherent) {f' : String × List String} (hkey : keyOf f.1 ≠ keyOf f'.1)
    {edge : Edge} (hleaves : g.leaves f edge = true) : g.leaves f' edge = false := by
  rw [leaves, beq_iff_eq] at hleaves
  rw [leaves, beq_eq_false_iff_ne]
  intro hleaves'
  exact hkey (Option.some.inj ((h.keyAt?_node? hleaves).symm.trans (h.keyAt?_node? hleaves')))

theorem edges_setReferences (h : g.Coherent) :
    (g.setReferences f.1 f.2).edges = (g.setReferences f.1 f.2).edgesOf f ++
      g.edges.filter (fun edge => !(g.setReferences f.1 f.2).leaves f edge) := by
  have hclear := grown_clearFrom (grown_withNode h f.1).coherent (g.withNode f.1).1
  have hsource := hclear.keyAt? (keyAt?_withNode h f.1)
  have hid : (g.setReferences f.1 f.2).node? f.1 = some (g.withNode f.1).1 :=
    (grown_addEdges hclear.coherent hsource 0 f.2).index (hclear.index node?_withNode)
  have hfilter : (fun edge : Edge => !(g.setReferences f.1 f.2).leaves f edge) = (·.source != (g.withNode f.1).1) := by
    funext edge
    rw [leaves, hid, bne, Option.some_beq_some, Bool.beq_comm]
  have hcleared : ((g.withNode f.1).2.clearFrom (g.withNode f.1).1).edges =
      g.edges.filter (·.source != (g.withNode f.1).1) := by
    simp only [clearFrom, edges_withNode]
  rw [edgesOf, hid, Option.getD_some, hfilter, ← hcleared]
  exact (edges_addEdges hclear.coherent hsource).1

theorem holds_setReferences (h : g.Coherent) : (g.setReferences f.1 f.2).Holds f := by
  have hclear := grown_clearFrom (grown_withNode h f.1).coherent (g.withNode f.1).1
  have hsource := hclear.keyAt? (keyAt?_withNode h f.1)
  have hnode : ((g.setReferences f.1 f.2).node? f.1).isSome = true :=
    Option.isSome_iff_exists.mpr
      ⟨_, (grown_addEdges hclear.coherent hsource 0 f.2).index (hclear.index node?_withNode)⟩
  constructor
  case node => exact hnode
  case known => exact (edges_addEdges hclear.coherent hsource).2
  case result => exact (contains_results_setReferences h).mpr (.inl rfl)
  case edges =>
    have hown : ((g.setReferences f.1 f.2).edgesOf f).filter ((g.setReferences f.1 f.2).leaves f) =
        (g.setReferences f.1 f.2).edgesOf f :=
      List.filter_eq_self.mpr fun edge hedge => leaves_of_mem_edgesOf hnode hedge
    rw [edges_setReferences h, List.filter_append, hown, List.filter_filter]
    simp

theorem index_setReferences (h : g.Coherent) {name : String} (hknown : (g.node? name).isSome = true) :
    (g.setReferences f.1 f.2).node? name = g.node? name :=
  node?_congr_of_grown (grown_linked h f.1 f.2) hknown

theorem edgesOf_congr (hnode : g'.node? f.1 = g.node? f.1) (hnames : ∀ name ∈ f.2, g'.node? name = g.node? name) :
    g'.edgesOf f = g.edgesOf f := by
  rw [edgesOf, edgesOf, hnode]
  exact Edge.ofNames_congr hnames

theorem Holds.setReferences {f' : String × List String} (hf : g.Holds f) (h : g.Coherent) (hkey : keyOf f.1 ≠ keyOf f'.1) :
    (g.setReferences f'.1 f'.2).Holds f := by
  have hnode := index_setReferences (f := f') h hf.node
  have hnames : ∀ name ∈ f.2, (g.setReferences f'.1 f'.2).node? name = g.node? name :=
    fun name hname => index_setReferences h (hf.known name hname)
  constructor
  case node => exact hnode ▸ hf.node
  case known => exact fun name hname => hnames name hname ▸ hf.known name hname
  case result => exact (contains_results_setReferences h).mpr (.inr hf.result)
  case edges =>
    have hleaves : (g.setReferences f'.1 f'.2).leaves f = g.leaves f := by
      funext edge
      rw [leaves, hnode, leaves]
    have hnone : ((g.setReferences f'.1 f'.2).edgesOf f').filter (g.leaves f) = [] := by
      refine List.filter_eq_nil_iff.mpr fun edge hedge hown => ?_
      have hother := leaves_of_mem_edgesOf (holds_setReferences h).node hedge
      have hown' : (g.setReferences f'.1 f'.2).leaves f edge = true := hleaves ▸ hown
      have hnot := h.setReferences.not_leaves hkey hown'
      exact Bool.false_ne_true (hnot.symm.trans hother)
    rw [hleaves, edges_setReferences h, List.filter_append, hnone, List.nil_append, List.filter_filter,
      edgesOf_congr hnode hnames, ← hf.edges]
    refine List.filter_congr fun edge _ => ?_
    cases hown : g.leaves f edge with
    | false => rfl
    | true =>
      rw [Bool.true_and, h.setReferences.not_leaves (f := f) hkey (hleaves ▸ hown), Bool.not_false]

/-- All formulas that are set are there in the end, if they have different keys. -/
theorem holds_setAll (h : g.Coherent) (hkeys : (formulas.map fun f => keyOf f.1).Nodup) :
    ∀ f ∈ formulas, (g.setAll formulas).Holds f := by
  induction formulas using List.reverseRecOn with
  | nil => simp
  | append_singleton init last ih =>
    rw [List.map_append, List.nodup_append] at hkeys
    rw [setAll_concat, List.forall_mem_append, List.forall_mem_singleton]
    refine ⟨fun f hf => (ih hkeys.1 f hf).setReferences h.setAll ?_, holds_setReferences h.setAll⟩
    exact hkeys.2.2 _ (List.mem_map_of_mem hf) _ (by simp)

/-! ## Formulas that are set again -/

theorem Holds.setReferences_self (hf : g.Holds f) :
    g.setReferences f.1 f.2 = { g with edges := g.edgesOf f ++ g.edges.filter (!g.leaves f ·) } := by
  obtain ⟨id, hid⟩ := Option.isSome_iff_exists.mp hf.node
  have hleaves : (fun edge : Edge => !g.leaves f edge) = (·.source != id) := by
    funext edge
    rw [leaves, hid, bne, Option.some_beq_some, Bool.beq_comm]
  have hresults : g.results.insert (keyOf f.1) () = g.results := by
    refine SortedMap.ext_get? fun key => ?_
    rw [SortedMap.get?_insert]
    split
    · rename_i hkey
      obtain ⟨_, hset⟩ := SortedMap.contains_iff.mp hf.result
      rw [hkey, hset]
    · rfl
  have hadded : (g.clearFrom id).addEdges id 0 f.2 =
      { g.clearFrom id with edges := Edge.ofNames g.index id 0 f.2 ++ (g.clearFrom id).edges } := addEdges_of_known hf.known
  rw [Graph.setReferences, withNode_of_some hid]
  simp only [hadded]
  rw [edgesOf, hid, Option.getD_some, hleaves]
  simp only [clearFrom, hresults]

/-- The edges of formulas that were set come before those of other nodes, the last formula first. -/
theorem edges_setAll (h : g.Coherent) (hkeys : (formulas.map fun f => keyOf f.1).Nodup) :
    (g.setAll formulas).edges = formulas.reverse.flatMap (g.setAll formulas).edgesOf ++
      g.edges.filter fun edge => !formulas.any ((g.setAll formulas).leaves · edge) := by
  -- from the end: each formula puts its edges in front and takes out none but its own old ones
  induction formulas using List.reverseRecOn with
  | nil => simp [setAll]
  | append_singleton init last ih =>
    rw [List.map_append, List.nodup_append] at hkeys
    have hinit : (g.setAll init).Coherent := h.setAll
    have hother : ∀ f ∈ init, keyOf f.1 ≠ keyOf last.1 := fun f hf =>
      hkeys.2.2 _ (List.mem_map_of_mem hf) _ (by simp)
    have hholds := holds_setAll h hkeys.1
    rw [setAll_concat]
    generalize hg' : (g.setAll init).setReferences last.1 last.2 = g'
    have hnode : ∀ f ∈ init, g'.node? f.1 = (g.setAll init).node? f.1 := fun f hf =>
      hg' ▸ index_setReferences hinit (hholds f hf).node
    have hleaves : ∀ f ∈ init, g'.leaves f = (g.setAll init).leaves f := fun f hf =>
      funext fun edge => by rw [leaves, hnode f hf, leaves]
    have hedges : ∀ f ∈ init, g'.edgesOf f = (g.setAll init).edgesOf f := fun f hf =>
      edgesOf_congr (hnode f hf) fun name hname => hg' ▸ index_setReferences hinit ((hholds f hf).known name hname)
    have hcoherent : g'.Coherent := hg' ▸ hinit.setReferences
    have hstep : g'.edges = g'.edgesOf last ++ (g.setAll init).edges.filter (!g'.leaves last ·) :=
      hg' ▸ edges_setReferences hinit
    have hkept : (init.reverse.flatMap g'.edgesOf).filter (!g'.leaves last ·) = init.reverse.flatMap g'.edgesOf := by
      refine List.filter_eq_self.mpr fun edge hedge => ?_
      obtain ⟨f, hf, hedge⟩ := List.mem_flatMap.mp hedge
      rw [List.mem_reverse] at hf
      have hown := leaves_of_mem_edgesOf (hnode f hf ▸ (hholds f hf).node) hedge
      rw [hcoherent.not_leaves (hother f hf) hown, Bool.not_false]
    have hrest : (g.edges.filter fun edge => !init.any ((g.setAll init).leaves · edge)).filter (!g'.leaves last ·) =
        g.edges.filter fun edge => !(init ++ [last]).any (g'.leaves · edge) := by
      rw [List.filter_filter]
      refine List.filter_congr fun edge _ => ?_
      have hany : init.any ((g.setAll init).leaves · edge) = init.any (g'.leaves · edge) := by
        rw [Bool.eq_iff_iff, List.any_eq_true, List.any_eq_true]
        exact exists_congr fun f => and_congr_right fun hf => by rw [hleaves f hf]
      rw [List.any_append, List.any_cons, List.any_nil, Bool.or_false, Bool.not_or, Bool.and_comm, hany]
    have hblocks : init.reverse.flatMap (g.setAll init).edgesOf = init.reverse.flatMap g'.edgesOf :=
      List.flatMap_congr fun f hf => (hedges f (List.mem_reverse.mp hf)).symm
    rw [hstep, ih hkeys.1, List.filter_append, hblocks, hkept, hrest, List.reverse_append, List.reverse_singleton,
      List.singleton_append, List.flatMap_cons, List.append_assoc]

theorem setAll_of_holds (h : g.Coherent) (hkeys : (again.map fun f => keyOf f.1).Nodup)
    (hholds : ∀ f ∈ again, g.Holds f) : ∃ edges, g.setAll again = { g with edges := edges } := by
  induction again generalizing g with
  | nil => exact ⟨g.edges, rfl⟩
  | cons f rest ih =>
    rw [List.map_cons, List.nodup_cons] at hkeys
    obtain ⟨hf, hrest⟩ := List.forall_mem_cons.mp hholds
    have hset : (g.setReferences f.1 f.2).Coherent := h.setReferences
    obtain ⟨edges, hedges⟩ := ih hset hkeys.2 fun f' hf' =>
      (hrest f' hf').setReferences h fun hkey => hkeys.1 (hkey ▸ List.mem_map_of_mem hf')
    refine ⟨edges, hedges.trans ?_⟩
    rw [hf.setReferences_self]

/-- The edges of formulas stand before all older edges, those of the last formula first. -/
structure Stacked (g : Graph) (formulas : List (String × List String)) (older : List Edge) : Prop where
  coherent : g.Coherent
  keys : (formulas.map fun f => keyOf f.1).Nodup
  holds : ∀ f ∈ formulas, g.Holds f
  edges : g.edges = formulas.reverse.flatMap g.edgesOf ++ older
  older : ∀ edge ∈ older, formulas.any (g.leaves · edge) = false

theorem stacked_setAll (h : g.Coherent) (hkeys : (formulas.map fun f => keyOf f.1).Nodup) :
    (g.setAll formulas).Stacked formulas
      (g.edges.filter fun edge => !formulas.any ((g.setAll formulas).leaves · edge)) where
  coherent := h.setAll
  keys := hkeys
  holds := holds_setAll h hkeys
  edges := edges_setAll h hkeys
  older edge hedge := by simpa only [Bool.not_eq_true'] using (List.mem_filter.mp hedge).2

namespace Stacked

variable {older : List Edge} (h : g.Stacked formulas older) (hsub : again.Sublist formulas)
include h hsub

theorem any_leaves_iff (hf : f ∈ formulas) {edge : Edge} (hedge : edge ∈ g.edgesOf f) :
    again.any (g.leaves · edge) = true ↔ f ∈ again := by
  have hown := leaves_of_mem_edgesOf (h.holds f hf).node hedge
  rw [List.any_eq_true]
  refine ⟨fun ⟨f', hf', hleaves⟩ => ?_, fun hmem => ⟨f, hmem, hown⟩⟩
  by_contra hnot
  have hkey : keyOf f.1 ≠ keyOf f'.1 := fun hkey =>
    hnot (List.inj_on_of_nodup_map h.keys hf (hsub.subset hf') hkey ▸ hf')
  exact Bool.false_ne_true ((h.coherent.not_leaves hkey hown).symm.trans hleaves)

theorem any_leaves_older {edge : Edge} (hedge : edge ∈ older) : again.any (g.leaves · edge) = false :=
  List.any_eq_false.mpr fun f hf => List.any_eq_false.mp (h.older edge hedge) f (hsub.subset hf)

/-- The edges that are moved are those of the formulas that are set again. -/
theorem filter_leaves : g.edges.filter (fun edge => again.any (g.leaves · edge)) = again.reverse.flatMap g.edgesOf := by
  have holder : older.filter (fun edge => again.any (g.leaves · edge)) = [] :=
    List.filter_eq_nil_iff.mpr fun edge hedge => Bool.eq_false_iff.mp (h.any_leaves_older hsub hedge)
  rw [h.edges, List.filter_append, List.filter_flatMap, holder, List.append_nil]
  refine flatMap_eq_of_sublist hsub.reverse (List.nodup_reverse.mpr (.of_map _ h.keys)) (fun f hf => ?_) fun f hf hnot => ?_
  · rw [List.mem_reverse] at hf
    exact List.filter_eq_self.mpr fun edge hedge => (h.any_leaves_iff hsub (hsub.subset hf) hedge).mpr hf
  · rw [List.mem_reverse] at hf hnot
    exact List.filter_eq_nil_iff.mpr fun edge hedge hmem => hnot ((h.any_leaves_iff hsub hf hedge).mp hmem)

/-- The edges that are moved stand before the others exactly if no formula with references that is set again stands
before one that is not. -/
theorem pairwise_leaves_iff :
    g.edges.Pairwise (fun a b => again.any (g.leaves · b) = true → again.any (g.leaves · a) = true) ↔
      formulas.Pairwise fun f f' => f ∈ again → f.2 ≠ [] → f'.2 ≠ [] → f' ∈ again := by
  have hnil : ∀ f : String × List String, g.edgesOf f ≠ [] ↔ f.2 ≠ [] := fun f => not_congr Edge.ofNames_eq_nil_iff
  have hblock : ∀ f ∈ formulas.reverse, (g.edgesOf f).Pairwise fun a b =>
      again.any (g.leaves · b) = true → again.any (g.leaves · a) = true := by
    intro f hf
    rw [List.mem_reverse] at hf
    exact List.pairwise_of_forall_mem_list fun a ha b hb hmoved =>
      (h.any_leaves_iff hsub hf ha).mpr ((h.any_leaves_iff hsub hf hb).mp hmoved)
  have holder : ∀ a, ∀ b ∈ older, again.any (g.leaves · b) = true → again.any (g.leaves · a) = true :=
    fun _ b hb hmoved => absurd hmoved (Bool.eq_false_iff.mp (h.any_leaves_older hsub hb))
  rw [h.edges, List.pairwise_append, List.pairwise_flatMap, List.pairwise_reverse, and_assoc, and_iff_right hblock,
    and_iff_left ⟨List.pairwise_of_forall_mem_list fun a _ => holder a, fun a _ => holder a⟩]
  refine List.Pairwise.iff_of_mem fun {f f'} hf hf' => ⟨fun hmoves hmem hne hne' => ?_, fun hmoves a ha b hb hmoved => ?_⟩
  · obtain ⟨b, hb⟩ := List.exists_mem_of_ne_nil _ ((hnil f).mpr hne)
    obtain ⟨a, ha⟩ := List.exists_mem_of_ne_nil _ ((hnil f').mpr hne')
    exact (h.any_leaves_iff hsub hf' ha).mp (hmoves a ha b hb ((h.any_leaves_iff hsub hf hb).mpr hmem))
  · exact (h.any_leaves_iff hsub hf' ha).mpr (hmoves ((h.any_leaves_iff hsub hf hb).mp hmoved)
      ((hnil f).mp (List.ne_nil_of_mem hb)) ((hnil f').mp (List.ne_nil_of_mem ha)))

end Stacked

/-- Setting some of the formulas again leaves the graph as it is exactly if none of them that has references
stands before a formula with references that is not set again. -/
theorem setAll_setAll_eq_iff (h : g.Coherent) (hkeys : (formulas.map fun f => keyOf f.1).Nodup)
    (hsub : again.Sublist formulas) : (g.setAll formulas).setAll again = g.setAll formulas ↔
      formulas.Pairwise fun f f' => f ∈ again → f.2 ≠ [] → f'.2 ≠ [] → f' ∈ again := by
  have hstacked := stacked_setAll h hkeys
  generalize g.setAll formulas = g' at hstacked ⊢
  have hkeys' : (again.map fun f => keyOf f.1).Nodup := hkeys.sublist (hsub.map _)
  obtain ⟨edges, hsame⟩ := setAll_of_holds hstacked.coherent hkeys' fun f hf => hstacked.holds f (hsub.subset hf)
  have hmoved : edges = again.reverse.flatMap g'.edgesOf ++ g'.edges.filter fun edge => !again.any (g'.leaves · edge) := by
    have hmoved := edges_setAll hstacked.coherent hkeys'
    rwa [hsame] at hmoved
  -- Both graphs have the same nodes, so all depends on whether the edges that are moved stood first already.
  rw [← hstacked.pairwise_leaves_iff hsub, ← filter_append_filter_eq_iff, hstacked.filter_leaves hsub, ← hmoved, hsame]
  refine ⟨fun heq => congrArg Graph.edges heq, fun heq => ?_⟩
  rw [heq]

end Graph

end Parametric
