import Parametric.Proofs.Dependency.Labels
import Parametric.Proofs.Sorting

/-!
# Answers of graphs

Two graphs of one table number their nodes differently and keep their edges in different orders. What they
answer is the same if they call their nodes the same, and in no other case.
-/

namespace Parametric.Graph

variable {g g' : Graph} {id id' : Nat} {key name : String}

/-- A graph answers every query about dependencies as another one does. -/
structure AnswersAs (g g' : Graph) : Prop where
  needs : ∀ name, g.needs name = g'.needs name
  users : ∀ name, g.users name = g'.users name
  schedule : ∀ names, g.schedule names = g'.schedule names
  leafFormulas : ∀ names, g.leafFormulas names = g'.leafFormulas names
  numNodes : g.numNodes = g'.numNodes
  numEdges : g.numEdges = g'.numEdges
  dot : g.dot = g'.dot

/-- Two graphs have the same edges and results, each edge once. Their nodes may have different names. -/
structure Alike (g g' : Graph) : Prop where
  wellFormed : g.WellFormed
  wellFormed' : g'.WellFormed
  simple : g.Simple
  simple' : g'.Simple
  links : ∀ {key target position}, g.Links key target position ↔ g'.Links key target position
  results : ∀ {key}, g.results.contains key = true ↔ g'.results.contains key = true

/-! ## Nodes of one key -/

/-- Two nodes of different graphs have the same key. -/
def Twins (g g' : Graph) (id id' : Nat) : Prop := ∃ key, g.keyAt? id = some key ∧ g'.keyAt? id' = some key

theorem Twins.eq_iff (hw : g.WellFormed) (hw' : g'.WellFormed) {a b a' b' : Nat} (ha : Twins g g' a a')
    (hb : Twins g g' b b') : a = b ↔ a' = b' := by
  obtain ⟨k, hak, hak'⟩ := ha
  obtain ⟨l, hbl, hbl'⟩ := hb
  constructor
  · rintro rfl
    obtain rfl := Option.some.inj (hak.symm.trans hbl)
    exact Coherent.keyAt?_inj (hw'.not_split k) hak' hbl'
  · rintro rfl
    obtain rfl := Option.some.inj (hak'.symm.trans hbl')
    exact Coherent.keyAt?_inj (hw.not_split k) hak hbl

theorem contains_twins (hw : g.WellFormed) (hw' : g'.WellFormed) {ids ids' : List Nat}
    (hids : List.Forall₂ (Twins g g') ids ids') (h : Twins g g' id id') : ids.contains id = ids'.contains id' := by
  induction hids with
  | nil => rfl
  | @cons first first' _ _ hfirst _ ih =>
      have hbeq : (id == first) = (id' == first') := by
        rw [Bool.eq_iff_iff, beq_iff_eq, beq_iff_eq, h.eq_iff hw hw' hfirst]
      rw [List.contains_cons, List.contains_cons, ih, hbeq]

theorem forall₂_twins {ids ids' : List Nat} (hknown : ∀ id ∈ ids, ∃ key, g.keyAt? id = some key)
    (heq : ids.map g.keyAt? = ids'.map g'.keyAt?) : List.Forall₂ (Twins g g') ids ids' := by
  rw [← List.forall₂_eq_eq_eq, List.forall₂_map_left_iff, List.forall₂_map_right_iff] at heq
  refine ((List.forall₂_and_left ids ids').mpr ⟨hknown, heq⟩).imp ?_
  rintro id id' ⟨⟨key, hkey⟩, heq⟩
  exact ⟨key, hkey, heq ▸ hkey⟩

/-! ## Edges of one node -/

/-- The edges that leave a node, in the order of the references. -/
def orderedEdges (g : Graph) (id : Nat) : List Edge :=
  (g.edgesFrom id).mergeSort fun a b => a.position ≤ b.position

theorem successors_eq : g.successors id = ((g.orderedEdges id).map (·.target)).eraseDups := rfl

theorem mem_orderedEdges {edge : Edge} : edge ∈ g.orderedEdges id ↔ edge ∈ g.edges ∧ edge.source = id := by
  simp [orderedEdges, edgesFrom, List.mem_mergeSort]

theorem pairwise_orderedEdges (h : g.Simple) : (g.orderedEdges id).Pairwise fun a b => a.position < b.position := by
  have hle : (g.orderedEdges id).Pairwise fun a b => a.position ≤ b.position := by
    refine (List.pairwise_mergeSort ?_ ?_ _).imp of_decide_eq_true
    · simpa using fun _ _ _ => Nat.le_trans
    · simpa using fun a b : Edge => Nat.le_total a.position b.position
  have hfrom : ((g.edgesFrom id).map (·.position)).Nodup := by
    refine List.pairwise_map.mpr (List.pairwise_filter.mpr ((List.pairwise_map.mp h).imp ?_))
    intro a b hne ha hb hposition
    exact hne (Prod.ext ((eq_of_beq ha).trans (eq_of_beq hb).symm) hposition)
  have hne : ((g.orderedEdges id).map (·.position)).Nodup :=
    ((List.mergeSort_perm _ _).map _).nodup_iff.mpr hfrom
  exact (hle.and (List.pairwise_map.mp hne)).imp fun ⟨hle, hne⟩ => Nat.lt_of_le_of_ne hle hne

/-- The positions and the keys of the references of a node, in their order. -/
def outline (g : Graph) (id : Nat) : List (Nat × Option String) :=
  (g.orderedEdges id).map fun edge => (edge.position, g.keyAt? edge.target)

theorem mem_outline (hw : g.WellFormed) (hid : g.keyAt? id = some key) {entry : Nat × Option String} :
    entry ∈ g.outline id ↔ ∃ target, g.Links key target entry.1 ∧ entry.2 = some target := by
  simp only [outline, List.mem_map, mem_orderedEdges]
  constructor
  · rintro ⟨edge, ⟨hm, rfl⟩, rfl⟩
    obtain ⟨target, htarget⟩ := hw.target_known edge hm
    exact ⟨target, ⟨edge, hm, hid, htarget, rfl⟩, htarget⟩
  · rintro ⟨target, ⟨edge, hm, hsource, htarget, hposition⟩, hentry⟩
    refine ⟨edge, ⟨hm, Coherent.keyAt?_inj (hw.not_split key) hsource hid⟩, ?_⟩
    rw [htarget, hposition, ← hentry]

theorem Alike.outline_eq (h : g.Alike g') (hids : Twins g g' id id') : g.outline id = g'.outline id' := by
  obtain ⟨key, hid, hid'⟩ := hids
  have hlt : (g.outline id).Pairwise fun a b => a.1 < b.1 :=
    List.pairwise_map.mpr (pairwise_orderedEdges h.simple)
  have hlt' : (g'.outline id').Pairwise fun a b => a.1 < b.1 :=
    List.pairwise_map.mpr (pairwise_orderedEdges h.simple')
  have hperm : (g.outline id).Perm (g'.outline id') := by
    refine (List.perm_ext_iff_of_nodup (hlt.imp ?_) (hlt'.imp ?_)).mpr fun entry => ?_
    · exact fun hlt heq => Nat.ne_of_lt hlt (congrArg Prod.fst heq)
    · exact fun hlt heq => Nat.ne_of_lt hlt (congrArg Prod.fst heq)
    · simp only [mem_outline h.wellFormed hid, mem_outline h.wellFormed' hid', h.links]
  exact hperm.eq_of_pairwise (fun _ _ _ _ hab hba => absurd hab (Nat.lt_asymm hba)) hlt hlt'

theorem Coherent.keyAt?_of_arrow (h : g.Coherent) {a b : Nat} (hab : g.Arrow a b) :
    ∃ key, g.keyAt? b = some key := by
  obtain ⟨edge, hm, -, rfl⟩ := arrow_iff.mp hab
  exact h.target_known edge hm

theorem WellFormed.map_successors (hw : g.WellFormed) :
    (g.successors id).map g.keyAt? = ((g.outline id).map (·.2)).eraseDups := by
  have hmap : (g.outline id).map (·.2) = ((g.orderedEdges id).map (·.target)).map g.keyAt? := by
    simp only [outline, List.map_map]
    rfl
  rw [hmap, successors_eq]
  refine map_eraseDups _ _ fun a ha b hb heq => ?_
  have hknown : ∀ {c}, c ∈ (g.orderedEdges id).map (·.target) → ∃ key, g.keyAt? c = some key := fun hc => by
    rw [← List.mem_eraseDups, ← successors_eq] at hc
    exact hw.keyAt?_of_arrow hc
  obtain ⟨key, hkey⟩ := hknown ha
  exact Coherent.keyAt?_inj (hw.not_split key) hkey (heq ▸ hkey)

theorem Alike.successors (h : g.Alike g') (hids : Twins g g' id id') :
    List.Forall₂ (Twins g g') (g.successors id) (g'.successors id') := by
  refine forall₂_twins (fun a ha => h.wellFormed.keyAt?_of_arrow ha) ?_
  rw [h.wellFormed.map_successors, h.wellFormed'.map_successors, h.outline_eq hids]

/-! ## Members of answers -/

theorem WellFormed.mem_needs (hw : g.WellFormed) {reference : String} : reference ∈ g.needs name ↔
    ∃ target position, g.Links (keyOf name) target position ∧ g.label? target = some reference := by
  simp only [needs]
  cases hid : g.node? name with
  | none =>
      refine iff_of_false List.not_mem_nil ?_
      rintro ⟨target, position, ⟨edge, -, hsource, -⟩, -⟩
      exact absurd (hid.symm.trans (Coherent.eq_of_keyAt? (hw.not_split _) hsource)) (by simp)
  | some id =>
      have hkey := hw.keyAt?_node? hid
      simp only [labels, List.mem_filterMap]
      constructor
      · rintro ⟨next, hnext, hname⟩
        obtain ⟨edge, hm, rfl, rfl⟩ := arrow_iff.mp hnext
        obtain ⟨target, htarget⟩ := hw.target_known edge hm
        exact ⟨target, edge.position, ⟨edge, hm, hkey, htarget, rfl⟩, hw.nameOf?_eq htarget ▸ hname⟩
      · rintro ⟨target, position, ⟨edge, hm, hsource, htarget, -⟩, hlabel⟩
        have hid' : edge.source = id := Coherent.keyAt?_inj (hw.not_split _) hsource hkey
        exact ⟨edge.target, arrow_iff.mpr ⟨edge, hm, hid', rfl⟩, (hw.nameOf?_eq htarget).trans hlabel⟩

theorem WellFormed.mem_labels_sources (hw : g.WellFormed) (hid : g.keyAt? id = some key) {user : String} :
    user ∈ g.labels ((g.edgesTo id).map (·.source)) ↔
      ∃ source position, g.Links source key position ∧ g.label? source = some user := by
  simp only [labels, List.mem_filterMap, List.mem_map, edgesTo, List.mem_filter, beq_iff_eq]
  constructor
  · rintro ⟨_, ⟨edge, ⟨hm, rfl⟩, rfl⟩, hname⟩
    obtain ⟨source, hsource⟩ := hw.source_known edge hm
    exact ⟨source, edge.position, ⟨edge, hm, hsource, hid, rfl⟩, hw.nameOf?_eq hsource ▸ hname⟩
  · rintro ⟨source, position, ⟨edge, hm, hsource, htarget, -⟩, hlabel⟩
    have hid' : edge.target = id := Coherent.keyAt?_inj (hw.not_split _) htarget hid
    exact ⟨edge.source, ⟨edge, ⟨hm, hid'⟩, rfl⟩, (hw.nameOf?_eq hsource).trans hlabel⟩

theorem WellFormed.mem_users (hw : g.WellFormed) {user : String} : user ∈ g.users name ↔
    ∃ source position, g.Links source (keyOf name) position ∧ g.label? source = some user := by
  simp only [users]
  cases hid : g.node? name with
  | none =>
      refine iff_of_false List.not_mem_nil ?_
      rintro ⟨source, position, ⟨edge, -, -, htarget, -⟩, -⟩
      exact absurd (hid.symm.trans (Coherent.eq_of_keyAt? (hw.not_split _) htarget)) (by simp)
  | some id =>
      simp only [ascending, List.mem_mergeSort, List.mem_eraseDups]
      exact hw.mem_labels_sources (hw.keyAt?_node? hid)

/-! ## Equal labels, equal answers -/

section Labels

variable (h : g.Alike g') (hl : ∀ key, g.label? key = g'.label? key)
include h

theorem Alike.computes_eq : g.computes name = g'.computes name := by
  rw [computes, computes, Bool.eq_iff_iff, h.results]

include hl

theorem Alike.nameOf?_eq (hids : Twins g g' id id') : g.nameOf? id = g'.nameOf? id' := by
  obtain ⟨key, hid, hid'⟩ := hids
  rw [h.wellFormed.nameOf?_eq hid, h.wellFormed'.nameOf?_eq hid', hl]

theorem Alike.labels_eq {ids ids' : List Nat} (hids : List.Forall₂ (Twins g g') ids ids') :
    g.labels ids = g'.labels ids' := by
  induction hids with
  | nil => rfl
  | cons hfirst _ ih =>
      simp only [labels, List.filterMap_cons, h.nameOf?_eq hl hfirst] at ih ⊢
      rw [ih]

theorem Alike.node?_cases (name : String) : (g.node? name = none ∧ g'.node? name = none) ∨
    ∃ id id', g.node? name = some id ∧ g'.node? name = some id' ∧ Twins g g' id id' := by
  have hsome : (g.node? name).isSome = (g'.node? name).isSome := by
    rw [node?, node?, ← h.wellFormed.isSome_label?, ← h.wellFormed'.isSome_label?, hl]
  cases hid : g.node? name with
  | none =>
      rw [hid, Option.isSome_none, eq_comm, Option.isSome_eq_false_iff, Option.isNone_iff_eq_none] at hsome
      exact .inl ⟨rfl, hsome⟩
  | some id =>
      rw [hid, Option.isSome_some, eq_comm] at hsome
      obtain ⟨id', hid'⟩ := Option.isSome_iff_exists.mp hsome
      exact .inr ⟨id, id', rfl, hid', keyOf name, h.wellFormed.keyAt?_node? hid, h.wellFormed'.keyAt?_node? hid'⟩

theorem Alike.needs_eq (name : String) : g.needs name = g'.needs name := by
  rcases h.node?_cases hl name with ⟨hid, hid'⟩ | ⟨id, id', hid, hid', hids⟩
  · simp only [needs, hid, hid']
  · simp only [needs, hid, hid']
    exact h.labels_eq hl (h.successors hids)

theorem Alike.users_eq (name : String) : g.users name = g'.users name := by
  rcases h.node?_cases hl name with ⟨hid, hid'⟩ | ⟨id, id', hid, hid', key, hkey, hkey'⟩
  · simp only [users, hid, hid']
  · simp only [users, hid, hid']
    refine ascending_congr (perm_eraseDups fun user => ?_)
    simp only [h.wellFormed.mem_labels_sources hkey, h.wellFormed'.mem_labels_sources hkey', h.links, hl]

theorem Alike.leafFormulas_eq (names : List String) : g.leafFormulas names = g'.leafFormulas names := by
  simp only [leafFormulas, h.computes_eq, h.needs_eq hl]

theorem Alike.walk_eq (steps : Nat) (p : Progress) {opened opened' : List Nat} {stack stack' : List (Nat × Bool)}
    (hopened : List.Forall₂ (Twins g g') opened opened')
    (hstack : List.Forall₂ (fun a b => Twins g g' a.1 b.1 ∧ a.2 = b.2) stack stack') :
    g.walk steps p opened stack = g'.walk steps p opened' stack' := by
  induction steps generalizing p opened opened' stack stack' with
  | zero => rfl
  | succ steps ih =>
      cases hstack with
      | nil => rfl
      | @cons top top' rest rest' htop hrest =>
          obtain ⟨id, expanded⟩ := top
          obtain ⟨id', expanded'⟩ := top'
          obtain ⟨hids, rfl : expanded = expanded'⟩ := htop
          have hsuccessors : List.Forall₂ (fun a b => Twins g g' a.1 b.1 ∧ a.2 = b.2)
              ((g.successors id).map (·, false)) ((g'.successors id').map (·, false)) := by
            rw [List.forall₂_map_left_iff, List.forall₂_map_right_iff]
            exact (h.successors hids).imp fun _ _ htwins => ⟨htwins, rfl⟩
          simp only [walk, h.nameOf?_eq hl hids, contains_twins h.wellFormed h.wellFormed' hopened hids]
          split
          · exact ih p hopened hrest
          · rename_i name _
            split
            · exact ih p hopened hrest
            · split
              · exact ih (p.finish name) hopened hrest
              · split
                · exact ih p hopened hrest
                · exact ih p (.cons hids hopened) (List.rel_append hsuccessors (.cons ⟨hids, rfl⟩ hrest))

theorem Alike.names_perm : (g.nodes.map (·.name)).Perm (g'.nodes.map (·.name)) := by
  refine (List.perm_ext_iff_of_nodup h.wellFormed.nodup_names h.wellFormed'.nodup_names).mpr fun name => ?_
  have hiff : g.label? (keyOf name) = some name ↔ g'.label? (keyOf name) = some name := by rw [hl]
  simpa only [h.wellFormed.label?_eq_some_iff, h.wellFormed'.label?_eq_some_iff, and_true] using hiff

theorem Alike.numNodes_eq : g.numNodes = g'.numNodes := by
  simpa [numNodes] using (h.names_perm hl).length_eq

end Labels

/-! ## Edges -/

theorem Alike.triples_perm (h : g.Alike g') : g.triples.Perm g'.triples := by
  refine (List.perm_ext_iff_of_nodup (triples_nodup h.simple h.wellFormed.not_split)
    (triples_nodup h.simple' h.wellFormed'.not_split)).mpr ?_
  rintro ⟨key, target, position⟩
  rw [mem_triples, mem_triples, h.links]

theorem Alike.numEdges_eq (h : g.Alike g') : g.numEdges = g'.numEdges := by
  rw [numEdges, numEdges, ← h.wellFormed.length_triples, ← h.wellFormed'.length_triples, h.triples_perm.length_eq]

def ends? (g : Graph) (triple : String × String × Nat) : Option (String × String) := do
  return (← g.label? triple.1, ← g.label? triple.2.1)

theorem WellFormed.filterMap_edges (hw : g.WellFormed) :
    g.edges.filterMap (fun e => do return (← g.nameOf? e.source, ← g.nameOf? e.target)) =
      g.triples.filterMap g.ends? := by
  rw [triples, List.filterMap_filterMap]
  refine List.filterMap_congr fun edge hm => ?_
  obtain ⟨key, hkey⟩ := hw.source_known edge hm
  obtain ⟨target, htarget⟩ := hw.target_known edge hm
  rw [triple?_eq_some_iff.mpr ⟨hkey, htarget, rfl⟩, hw.nameOf?_eq hkey, hw.nameOf?_eq htarget]
  rfl

section Labels

variable (h : g.Alike g') (hl : ∀ key, g.label? key = g'.label? key)
include h hl

theorem Alike.orderName_eq : g.orderName = g'.orderName := by
  funext p name
  rcases h.node?_cases hl name with ⟨hid, hid'⟩ | ⟨id, id', hid, hid', hids⟩
  · simp only [orderName, hid, hid']
  · simp only [orderName, hid, hid', h.numNodes_eq hl, h.numEdges_eq]
    exact h.walk_eq hl _ p .nil (.cons ⟨hids, rfl⟩ .nil)

theorem Alike.dot_eq : g.dot = g'.dot := by
  have hnode : g.dotNode = g'.dotNode := by
    funext name
    rw [dotNode, dotNode, h.computes_eq]
  have hends : g.ends? = g'.ends? := by
    funext triple
    rw [ends?, ends?, hl, hl]
  have hnames := ascending_congr (h.names_perm hl)
  have hedges := ascendingPairs_congr (h.triples_perm.filterMap g.ends?)
  nth_rewrite 2 [hends] at hedges
  rw [← h.wellFormed.filterMap_edges, ← h.wellFormed'.filterMap_edges] at hedges
  -- `rewrite` does not try to close the goal before all parts agree: comparing the texts would take too long.
  unfold dot
  rewrite [hnode, hnames, hedges]
  rfl

/-- Graphs that call their nodes the same have the same answers. -/
theorem Alike.answersAs : g.AnswersAs g' where
  needs := h.needs_eq hl
  users := h.users_eq hl
  schedule := fun names => by simp only [schedule, h.orderName_eq hl]
  leafFormulas := h.leafFormulas_eq hl
  numNodes := h.numNodes_eq hl
  numEdges := h.numEdges_eq
  dot := h.dot_eq hl

end Labels

/-! ## Equal answers, equal labels -/

/-- Every node is the result of a formula or referenced by one. -/
def Tight (g : Graph) : Prop := ∀ key, (g.label? key).isSome = true →
  g.results.contains key = true ∨ ∃ source position, g.Links source key position

/-- What a graph without loose nodes has a name for, each graph with its edges and results has a name for. -/
theorem Alike.isSome_label? (h : g.Alike g') (ht : g.Tight) (hsome : (g.label? key).isSome = true) :
    (g'.label? key).isSome = true := by
  rcases ht key hsome with hresult | ⟨source, position, hlink⟩
  · exact h.wellFormed'.isSome_label?_of_results (h.results.mp hresult)
  · obtain ⟨edge, -, -, htarget, -⟩ := h.links.mp hlink
    exact h.wellFormed'.isSome_label?_of_keyAt? htarget

theorem Alike.isSome_label?_iff (h : g.Alike g') (ht : g.Tight) (hnum : g.numNodes = g'.numNodes) :
    (g.label? key).isSome = true ↔ (g'.label? key).isSome = true := by
  have hsubset : (g.nodes.map fun node => keyOf node.name) ⊆ g'.nodes.map fun node => keyOf node.name := by
    intro key hkey
    rw [h.wellFormed.mem_keys_iff] at hkey
    rw [h.wellFormed'.mem_keys_iff]
    exact h.isSome_label? ht hkey
  have hperm := (List.subperm_of_subset h.wellFormed.nodup_keys hsubset).perm_of_length_le (by
    rw [List.length_map, List.length_map]
    exact hnum.ge)
  rw [← h.wellFormed.mem_keys_iff, ← h.wellFormed'.mem_keys_iff, hperm.mem_iff]

theorem walk_nil (steps : Nat) (p : Progress) (opened : List Nat) : g.walk steps p opened [] = p := by
  cases steps <;> rfl

/-- A name that references nothing is scheduled alone, in the spelling of its node. -/
theorem WellFormed.schedule_singleton (hw : g.WellFormed) {label : String} (hlabel : g.label? (keyOf name) = some label)
    (hnone : ∀ target position, ¬g.Links (keyOf name) target position) : g.schedule [name] = [label] := by
  obtain ⟨id, hid, hname⟩ := Option.bind_eq_some_iff.mp hlabel
  have hkey := hw.index_sound hid
  have hsuccessors : g.successors id = [] := by
    refine List.eq_nil_iff_forall_not_mem.mpr fun next hnext => ?_
    obtain ⟨edge, hm, rfl, rfl⟩ := arrow_iff.mp hnext
    obtain ⟨target, htarget⟩ := hw.target_known edge hm
    exact hnone target edge.position ⟨edge, hm, hkey, htarget, rfl⟩
  have hnode : g.node? name = some id := hid
  simp [schedule, orderName, hnode, walk, walk_nil, hname, hsuccessors, Progress.finish]

theorem WellFormed.keyOf_eq (hw : g.WellFormed) (hlabel : g.label? key = some name) : keyOf name = key :=
  (hw.label?_eq_some_iff.mp hlabel).2

section Answers

variable (h : g.Alike g') (hlabel : g.label? key = some name)
include h hlabel

theorem Alike.label?_of_needs (hneeds : ∀ name, g.needs name = g'.needs name) {source : String} {position : Nat}
    (hlink : g.Links source key position) : g'.label? key = some name := by
  obtain ⟨edge, -, hsource, -⟩ := id hlink
  obtain ⟨user, huser⟩ := Option.isSome_iff_exists.mp (h.wellFormed.isSome_label?_of_keyAt? hsource)
  have hlink' : g.Links (keyOf user) key position := by rwa [h.wellFormed.keyOf_eq huser]
  have hmem : name ∈ g.needs user := h.wellFormed.mem_needs.mpr ⟨key, position, hlink', hlabel⟩
  rw [hneeds, h.wellFormed'.mem_needs] at hmem
  obtain ⟨target, -, -, htarget⟩ := hmem
  rwa [← h.wellFormed.keyOf_eq hlabel, h.wellFormed'.keyOf_eq htarget]

theorem Alike.label?_of_users (husers : ∀ name, g.users name = g'.users name) {target : String} {position : Nat}
    (hlink : g.Links key target position) : g'.label? key = some name := by
  obtain ⟨edge, -, -, htarget, -⟩ := id hlink
  obtain ⟨reference, hreference⟩ := Option.isSome_iff_exists.mp (h.wellFormed.isSome_label?_of_keyAt? htarget)
  have hlink' : g.Links key (keyOf reference) position := by rwa [h.wellFormed.keyOf_eq hreference]
  have hmem : name ∈ g.users reference := h.wellFormed.mem_users.mpr ⟨key, position, hlink', hlabel⟩
  rw [husers, h.wellFormed'.mem_users] at hmem
  obtain ⟨source, -, -, hsource⟩ := hmem
  rwa [← h.wellFormed.keyOf_eq hlabel, h.wellFormed'.keyOf_eq hsource]

theorem Alike.label?_of_schedule (hschedule : ∀ names, g.schedule names = g'.schedule names)
    (hsome : (g'.label? key).isSome = true) (hnone : ∀ target position, ¬g.Links key target position) :
    g'.label? key = some name := by
  obtain ⟨label, hlabel'⟩ := Option.isSome_iff_exists.mp hsome
  obtain rfl := h.wellFormed.keyOf_eq hlabel
  have hsame := hschedule [name]
  rw [h.wellFormed.schedule_singleton hlabel hnone, h.wellFormed'.schedule_singleton hlabel' fun target position hl =>
    hnone target position (h.links.mpr hl)] at hsame
  rw [hlabel', List.singleton_inj.mp hsame]

end Answers

theorem Alike.label?_eq (h : g.Alike g') (ht : g.Tight) (ha : g.AnswersAs g') (key : String) :
    g.label? key = g'.label? key := by
  cases hlabel : g.label? key with
  | none =>
      have hnone : ¬(g.label? key).isSome = true := by simp [hlabel]
      rw [h.isSome_label?_iff ht ha.numNodes, Option.not_isSome_iff_eq_none] at hnone
      exact hnone.symm
  | some name =>
      by_cases hreferenced : ∃ source position, g.Links source key position
      · obtain ⟨source, position, hlink⟩ := hreferenced
        exact (h.label?_of_needs hlabel ha.needs hlink).symm
      · by_cases hformula : ∃ target position, g.Links key target position
        · obtain ⟨target, position, hlink⟩ := hformula
          exact (h.label?_of_users hlabel ha.users hlink).symm
        · have hsome : (g.label? key).isSome = true := by simp [hlabel]
          exact (h.label?_of_schedule hlabel ha.schedule (h.isSome_label? ht hsome) fun target position hlink =>
            hformula ⟨target, position, hlink⟩).symm

theorem Alike.answersAs_iff (h : g.Alike g') (ht : g.Tight) :
    g.AnswersAs g' ↔ ∀ key, g.label? key = g'.label? key := ⟨h.label?_eq ht, h.answersAs⟩

/-! ## Graphs of one table -/

variable {t : Formulas}

theorem Represents.alike (h : g.Represents t) (h' : g'.Represents t) (hs : g.Simple) (hs' : g'.Simple) :
    g.Alike g' where
  wellFormed := h.toWellFormed
  wellFormed' := h'.toWellFormed
  simple := hs
  simple' := hs'
  links := h.links.trans h'.links.symm
  results := h.results.trans h'.results.symm

/-- A graph that is built from a table has no loose nodes. -/
theorem tight_graph (hkeyed : t.Keyed) : t.graph.Tight := by
  intro key hsome
  rw [label?_graph] at hsome
  have h := Represents.graph hkeyed
  exact (hkeyed.mentioned hsome).imp h.results.mpr fun ⟨source, position, hlink⟩ =>
    ⟨source, position, h.links.mpr hlink⟩

/-- The graph that is built anew from a table answers as a graph of the table does exactly if all nodes of the
latter are mentioned by the table and spelled as it mentions them first. -/
theorem Represents.answersAs_iff (h : g.Represents t) (hs : g.Simple) (hkeyed : t.Keyed) :
    t.graph.AnswersAs g ↔ g.SpelledAs t := by
  have halike := (Represents.graph hkeyed).alike h Simple.empty.setAll hs
  rw [halike.answersAs_iff (tight_graph hkeyed), h.spelledAs_iff hkeyed]

end Parametric.Graph
