import Mathlib.Data.List.Nodup
import Parametric.Proofs.Dependency.Change

/-!
# Cycles

A search that finds no way from a node back to itself has seen all that can be reached from it, so
a check of the names whose formulas changed is enough to keep a graph without cycles.
-/

namespace Parametric

open Relation

/-! ## Closed walks -/

section Walks

variable {α : Type} {r : α → α → Prop} {bad : α → Prop} {a b : α}

theorem avoiding_of_transGen (hbad : ∀ c, bad c → ¬TransGen r c c) (h : TransGen r a b)
    (hback : ReflTransGen r b a) : TransGen (fun x y => r x y ∧ ¬bad x ∧ ¬bad y) a b := by
  have hgood : ∀ {c}, TransGen r a c → ReflTransGen r c a → ¬bad c := fun hto hfrom hc =>
    hbad _ hc (TransGen.trans_right hfrom hto)
  have hstart : ¬bad a := fun ha => hbad a ha (h.trans_left hback)
  induction h with
  | single hstep => exact .single ⟨hstep, hstart, hgood (.single hstep) hback⟩
  | tail hto hstep ih =>
      have hfrom := ReflTransGen.head hstep hback
      exact (ih hfrom).tail ⟨hstep, hgood hto hfrom, hgood (hto.tail hstep) hback⟩

/-- A closed walk can be started anew at each of its points: if no bad point lies on a closed walk,
a closed walk meets no bad point. -/
theorem exists_closed_avoiding (hbad : ∀ c, bad c → ¬TransGen r c c) (h : TransGen r a a) :
    TransGen (fun x y => r x y ∧ ¬bad x ∧ ¬bad y) a a :=
  avoiding_of_transGen hbad h .refl

end Walks

namespace Graph

variable {g : Graph} {start : Nat}

/-! ## Successors -/

def Arrow (g : Graph) (a b : Nat) : Prop := b ∈ g.successors a

theorem arrow_iff {a b : Nat} :
    g.Arrow a b ↔ ∃ edge ∈ g.edges, edge.source = a ∧ edge.target = b := by
  simp [Arrow, successors, edgesFrom, List.mem_eraseDups, and_assoc]

theorem length_eraseDups_le {α : Type} [BEq α] [LawfulBEq α] (l : List α) :
    l.eraseDups.length ≤ l.length := by
  induction hn : l.length using Nat.strongRecOn generalizing l with
  | _ n ih =>
      cases l with
      | nil => exact Nat.zero_le n
      | cons a rest =>
          have hle := List.length_filter_le (fun b => !b == a) rest
          rw [List.length_cons] at hn
          have hrest := ih _ (by omega) (rest.filter fun b => !b == a) rfl
          rw [List.eraseDups_cons, List.length_cons]
          omega

theorem length_successors_le (id : Nat) : (g.successors id).length ≤ (g.edgesFrom id).length := by
  have h := length_eraseDups_le (((g.edgesFrom id).mergeSort fun a b =>
    a.position ≤ b.position).map (·.target))
  simpa [successors] using h

theorem Coherent.mem_ids_of_arrow (h : g.Coherent) {a b : Nat} (hab : g.Arrow a b) :
    b ∈ g.nodes.map (·.id) := by
  obtain ⟨edge, hm, -, rfl⟩ := arrow_iff.mp hab
  obtain ⟨key, hkey⟩ := h.target_known edge hm
  obtain ⟨node, hm, hid, -⟩ := exists_node_of_keyAt? hkey
  exact List.mem_map.mpr ⟨node, hm, hid⟩

/-! ## Steps of the search -/

/-- The steps that nodes take when they are met: one for each of their successors and one to leave
them again. -/
def workOf (g : Graph) (ids : List Nat) : Nat := (ids.flatMap g.successors).length + ids.length

theorem length_flatMap_filter_le (ids : List Nat) (edges : List Edge) (h : ids.Nodup) :
    (ids.flatMap fun id => edges.filter (·.source == id)).length ≤ edges.length := by
  induction ids generalizing edges with
  | nil => simp
  | cons id rest ih =>
      obtain ⟨hid, hrest⟩ := List.nodup_cons.mp h
      have hsame : (rest.map fun i => edges.filter (·.source == i)) =
          rest.map fun i => (edges.filter (!·.source == id)).filter (·.source == i) := by
        refine List.map_congr_left fun i hi => ?_
        have hne : i ≠ id := fun he => hid (he ▸ hi)
        rw [List.filter_filter]
        congr 1
        funext edge
        by_cases he : edge.source = i <;> simp [he, hne]
      have hle := ih (edges.filter (!·.source == id)) hrest
      have hsplit := List.length_eq_length_filter_add (l := edges) (·.source == id)
      rw [List.flatMap_def] at hle
      rw [List.flatMap_cons, List.length_append, List.flatMap_def, hsame]
      omega

theorem workOf_le (ids : List Nat) (h : ids.Nodup) : g.workOf ids ≤ g.numEdges + ids.length := by
  have hmono : ∀ ids : List Nat,
      (ids.flatMap g.successors).length ≤ (ids.flatMap g.edgesFrom).length := by
    intro ids
    induction ids with
    | nil => exact Nat.le_refl _
    | cons id rest ih =>
        rw [List.flatMap_cons, List.flatMap_cons, List.length_append, List.length_append]
        exact Nat.add_le_add (length_successors_le id) ih
  exact Nat.add_le_add_right ((hmono ids).trans (length_flatMap_filter_le ids g.edges h)) _

theorem workOf_erase {ids : List Nat} {id : Nat} (hid : id ∈ ids) :
    g.workOf ids = g.workOf (ids.erase id) + ((g.successors id).length + 1) := by
  have hperm := List.perm_cons_erase hid
  rw [workOf, workOf, (hperm.flatMap_right g.successors).length_eq, hperm.length_eq,
    List.flatMap_cons, List.length_append, List.length_cons]
  omega

def unmet (g : Graph) (start : Nat) (visited : List Nat) : List Nat :=
  (g.nodes.map (·.id)).filter fun id => id != start && !visited.contains id

theorem workOf_unmet_cons (h : g.Coherent) {visited : List Nat} {next : Nat}
    (hnext : next ∈ g.unmet start visited) :
    g.workOf (g.unmet start visited) =
      g.workOf (g.unmet start (next :: visited)) + ((g.successors next).length + 1) := by
  have hnodup : (g.unmet start visited).Nodup := h.ids_nodup.filter _
  have hrest : g.unmet start (next :: visited) = (g.unmet start visited).erase next := by
    rw [hnodup.erase_eq_filter, unmet, unmet, List.filter_filter]
    congr 1
    funext id
    by_cases hid : id = next <;> simp [hid]
  rw [hrest]
  exact workOf_erase hnext

/-- The steps that a search still needs: one for each successor to try, one to leave each node of
the path, and what the nodes take that it has not met. -/
def searchWork (g : Graph) (start : Nat) (visited : List Nat) (frontier : List (List Nat)) : Nat :=
  frontier.flatten.length + frontier.length + g.workOf (g.unmet start visited)

theorem searchWork_start (h : g.Coherent) (hs : start ∈ g.nodes.map (·.id)) :
    g.searchWork start [] [g.successors start] ≤ g.numEdges + g.numNodes := by
  have hle := workOf_le (g := g) (g.nodes.map (·.id)) h.ids_nodup
  have hrest : g.unmet start [] = (g.nodes.map (·.id)).erase start := by
    rw [h.ids_nodup.erase_eq_filter, unmet]
    congr 1
    funext id
    simp
  rw [workOf_erase hs, ← hrest, List.length_map] at hle
  simp only [searchWork, List.flatten_cons, List.flatten_nil, List.append_nil, List.length_singleton,
    numNodes]
  omega

/-! ## Completeness of the search -/

/-- What a search has met leads only to nodes that it has met or is going to try. -/
structure Explored (g : Graph) (start : Nat) (visited : List Nat) (frontier : List (List Nat)) :
    Prop where
  start_unvisited : start ∉ visited
  closed : ∀ a, a = start ∨ a ∈ visited → ∀ b, g.Arrow a b → b ∈ visited ∨ b ∈ frontier.flatten
  tried : ∀ pending ∈ frontier, ∀ b ∈ pending, b ∈ g.nodes.map (·.id)

theorem Explored.init (h : g.Coherent) : g.Explored start [] [g.successors start] where
  start_unvisited := List.not_mem_nil
  closed := by
    rintro a (rfl | ha) b hb
    · exact .inr (by simpa [Arrow] using hb)
    · exact absurd ha List.not_mem_nil
  tried := by
    intro pending hp b hb
    rw [List.mem_singleton.mp hp] at hb
    exact h.mem_ids_of_arrow hb

namespace Explored

variable {visited pending : List Nat} {frontier : List (List Nat)} {next : Nat}

theorem met_of_done (h : g.Explored start visited []) {b : Nat} (hb : TransGen g.Arrow start b) :
    b ∈ visited := by
  induction hb with
  | single hab =>
      rcases h.closed start (.inl rfl) _ hab with hv | hf
      · exact hv
      · exact absurd hf List.not_mem_nil
  | tail _ hbc ih =>
      rcases h.closed _ (.inr ih) _ hbc with hv | hf
      · exact hv
      · exact absurd hf List.not_mem_nil

theorem leave (h : g.Explored start visited ([] :: frontier)) : g.Explored start visited frontier where
  start_unvisited := h.start_unvisited
  closed := by simpa using h.closed
  tried := fun pending hp => h.tried pending (List.mem_cons_of_mem _ hp)

theorem skip (h : g.Explored start visited ((next :: pending) :: frontier))
    (hv : next ∈ visited) : g.Explored start visited (pending :: frontier) where
  start_unvisited := h.start_unvisited
  closed := by
    intro a ha b hb
    rcases h.closed a ha b hb with hm | hm
    · exact .inl hm
    · rw [List.flatten_cons, List.cons_append, List.mem_cons] at hm
      rcases hm with rfl | hm
      · exact .inl hv
      · exact .inr hm
  tried := by
    intro p hp b hb
    rcases List.mem_cons.mp hp with rfl | hp
    · exact h.tried _ List.mem_cons_self b (List.mem_cons_of_mem _ hb)
    · exact h.tried p (List.mem_cons_of_mem _ hp) b hb

theorem enter (hc : g.Coherent) (h : g.Explored start visited ((next :: pending) :: frontier))
    (hs : next ≠ start) :
    g.Explored start (next :: visited) (g.successors next :: pending :: frontier) where
  start_unvisited := by simp [hs.symm, h.start_unvisited]
  closed := by
    intro a ha b hb
    rw [List.mem_cons, or_left_comm] at ha
    rcases ha with rfl | ha
    · exact .inr (by simp [show b ∈ g.successors a from hb])
    · rcases h.closed a ha b hb with hm | hm
      · exact .inl (List.mem_cons_of_mem _ hm)
      · rw [List.flatten_cons, List.cons_append, List.mem_cons] at hm
        rcases hm with rfl | hm
        · exact .inl List.mem_cons_self
        · exact .inr (List.mem_append_right _ hm)
  tried := by
    intro p hp b hb
    rcases List.mem_cons.mp hp with rfl | hp
    · exact hc.mem_ids_of_arrow hb
    · rcases List.mem_cons.mp hp with rfl | hp
      · exact h.tried _ List.mem_cons_self b (List.mem_cons_of_mem _ hb)
      · exact h.tried p (List.mem_cons_of_mem _ hp) b hb

end Explored

/-- A search that has enough steps and finds nothing has met all that can be reached. -/
theorem not_reaches_of_pathBack (hc : g.Coherent) (steps : Nat) (visited path : List Nat)
    (frontier : List (List Nat)) (h : g.Explored start visited frontier)
    (hsteps : g.searchWork start visited frontier < steps)
    (hnone : g.pathBack start steps visited path frontier = none) :
    ¬TransGen g.Arrow start start := by
  fun_induction pathBack g start steps visited path frontier with
  | case1 => omega
  | case2 => exact fun hcycle => h.start_unvisited (h.met_of_done hcycle)
  | case3 steps visited path frontier ih =>
      refine ih h.leave ?_ hnone
      simp only [searchWork, List.flatten_cons, List.nil_append, List.length_cons] at hsteps ⊢
      omega
  | case4 => simp at hnone
  | case5 steps visited path next pending frontier hs hv ih =>
      refine ih (h.skip (by simpa using hv)) ?_ hnone
      simp only [searchWork, List.flatten_cons, List.cons_append, List.length_cons] at hsteps ⊢
      omega
  | case6 steps visited path next pending frontier hs hv ih =>
      refine ih (h.enter hc hs) ?_ hnone
      have hids := h.tried _ List.mem_cons_self next List.mem_cons_self
      have hunmet : next ∈ g.unmet start visited :=
        List.mem_filter.mpr ⟨hids, by simpa [hs] using hv⟩
      have hwork := workOf_unmet_cons hc hunmet
      simp only [searchWork, List.flatten_cons, List.cons_append, List.length_cons,
        List.length_append] at hsteps ⊢
      omega

theorem not_reaches_of_loopAt {name : String} (hc : g.Coherent) (hnode : g.node? name = some start)
    (hnone : g.loopAt name = none) : ¬TransGen g.Arrow start start := by
  simp only [loopAt, hnode, Option.bind_eq_bind, Option.bind_some, Option.bind_eq_none_iff] at hnone
  have hpath : g.pathBack start (g.numEdges + g.numNodes + 2) [] [start] [g.successors start] =
      none := by
    by_contra hsome
    obtain ⟨path, hpath⟩ := Option.ne_none_iff_exists'.mp hsome
    simpa using hnone path hpath
  have hs : start ∈ g.nodes.map (·.id) := by
    obtain ⟨node, hm, hid, -⟩ := exists_node_of_keyAt? (hc.keyAt?_node? hnode)
    exact List.mem_map.mpr ⟨node, hm, hid⟩
  have hwork := searchWork_start hc hs
  exact not_reaches_of_pathBack hc _ _ _ _ (.init hc) (by omega) hpath

/-! ## Checked changes -/

theorem transGen_arrow {good : String → Prop} (hgood : ∀ key, good key → ¬g.IsSplit key)
    {a b : String}
    (h : TransGen (fun x y => g.References x y ∧ good x ∧ good y) a b) :
    ∃ i j, g.index.get? a = some i ∧ g.index.get? b = some j ∧ TransGen g.Arrow i j := by
  have hstep : ∀ {x y}, g.References x y → good x → good y →
      ∃ i j, g.index.get? x = some i ∧ g.index.get? y = some j ∧ g.Arrow i j := by
    rintro x y ⟨_, edge, hm, hsource, htarget, -⟩ hx hy
    exact ⟨edge.source, edge.target, Coherent.eq_of_keyAt? (hgood x hx) hsource,
      Coherent.eq_of_keyAt? (hgood y hy) htarget, arrow_iff.mpr ⟨edge, hm, rfl, rfl⟩⟩
  induction h with
  | single h =>
      obtain ⟨i, j, hi, hj, harrow⟩ := hstep h.1 h.2.1 h.2.2
      exact ⟨i, j, hi, hj, .single harrow⟩
  | tail _ h ih =>
      obtain ⟨i, j, hi, hj, hwalk⟩ := ih
      obtain ⟨j', k, hj', hk, harrow⟩ := hstep h.1 h.2.1 h.2.2
      rw [hj] at hj'
      cases hj'
      exact ⟨i, k, hi, hk, hwalk.tail harrow⟩

/-- After a check of several formulas, no cycle runs through keys with one node each. -/
theorem not_closed_of_cycleWithAll {formulas : List (String × List String)} (hc : g.Coherent)
    (hac : g.Acyclic) (hcheck : g.cycleWithAll formulas = none) (good : String → Prop)
    (hgood : ∀ key, good key → ¬g.IsSplit key) (key : String) :
    ¬TransGen (fun x y => (g.setAll formulas).References x y ∧ good x ∧ good y) key key := by
  intro hcycle
  have hgood' : ∀ key, good key → ¬(g.setAll formulas).IsSplit key := fun key hk =>
    mt (isSplit_setAll hc).mp (hgood key hk)
  -- A cycle through a formula of the check would have been found from there.
  have hformula : ∀ k, (∃ f ∈ formulas, keyOf f.1 = k) →
      ¬TransGen (fun x y => (g.setAll formulas).References x y ∧ good x ∧ good y) k k := by
    rintro k ⟨f, hf, rfl⟩ hk
    obtain ⟨i, j, hi, hj, hwalk⟩ := transGen_arrow hgood' hk
    rw [hi] at hj
    cases hj
    simp only [cycleWithAll, List.findSome?_eq_none_iff] at hcheck
    exact not_reaches_of_loopAt hc.setAll hi (hcheck f hf) hwalk
  -- Any other cycle was there before.
  refine hac key (TransGen.mono ?_ key key (exists_closed_avoiding hformula hcycle))
  rintro x y ⟨⟨⟨position, hlink⟩, -, -⟩, hx, -⟩
  exact ⟨position, (links_setAll_of_ne hc fun f hf he => hx ⟨f, hf, he⟩).mp hlink⟩

/-- A key whose references after some formulas need not be those that were checked: its name has
several nodes, or a formula of it was checked and is not committed. -/
def Unchecked (g : Graph) (checked committed : List (String × List String)) (key : String) : Prop :=
  g.IsSplit key ∨ ∃ f ∈ checked, keyOf f.1 = key ∧ f ∉ committed

variable {checked committed : List (String × List String)}

/-- At every other key, the committed formulas have the references that were checked. -/
theorem references_of_not_unchecked (hc : g.Coherent) (hsub : ∀ f ∈ committed, f ∈ checked)
    (hkeys : (committed.map fun f => keyOf f.1).Nodup) {x y : String}
    (hx : ¬g.Unchecked checked committed x) (h : (g.setAll committed).References x y) :
    (g.setAll checked).References x y := by
  obtain ⟨hs, hall⟩ := not_or.mp hx
  replace hall : ∀ f ∈ checked, keyOf f.1 = x → f ∈ committed := fun f hf hk =>
    by_contra fun hn => hall ⟨f, hf, hk, hn⟩
  obtain ⟨position, hlink⟩ := h
  refine ⟨position, ?_⟩
  by_cases hany : ∃ f ∈ checked, keyOf f.1 = x
  · obtain ⟨f, hf, hk⟩ := hany
    have hsame : ∀ f' ∈ committed, keyOf f'.1 = x → f'.2 = f.2 := by
      intro f' hf' hk'
      rw [List.inj_on_of_nodup_map hkeys hf' (hall f hf hk) (hk'.trans hk.symm)]
    rw [links_setAll_self hc hs (hall f hf hk) hk hsame] at hlink
    exact (links_setAll_self hc hs hf hk fun f' hf' hk' =>
      hsame f' (hall f' hf' hk') hk').mpr hlink
  · have hnone : ∀ f ∈ checked, keyOf f.1 ≠ x := fun f hf hk => hany ⟨f, hf, hk⟩
    rw [links_setAll_of_ne hc fun f hf => hnone f (hsub f hf)] at hlink
    exact (links_setAll_of_ne hc hnone).mpr hlink

/-- When part of the checked formulas is committed, a cycle can only come from a key that was not
really checked. -/
theorem acyclic_setAll_iff (hc : g.Coherent) (hac : g.Acyclic)
    (hcheck : g.cycleWithAll checked = none) (hsub : ∀ f ∈ committed, f ∈ checked)
    (hkeys : (committed.map fun f => keyOf f.1).Nodup) :
    (g.setAll committed).Acyclic ↔ ∀ key, g.Unchecked checked committed key →
      ¬TransGen (g.setAll committed).References key key := by
  refine ⟨fun h key _ => h key, fun hloops key hcycle => ?_⟩
  refine not_closed_of_cycleWithAll hc hac hcheck (fun k => ¬g.Unchecked checked committed k)
    (fun k hk hs => hk (.inl hs)) key
    (TransGen.mono ?_ key key (exists_closed_avoiding hloops hcycle))
  rintro x y ⟨href, hx, hy⟩
  exact ⟨references_of_not_unchecked hc hsub hkeys hx href, hx, hy⟩

/-- A formula that closes no cycle can be set, and so can one with fewer references. -/
theorem acyclic_setReferences {result : String} {references fewer : List String}
    (hw : g.WellFormed) (hac : g.Acyclic) (hcheck : g.cycleWith result references = none)
    (hfewer : ∀ key ∈ fewer.map keyOf, key ∈ references.map keyOf) :
    (g.setReferences result fewer).Acyclic := by
  intro key hcycle
  have hall : g.cycleWithAll [(result, references)] = none := by
    simpa [cycleWithAll, setAll, cycleWith] using hcheck
  refine not_closed_of_cycleWithAll hw.toCoherent hac hall (fun _ => True)
    (fun k _ => hw.not_split k) key (TransGen.mono ?_ key key hcycle)
  rintro x y ⟨position, hlink⟩
  refine ⟨?_, trivial, trivial⟩
  by_cases hx : x = keyOf result
  · subst hx
    rw [links_setReferences_self hw.toCoherent (hw.not_split _)] at hlink
    obtain ⟨p, hp⟩ := List.getElem?_of_mem (hfewer y (List.mem_of_getElem? hlink))
    exact ⟨p, (links_setReferences_self hw.toCoherent (hw.not_split _)).mpr hp⟩
  · exact ⟨position, (links_setReferences_of_ne hw.toCoherent hx).mpr
      ((links_setReferences_of_ne hw.toCoherent hx).mp hlink)⟩

/-- A graph with some of the edges of a graph without cycles has none either. -/
theorem Acyclic.of_links {g' : Graph} (hac : g.Acyclic)
    (h : ∀ {key target position}, g'.Links key target position → g.Links key target position) :
    g'.Acyclic := by
  intro key hcycle
  refine hac key (TransGen.mono ?_ key key hcycle)
  rintro x y ⟨position, hlink⟩
  exact ⟨position, h hlink⟩

theorem acyclic_dropFormula {result : String} (hw : g.WellFormed) (hac : g.Acyclic) :
    (g.dropFormula result).Acyclic :=
  hac.of_links fun hlink => ((links_dropFormula hw).mp hlink).2

theorem acyclic_empty : Acyclic {} := by
  intro key hcycle
  obtain ⟨_, ⟨_, hlink⟩, -⟩ := TransGen.head'_iff.mp hcycle
  exact not_links_empty hlink

end Graph

end Parametric
