import Mathlib
import Parametric.Proofs.Dependency.Labels
import Parametric.Proofs.Dependency.Search

/-!
# Loops

The search for a way back to a name keeps the path that it has taken. The path runs along references and meets no
node twice, so what the search gives is a simple loop, and it gives one whenever there is any. In a graph without
loops a check of the changed formulas is therefore exact.
-/

namespace Parametric.Graph

open Relation

variable {g : Graph} {start : Nat} {key name result : String} {references : List String}
  {formulas : List (String × List String)}

/-! ## The path of the search -/

/-- The path of a search leads along arrows from the start to its head, and meets no node twice. What is untried
beside each node are successors of it. -/
structure Trail (g : Graph) (start : Nat) (visited path : List Nat) (frontier : List (List Nat)) : Prop where
  follows : g.Follows start path frontier
  chain : path.IsChain fun a b => g.Arrow b a
  last : ∀ node ∈ path.getLast?, node = start
  nodup : path.Nodup
  seen : ∀ node ∈ path, node = start ∨ node ∈ visited

namespace Trail

variable {visited path pending : List Nat} {frontier : List (List Nat)} {next : Nat}

theorem init : g.Trail start [] [start] [g.successors start] where
  follows := .init
  chain := .singleton _
  last := by simp
  nodup := List.nodup_singleton _
  seen := by simp

theorem leave (h : g.Trail start visited path ([] :: frontier)) : g.Trail start visited path.tail frontier := by
  obtain ⟨hfollows, hchain, hlast, hnodup, hseen⟩ := h
  cases hfollows with
  | @cons node _ path _ _ htail =>
      refine ⟨htail, hchain.tail, fun last hmem => hlast last ?_, (List.nodup_cons.mp hnodup).2,
        fun node hnode => hseen node (List.mem_cons_of_mem _ hnode)⟩
      cases path with
      | nil => simp at hmem
      | cons => simpa using hmem

theorem skip (h : g.Trail start visited path ((next :: pending) :: frontier)) :
    g.Trail start visited path (pending :: frontier) := by
  obtain ⟨hfollows, hchain, hlast, hnodup, hseen⟩ := h
  cases hfollows with
  | cons hnode htail =>
      exact ⟨.cons ⟨hnode.1, fun b hb => hnode.2 b (List.mem_cons_of_mem _ hb)⟩ htail, hchain, hlast, hnodup, hseen⟩

theorem enter (h : g.Trail start visited path ((next :: pending) :: frontier)) (hs : next ≠ start)
    (hv : next ∉ visited) :
    g.Trail start (next :: visited) (next :: path) (g.successors next :: pending :: frontier) := by
  have hrest := h.skip
  have hnew : next ∉ path := fun hmem => (h.seen next hmem).elim hs hv
  obtain ⟨hfollows, hchain, hlast, hnodup, hseen⟩ := h
  cases hfollows with
  | @cons node _ path _ hnode _ =>
      have harrow := hnode.2 next List.mem_cons_self
      refine ⟨.cons ⟨hnode.1.tail harrow, fun _ hb => hb⟩ hrest.follows, .cons_cons harrow hchain,
        fun last hmem => hlast last (by simpa using hmem), List.nodup_cons.mpr ⟨hnew, hnodup⟩, ?_⟩
      intro other hother
      rcases List.mem_cons.mp hother with rfl | hother
      · exact .inr List.mem_cons_self
      · exact (hseen other hother).imp_right (List.mem_cons_of_mem _)

theorem exists_init (h : g.Trail start visited path (pending :: frontier)) : ∃ init, path = init ++ [start] := by
  obtain ⟨hfollows, -, hlast, -, -⟩ := h
  cases hfollows with
  | @cons node _ path _ _ _ =>
      refine List.getLast?_eq_some_iff.mp ?_
      obtain ⟨last, hget⟩ : ∃ last, (node :: path).getLast? = some last := ⟨_, List.getLast?_cons⟩
      rw [hget, hlast last hget]

end Trail

/-- What a search finds leads along arrows from the start back to it, and meets no other node twice. -/
theorem closed_of_pathBack (steps : Nat) (visited path : List Nat) (frontier : List (List Nat))
    (h : g.Trail start visited path frontier) {found : List Nat}
    (hfound : g.pathBack start steps visited path frontier = some found) :
    ∃ middle, found = start :: (middle ++ [start]) ∧ found.IsChain g.Arrow ∧ (start :: middle).Nodup := by
  fun_induction pathBack g start steps visited path frontier with
  | case1 | case2 => cases hfound
  | case3 steps visited path frontier ih => exact ih h.leave hfound
  | case4 steps visited path pending frontier =>
      obtain rfl := Option.some.inj hfound
      obtain ⟨init, rfl⟩ := h.exists_init
      have hback : (start :: (init ++ [start])).reverse = start :: (init.reverse ++ [start]) := by simp
      refine ⟨init.reverse, hback, ?_, ?_⟩
      · rw [List.isChain_reverse]
        obtain ⟨hfollows, hchain, -⟩ := h
        generalize init ++ [start] = path at hfollows hchain
        cases hfollows with
        | cons hnode _ => exact .cons_cons (hnode.2 start List.mem_cons_self) hchain
      · have hnodup := List.nodup_reverse.mpr h.nodup
        rwa [List.reverse_append] at hnodup
  | case5 steps visited path next pending frontier hs hv ih => exact ih h.skip hfound
  | case6 steps visited path next pending frontier hs hv ih =>
      exact ih (h.enter hs (by simpa using hv)) hfound

/-! ## Loops of names -/

/-- An edge leads from the node of one name to the node of another one. -/
def Joins (g : Graph) (source target : String) : Prop :=
  ∃ edge ∈ g.edges, g.nameOf? edge.source = some source ∧ g.nameOf? edge.target = some target

/-- Names along edges from the name of a node back to it, of which no other one comes twice, in any letter case. -/
structure IsLoop (g : Graph) (label : String) (names : List String) : Prop where
  closed : ∃ middle, names = label :: (middle ++ [label]) ∧ ((label :: middle).map keyOf).Nodup
  joined : names.IsChain g.Joins

theorem Coherent.exists_name_of_arrow (h : g.Coherent) {a b : Nat} (hab : g.Arrow a b) :
    ∃ source target, g.nameOf? a = some source ∧ g.nameOf? b = some target ∧ g.Joins source target := by
  obtain ⟨edge, hm, rfl, rfl⟩ := arrow_iff.mp hab
  obtain ⟨_, hsource⟩ := h.source_known edge hm
  obtain ⟨_, htarget⟩ := h.target_known edge hm
  obtain ⟨source, hsource, -⟩ := Option.map_eq_some_iff.mp hsource
  obtain ⟨target, htarget, -⟩ := Option.map_eq_some_iff.mp htarget
  exact ⟨source, target, hsource, htarget, edge, hm, hsource, htarget⟩

theorem Coherent.exists_name_of_isChain (h : g.Coherent) {rest : List Nat} (hchain : (start :: rest).IsChain g.Arrow) :
    ∀ node ∈ rest, ∃ name, g.nameOf? node = some name := by
  induction rest generalizing start with
  | nil => simp
  | cons next rest ih =>
      obtain ⟨harrow, hrest⟩ := List.isChain_cons_cons.mp hchain
      obtain ⟨-, name, -, hname, -⟩ := h.exists_name_of_arrow harrow
      exact List.forall_mem_cons.mpr ⟨⟨name, hname⟩, ih hrest⟩

/-- What is found for a name is a loop from the name of its node. -/
theorem WellFormed.isLoop_of_loopAt (h : g.WellFormed) {label : String} (hlabel : g.label? (keyOf name) = some label)
    {names : List String} (hfound : g.loopAt name = some names) : g.IsLoop label names := by
  simp only [loopAt, Option.bind_eq_bind, Option.bind_eq_some_iff] at hfound
  obtain ⟨start, hstart, path, hpath, hnames⟩ := hfound
  obtain rfl := Option.some.inj hnames
  obtain ⟨middle, rfl, hchain, hnodup⟩ := closed_of_pathBack _ _ _ _ .init hpath
  have hname : g.nameOf? start = some label := by
    rw [label?, show g.index.get? (keyOf name) = some start from hstart] at hlabel
    exact hlabel
  let text (id : Nat) : String := (g.nameOf? id).getD ""
  have hknown : ∀ id ∈ start :: (middle ++ [start]), g.nameOf? id = some (text id) := by
    intro id hid
    obtain ⟨known, hsome⟩ : ∃ known, g.nameOf? id = some known := by
      rcases List.mem_cons.mp hid with rfl | hid
      · exact ⟨label, hname⟩
      · exact h.exists_name_of_isChain hchain id hid
    simp only [text, hsome, Option.getD_some]
  have htext : text start = label := Option.some.inj ((hknown start List.mem_cons_self).symm.trans hname)
  have hlabels : g.labels (start :: (middle ++ [start])) = (start :: (middle ++ [start])).map text := by
    rw [labels, List.filterMap_congr hknown]
    exact congrFun (List.filterMap_eq_map) _
  rw [hlabels]
  constructor
  case closed =>
    refine ⟨middle.map text, by simp [htext], ?_⟩
    rw [← htext, ← List.map_cons (f := text), List.map_map]
    have hmem : ∀ id ∈ start :: middle, g.keyAt? id = some (keyOf (text id)) := fun id hid => by
      rw [keyAt?, hknown id (List.mem_append_left [start] hid), Option.map_some]
    refine hnodup.map_on fun a ha b hb hkey => ?_
    exact Coherent.keyAt?_inj (h.not_split _) (hmem a ha) ((hmem b hb).trans (congrArg some hkey.symm))
  case joined =>
    refine List.isChain_map_of_isChain text (fun a b hab => ?_) hchain
    obtain ⟨source, target, hsource, htarget, hjoins⟩ := h.exists_name_of_arrow hab
    simpa only [text, hsource, htarget, Option.getD_some] using hjoins

/-! ## Exactness of the checks -/

theorem WellFormed.transGen_references_iff (h : g.WellFormed) (hstart : g.node? name = some start) :
    TransGen g.References (keyOf name) (keyOf name) ↔ TransGen g.Arrow start start := by
  constructor
  · intro hwalk
    have hgood : TransGen (fun x y => g.References x y ∧ True ∧ True) (keyOf name) (keyOf name) :=
      TransGen.mono (fun _ _ href => ⟨href, trivial, trivial⟩) _ _ hwalk
    obtain ⟨i, j, hi, hj, hwalk⟩ := transGen_arrow (fun key _ => h.not_split key) hgood
    obtain rfl : start = i := Option.some.inj (hstart.symm.trans hi)
    obtain rfl : start = j := Option.some.inj (hstart.symm.trans hj)
    exact hwalk
  · intro hwalk
    obtain ⟨key, target, hkey, htarget, hwalk⟩ := h.references_of_arrow hwalk
    have hname := h.keyAt?_node? hstart
    obtain rfl : keyOf name = key := Option.some.inj (hname.symm.trans hkey)
    obtain rfl : keyOf name = target := Option.some.inj (hname.symm.trans htarget)
    exact hwalk

/-- A loop is found for a name exactly if references lead from the name back to itself. -/
theorem WellFormed.isSome_loopAt_iff (h : g.WellFormed) (hstart : g.node? name = some start) :
    (g.loopAt name).isSome = true ↔ TransGen g.References (keyOf name) (keyOf name) := by
  rw [h.transGen_references_iff hstart]
  constructor
  · intro hsome
    obtain ⟨names, hfound⟩ := Option.isSome_iff_exists.mp hsome
    simp only [loopAt, Option.bind_eq_bind, Option.bind_eq_some_iff] at hfound
    obtain ⟨start', hstart', path, hpath, -⟩ := hfound
    obtain rfl : start = start' := Option.some.inj (hstart.symm.trans hstart')
    exact reaches_of_pathBack _ _ _ _ .init hpath
  · intro hwalk
    by_contra hnone
    exact not_reaches_of_loopAt h.toCoherent hstart (Option.not_isSome_iff_eq_none.mp hnone) hwalk

/-- In a graph without loops, several formulas pass the check exactly if they leave it without loops. -/
theorem WellFormed.cycleWithAll_eq_none_iff (h : g.WellFormed) (hac : g.Acyclic) :
    g.cycleWithAll formulas = none ↔ (g.setAll formulas).Acyclic := by
  constructor
  · intro hcheck key hcycle
    exact not_closed_of_cycleWithAll h.toCoherent hac hcheck (fun _ => True) (fun key _ => h.not_split key) key
      (TransGen.mono (fun _ _ href => ⟨href, trivial, trivial⟩) _ _ hcycle)
  · exact cycleWithAll_eq_none h.toCoherent

theorem cycleWithAll_singleton : g.cycleWithAll [(result, references)] = g.cycleWith result references := by
  simp [cycleWithAll, setAll, cycleWith]

/-! ## Graphs that formulas build -/

/-- A change of the formula of one result. -/
inductive Update where
  | set (result : String) (references : List String)
  | drop (result : String)

def updated (g : Graph) : Update → Graph
  | .set result references => g.setReferences result references
  | .drop result => g.dropFormula result

def built (updates : List Update) : Graph := updates.foldl updated {}

theorem wellFormed_built (updates : List Update) : (built updates).WellFormed := by
  induction updates using List.reverseRecOn with
  | nil => exact .empty
  | append_singleton init update ih =>
      rw [built, List.foldl_concat]
      cases update with
      | set => exact WellFormed.setReferences ih
      | drop => exact WellFormed.dropFormula ih

/-- A cycle is found exactly if the references of a formula lead back to its result, and then it is a loop of the
changed graph. If there was no loop before, a formula, or several ones, pass the check exactly if there is none
afterwards. -/
theorem cycleWith_built (updates : List Update) (result : String) (references : List String)
    (formulas : List (String × List String)) :
    let g := built updates
    let changed := g.setReferences result references
    ((g.cycleWith result references).isSome = true ↔ TransGen changed.References (keyOf result) (keyOf result)) ∧
      (∀ names, g.cycleWith result references = some names →
        ∃ label, changed.label? (keyOf result) = some label ∧ changed.IsLoop label names) ∧
      (g.Acyclic → (g.cycleWith result references = none ↔ changed.Acyclic) ∧
        (g.cycleWithAll formulas = none ↔ (g.setAll formulas).Acyclic)) := by
  intro g changed
  have hw : g.WellFormed := wellFormed_built updates
  have hchanged : changed.WellFormed := hw.setReferences
  have hsome : (changed.label? (keyOf result)).isSome = true := by
    rw [label?_setReferences hw.toCoherent, Option.isSome_or, isSome_firstSpelling?.mpr
      ⟨result, List.mem_cons_self, rfl⟩, Bool.or_true]
  obtain ⟨label, hlabel⟩ := Option.isSome_iff_exists.mp hsome
  obtain ⟨start, hstart, -⟩ := Option.bind_eq_some_iff.mp hlabel
  refine ⟨hchanged.isSome_loopAt_iff hstart, fun names hfound => ⟨label, hlabel, hchanged.isLoop_of_loopAt hlabel hfound⟩,
    fun hac => ⟨?_, hw.cycleWithAll_eq_none_iff hac⟩⟩
  rw [← cycleWithAll_singleton]
  exact hw.cycleWithAll_eq_none_iff hac

def twoUpdates : List Update := [.set "a" ["b", "c"], .set "b" ["c"]]

/-- A formula that leads from `c` over `a` and `b` back to `c` is found out, and two others pass. -/
theorem cycleWith_built_chain :
    let changed := (built twoUpdates).setReferences "C" ["x", "A"]
    (built twoUpdates).Acyclic ∧ ¬changed.Acyclic ∧
      (∃ label, changed.label? (keyOf "C") = some label ∧ changed.IsLoop label ["c", "a", "b", "c"]) ∧
      ((built twoUpdates).setAll [("c", ["d"]), ("d", ["e"])]).Acyclic := by
  have hnone : ({} : Graph).cycleWithAll [("a", ["b", "c"]), ("b", ["c"])] = none := by cbv
  have hac : (built twoUpdates).Acyclic := (WellFormed.empty.cycleWithAll_eq_none_iff acyclic_empty).mp hnone
  have hfound : (built twoUpdates).cycleWith "C" ["x", "A"] = some ["c", "a", "b", "c"] := by cbv
  have hpass : (built twoUpdates).cycleWithAll [("c", ["d"]), ("d", ["e"])] = none := by cbv
  obtain ⟨-, hloop, hchecks⟩ := cycleWith_built twoUpdates "C" ["x", "A"] [("c", ["d"]), ("d", ["e"])]
  obtain ⟨hone, hall⟩ := hchecks hac
  exact ⟨hac, fun hafter => Option.some_ne_none _ (hfound.symm.trans (hone.mpr hafter)), hloop _ hfound,
    hall.mp hpass⟩

end Parametric.Graph
