import Parametric.Proofs.Dependency.Cycle
import Parametric.Proofs.Dependency.Triples
import Parametric.State.Renaming

/-!
# Renamed nodes

When a node gets another name, its edges count for the key of that name. They lead from there to
what they led to before, so what can go wrong is what stands under the new key already.
-/

namespace Parametric

open Relation

/-! ## Relations with the steps of one point moved to another -/

section Moved

variable {α : Type} {r r' : α → α → Prop} {a b : α}

/-- If the steps of a point are moved to one that has none, they close a circle exactly if there was
a way from the one to the other. -/
theorem acyclic_moved_iff (hne : a ≠ b) (hnone : ∀ y, ¬r b y)
    (hmoved : ∀ x y, r' x y ↔ (x = b ∧ r a y) ∨ (x ≠ a ∧ r x y)) (hac : ∀ x, ¬TransGen r x x) :
    (∀ x, ¬TransGen r' x x) ↔ ¬TransGen r a b := by
  constructor
  · intro hac' hway
    have hlift : ∀ {y}, TransGen r a y → TransGen r' b y := by
      intro y hy
      induction hy with
      | single hstep => exact .single ((hmoved _ _).mpr (.inl ⟨rfl, hstep⟩))
      | tail hto hstep ih =>
          refine ih.tail ((hmoved _ _).mpr (.inr ⟨?_, hstep⟩))
          rintro rfl
          exact hac _ hto
    exact hac' b (hlift hway)
  · intro hway x hcycle
    have hdrop : ∀ {y}, TransGen r' b y → TransGen r a y := by
      intro y hy
      induction hy with
      | single hstep =>
          rcases (hmoved _ _).mp hstep with ⟨-, hstep⟩ | ⟨-, hstep⟩
          · exact .single hstep
          · exact absurd hstep (hnone _)
      | tail _ hstep ih =>
          rcases (hmoved _ _).mp hstep with ⟨rfl, -⟩ | ⟨-, hstep⟩
          · exact absurd ih hway
          · exact ih.tail hstep
    -- No circle runs through the new point, so any other one was there before.
    have hbad : ∀ c, c = b → ¬TransGen r' c c := by
      rintro c rfl hc
      exact hway (hdrop hc)
    refine hac x (TransGen.mono ?_ x x (exists_closed_avoiding hbad hcycle))
    rintro y z ⟨hstep, hy, -⟩
    rcases (hmoved _ _).mp hstep with ⟨hb, -⟩ | ⟨-, hstep⟩
    · exact absurd hb hy
    · exact hstep

end Moved

/-! ## Tables -/

namespace Formulas

variable {t : Formulas} {f : StoredFormula} {old new key target : String} {position : Nat}

theorem moveResult_of_none (h : t.formula? old = none) : t.moveResult old new = t := by
  simp only [moveResult, h]

theorem moveResult_of_some (h : t.formula? old = some f) : t.moveResult old new =
    SortedMap.insert (t.erase (keyOf old)) (keyOf new) { f with result := new } := by
  simp only [moveResult, h]

theorem get?_moveResult (h : t.formula? old = some f) : (t.moveResult old new).get? key =
    if key = keyOf new then some { f with result := new }
    else if key = keyOf old then none else t.get? key := by
  rw [moveResult_of_some h, SortedMap.get?_insert, SortedMap.get?_erase]

theorem get?_moveResult_of_ne (hfree : keyOf old = keyOf new ∨
      ∀ f, t.formula? old = some f → t.formula? new = none) (hk : key ≠ keyOf old)
    (hget : t.get? key = some f) : (t.moveResult old new).get? key = some f := by
  cases hf : t.formula? old with
  | none =>
      rw [moveResult_of_none hf]
      exact hget
  | some moved =>
      have hnew : key ≠ keyOf new := by
        rintro rfl
        rcases hfree with heq | hfree
        · exact hk heq.symm
        · exact absurd ((hfree moved hf).symm.trans hget) (by simp)
      rw [get?_moveResult hf, if_neg hnew, if_neg hk, hget]

theorem Keyed.moveResult (h : t.Keyed) (old new : String) : (t.moveResult old new).Keyed := by
  cases hf : t.formula? old with
  | none => rwa [moveResult_of_none hf]
  | some f =>
      rw [moveResult_of_some hf]
      exact h.erase.insert { f with result := new }

theorem contains_moveResult : (t.moveResult old new).contains key = true ↔
    if t.contains (keyOf old) = true then key = keyOf new ∨ (key ≠ keyOf old ∧ t.contains key = true)
    else t.contains key = true := by
  cases hf : t.formula? old with
  | none =>
      have hnot : t.contains (keyOf old) = false := SortedMap.contains_eq_false_iff.mpr hf
      rw [moveResult_of_none hf, hnot, if_neg Bool.false_ne_true]
  | some f =>
      rw [moveResult_of_some hf, if_pos (SortedMap.contains_iff.mpr ⟨f, hf⟩), SortedMap.contains_insert,
        SortedMap.contains_erase]

theorem size_moveResult (h : t.formula? old = some f) :
    (t.moveResult old new).size = t.size ↔ keyOf old = keyOf new ∨ t.formula? new = none := by
  have hold := SortedMap.size_erase (SortedMap.contains_iff.mpr ⟨f, h⟩)
  have hnew : SortedMap.contains (t.erase (keyOf old)) (keyOf new) = true ↔
      ¬(keyOf old = keyOf new ∨ t.formula? new = none) := by
    rw [SortedMap.contains_erase, not_or, ne_comm, ← Bool.not_eq_false,
      SortedMap.contains_eq_false_iff, formula?]
  rw [moveResult_of_some h, SortedMap.size_insert]
  by_cases hc : SortedMap.contains (t.erase (keyOf old)) (keyOf new) = true
  · have hlost := SortedMap.size_erase hc
    exact iff_of_false (by omega) (hnew.mp hc)
  · have hkept : (SortedMap.erase (t.erase (keyOf old)) (keyOf new)).keys =
        SortedMap.keys (t.erase (keyOf old)) := by
      refine SortedMap.keys_congr fun key => ?_
      rw [SortedMap.contains_erase]
      refine and_iff_right_of_imp fun hmem => ?_
      rintro rfl
      exact hc hmem
    rw [SortedMap.size_eq, hkept, ← SortedMap.size_eq]
    exact iff_of_true hold (not_not.mp fun hn => hc (hnew.mpr hn))

theorem links_moveResult (hfree : keyOf old = keyOf new ∨
      ∀ f, t.formula? old = some f → t.formula? new = none) :
    (t.moveResult old new).Links key target position ↔
      (key = keyOf new ∧ t.Links (keyOf old) target position) ∨
        (key ≠ keyOf old ∧ t.Links key target position) := by
  cases hf : t.formula? old with
  | none =>
      have hnot : ¬t.Links (keyOf old) target position := by
        rintro ⟨f, hf', -⟩
        exact absurd (hf.symm.trans hf') (by simp)
      rw [moveResult_of_none hf]
      refine ⟨fun hl => .inr ⟨fun hk => hnot (hk ▸ hl), hl⟩, ?_⟩
      rintro (⟨-, hl⟩ | ⟨-, hl⟩)
      · exact absurd hl hnot
      · exact hl
  | some f =>
      constructor
      · rintro ⟨f', hf', hp⟩
        rw [get?_moveResult hf] at hf'
        split at hf'
        · cases hf'
          exact .inl ⟨‹_›, f, hf, hp⟩
        · split at hf'
          · cases hf'
          · exact .inr ⟨‹_›, f', hf', hp⟩
      · rintro (⟨rfl, f', hf', hp⟩ | ⟨hk, f', hf', hp⟩)
        · cases hf.symm.trans hf'
          exact ⟨{ f with result := new }, by rw [get?_moveResult hf, if_pos rfl], hp⟩
        · exact ⟨f', get?_moveResult_of_ne hfree hk hf', hp⟩

end Formulas

/-! ## Graphs -/

namespace Graph

variable {g : Graph} {t : Formulas} {id : Nat} {old new key target : String} {position : Nat}

theorem rename_of_none (h : g.node? old = none) : g.rename old new = g := by
  simp only [Graph.rename, h]

theorem edges_rename : (g.rename old new).edges = g.edges := by
  simp only [Graph.rename]
  split <;> rfl

theorem keyAt?_rename (h : g.Coherent) (hid : g.node? old = some id) {i : Nat} :
    (g.rename old new).keyAt? i = if i = id then some (keyOf new) else g.keyAt? i := by
  have hnodes : (g.rename old new).nodes =
      g.nodes.map fun node => if node.id == id then ⟨id, new⟩ else node := by
    simp only [Graph.rename, hid]
  rw [keyAt?_renameNode hnodes]
  split
  · rename_i hi
    rw [hi, h.keyAt?_node? hid, Option.map_some]
  · rfl

theorem contains_results_rename (hid : g.node? old = some id) :
    (g.rename old new).results.contains key = true ↔
      if g.results.contains (keyOf old) = true then
        key = keyOf new ∨ (key ≠ keyOf old ∧ g.results.contains key = true)
      else g.results.contains key = true := by
  simp only [Graph.rename, hid]
  split
  · rw [SortedMap.contains_insert, SortedMap.contains_erase]
  · rfl

theorem target_ne_of_users {name : String} (h : g.Coherent) (hid : g.node? name = some id)
    (husers : g.users name = []) : ∀ edge ∈ g.edges, edge.target ≠ id := by
  intro edge hm htarget
  obtain ⟨key, hkey⟩ := h.source_known edge hm
  obtain ⟨label, hlabel, -⟩ := Option.map_eq_some_iff.mp hkey
  have hmem : label ∈ g.users name := by
    simp only [users, hid, ascending, List.mem_mergeSort, List.mem_eraseDups, labels,
      List.mem_filterMap, List.mem_map, edgesTo, List.mem_filter, beq_iff_eq]
    exact ⟨edge.source, ⟨edge, ⟨hm, htarget⟩, rfl⟩, hlabel⟩
  rw [husers] at hmem
  exact List.not_mem_nil hmem

theorem users_eq_nil_iff {name : String} (h : g.Coherent) :
    g.users name = [] ↔ ∀ id, g.node? name = some id → ∀ edge ∈ g.edges, edge.target ≠ id := by
  constructor
  · exact fun husers id hid => target_ne_of_users h hid husers
  · intro hunused
    simp only [users]
    cases hid : g.node? name with
    | none => rfl
    | some id =>
        have hnone : g.edgesTo id = [] := List.filter_eq_nil_iff.mpr fun edge hm => by simpa using hunused id hid edge hm
        simp [hnone, labels, ascending]

theorem node?_rename_of_ne {name : String} (hold : keyOf name ≠ keyOf old) (hnew : keyOf name ≠ keyOf new) :
    (g.rename old new).node? name = g.node? name := by
  simp only [Graph.rename]
  cases hid : g.node? old with
  | none => rfl
  | some id => simp only [node?, SortedMap.get?_insert, if_neg hnew, SortedMap.get?_erase, if_neg hold]

theorem users_rename_eq_nil_iff {name : String} (h : g.Coherent) (hold : keyOf name ≠ keyOf old)
    (hnew : keyOf name ≠ keyOf new) : (g.rename old new).users name = [] ↔ g.users name = [] := by
  rw [users_eq_nil_iff h.rename, users_eq_nil_iff h, node?_rename_of_ne hold hnew, edges_rename]

theorem WellFormed.not_links_of_users {name : String} (h : g.WellFormed) (husers : g.users name = []) :
    ¬g.Links key (keyOf name) position := by
  rintro ⟨edge, hm, -, htarget, -⟩
  exact target_ne_of_users h.toCoherent (Coherent.eq_of_keyAt? (h.not_split _) htarget) husers edge hm rfl

/-- All edges of the formulas of a name leave the node that its key stands for. -/
def Gathered (g : Graph) (name : String) : Prop :=
  ∀ edge ∈ g.edges, g.keyAt? edge.source = some (keyOf name) → g.node? name = some edge.source

theorem triples_rename (h : g.Coherent) (hid : g.node? old = some id)
    (hunused : ∀ edge ∈ g.edges, edge.target ≠ id)
    (hmove : keyOf old = keyOf new ∨ g.Gathered old) : (g.rename old new).triples =
      g.triples.map fun t => if t.1 = keyOf old then (keyOf new, t.2) else t := by
  simp only [triples, edges_rename, List.map_filterMap]
  refine List.filterMap_congr fun edge hm => ?_
  obtain ⟨key, hkey⟩ := h.source_known edge hm
  obtain ⟨target, htarget⟩ := h.target_known edge hm
  have htarget' : (g.rename old new).keyAt? edge.target = some target := by
    rw [keyAt?_rename h hid, if_neg (hunused edge hm), htarget]
  have hkey' : (g.rename old new).keyAt? edge.source =
      some (if key = keyOf old then keyOf new else key) := by
    rw [keyAt?_rename h hid]
    by_cases hs : edge.source = id
    · rw [hs, h.keyAt?_node? hid] at hkey
      rw [if_pos hs, if_pos (Option.some.inj hkey).symm]
    · rw [if_neg hs, hkey]
      split
      · rename_i hk
        rcases hmove with heq | hgathered
        · rw [hk, heq]
        · have hown := hgathered edge hm (hk ▸ hkey)
          exact absurd (Option.some.inj (hown.symm.trans hid)) hs
      · rfl
  rw [triple?_eq_some_iff.mpr ⟨hkey, htarget, rfl⟩, Option.map_some,
    triple?_eq_some_iff.mpr ⟨hkey', htarget', rfl⟩]
  split <;> rfl

theorem links_rename (h : g.Coherent) (hid : g.node? old = some id)
    (hunused : ∀ edge ∈ g.edges, edge.target ≠ id)
    (hmove : keyOf old = keyOf new ∨ g.Gathered old) :
    (g.rename old new).Links key target position ↔
      (key = keyOf new ∧ g.Links (keyOf old) target position) ∨
        (key ≠ keyOf old ∧ g.Links key target position) := by
  rw [← mem_triples, triples_rename h hid hunused hmove, List.mem_map]
  constructor
  · rintro ⟨⟨k, t, p⟩, hm, heq⟩
    by_cases hk : k = keyOf old
    · subst hk
      rw [if_pos rfl, Prod.mk.injEq, Prod.mk.injEq] at heq
      obtain ⟨hnew, rfl, rfl⟩ := heq
      exact .inl ⟨hnew.symm, mem_triples.mp hm⟩
    · rw [if_neg hk, Prod.mk.injEq, Prod.mk.injEq] at heq
      obtain ⟨rfl, rfl, rfl⟩ := heq
      exact .inr ⟨hk, mem_triples.mp hm⟩
  · rintro (⟨rfl, hl⟩ | ⟨hk, hl⟩)
    · exact ⟨(keyOf old, target, position), mem_triples.mpr hl, by rw [if_pos rfl]⟩
    · exact ⟨(key, target, position), mem_triples.mpr hl, by rw [if_neg hk]⟩

theorem Mirrors.exists_node (hm : g.Mirrors t) (hkeyed : t.Keyed) (h : g.Coherent)
    {name : String} {f : StoredFormula} (hf : t.formula? name = some f) : ∃ id, g.node? name = some id :=
  h.result_known ((hm.contains_iff hkeyed).mpr (SortedMap.contains_iff.mpr ⟨f, hf⟩))

theorem Mirrors.gathered (hm : g.Mirrors t) (hkeyed : t.Keyed) (h : g.Coherent)
    (hnone : t.formula? old = none) : g.Gathered old := by
  intro edge hmem hsource
  obtain ⟨target, htarget⟩ := h.target_known edge hmem
  exact absurd ⟨edge, hmem, hsource, htarget, rfl⟩ (hm.not_links hkeyed hnone)

/-- A renaming takes a graph that mirrors a table to one that mirrors the renamed table, if the
formula of the node stands nowhere else and the new name has none. -/
theorem Mirrors.rename (hm : g.Mirrors t) (hkeyed : t.Keyed) (h : g.Coherent)
    (hid : g.node? old = some id) (hunused : ∀ edge ∈ g.edges, edge.target ≠ id)
    (hfree : keyOf old = keyOf new ∨ ∀ f, t.formula? old = some f → t.formula? new = none)
    (hmove : keyOf old = keyOf new ∨ g.Gathered old) :
    (g.rename old new).Mirrors (t.moveResult old new) := by
  refine (mirrors_iff (hkeyed.moveResult old new)).mpr ⟨fun key => ?_, ?_, fun k t p => ?_⟩
  · simp only [contains_results_rename hid, Formulas.contains_moveResult, hm.contains_iff hkeyed]
  · rw [triples_rename h hid hunused hmove]
    refine ((mirrors_iff hkeyed).mp hm).2.1.map_on ?_
    -- Two triples can only become the same if the keys of both names had formulas.
    have hclash : ∀ {rest}, (keyOf old, rest) ∈ g.triples → (keyOf new, rest) ∈ g.triples →
        keyOf old = keyOf new := by
      rintro ⟨target, position⟩ hold hnew
      obtain ⟨f, hf, -⟩ := (hm.links_iff hkeyed).mp (mem_triples.mp hold)
      rcases hfree with heq | hfree
      · exact heq
      · exact absurd (mem_triples.mp hnew) (hm.not_links hkeyed (hfree f hf))
    rintro ⟨k, rest⟩ hx ⟨k', rest'⟩ hy heq
    by_cases hk : k = keyOf old <;> by_cases hk' : k' = keyOf old <;>
      simp only [hk, hk', ↓reduceIte, Prod.mk.injEq] at heq <;> obtain ⟨hkey, rfl⟩ := heq
    · rw [hk, hk']
    · subst hk hkey
      rw [hclash hx hy]
    · subst hk' hkey
      rw [hclash hy hx]
    · rw [hkey]
  · rw [links_rename h hid hunused hmove, Formulas.links_moveResult hfree, hm.links_iff hkeyed,
      hm.links_iff hkeyed]

/-- A renaming that moves a formula closes a cycle exactly if the formula referenced the new name,
directly or not. -/
theorem acyclic_rename_iff (h : g.Coherent) (hac : g.Acyclic) (hid : g.node? old = some id)
    (hunused : ∀ edge ∈ g.edges, edge.target ≠ id) (hmove : g.Gathered old)
    (hne : keyOf old ≠ keyOf new) (hnone : ∀ target, ¬g.References (keyOf new) target) :
    (g.rename old new).Acyclic ↔ ¬TransGen g.References (keyOf old) (keyOf new) := by
  refine acyclic_moved_iff hne hnone (fun key target => ?_) hac
  simp only [References, links_rename h hid hunused (.inr hmove), exists_or, exists_and_left]

end Graph

end Parametric
