import Mathlib
import Parametric.Proofs.Dependency.Loop

/-!
# What can be reached

A search that takes the next node from a stack meets all that can be reached from its start, each node once. The
depth that it gives a node is the length of the first way to it, which at each of its nodes goes on to the first
neighbour from which the node can still be reached. That need not be a shortest way.
-/

namespace Parametric.Graph

open Relation

/-! ## First ways -/

/-- An edge leads from one node to another one in a direction. -/
def Leads (g : Graph) (direction : Direction) (a b : Nat) : Prop := b ∈ g.neighbours direction a

/-- A way from one node to another one, along a number of edges. -/
inductive Way (g : Graph) (direction : Direction) : Nat → Nat → Nat → Prop where
  | here {a} : Way g direction a a 0
  | step {a b c n} : g.Leads direction a b → Way g direction b c n → Way g direction a c (n + 1)

/-- A node can be reached from another one on a way that meets no node of a set. -/
def Reaches (g : Graph) (direction : Direction) (met : Set Nat) (a b : Nat) : Prop :=
  a ∉ met ∧ ReflTransGen (fun x y => g.Leads direction x y ∧ y ∉ met) a b

/-- The first way to a target, with the number of its edges: at each node it goes on to the first neighbour from which
the target can be reached without meeting a node again. -/
inductive FirstWay (g : Graph) (direction : Direction) (target : Nat) : Set Nat → Nat → Nat → Prop where
  | here {met} : target ∉ met → FirstWay g direction target met target 0
  | step {met a before b after n} : a ∉ met → a ≠ target → g.neighbours direction a = before ++ b :: after →
      (∀ c ∈ before, ¬g.Reaches direction (insert a met) c target) →
      FirstWay g direction target (insert a met) b n → FirstWay g direction target met a (n + 1)

variable {g : Graph} {direction : Direction} {met : Set Nat} {a b c target n : Nat}

namespace Reaches

theorem mono {met' : Set Nat} (hsub : met ⊆ met') (h : g.Reaches direction met' a b) : g.Reaches direction met a b :=
  ⟨fun ha => h.1 (hsub ha),
    ReflTransGen.mono (fun _ _ hstep => ⟨hstep.1, fun hmem => hstep.2 (hsub hmem)⟩) _ _ h.2⟩

theorem head (hnew : a ∉ met) (hlead : g.Leads direction a b) (h : g.Reaches direction met b c) :
    g.Reaches direction met a c :=
  ⟨hnew, .head ⟨hlead, h.1⟩ h.2⟩

theorem not_mem (h : g.Reaches direction met a b) : b ∉ met := by
  obtain ⟨ha, hway⟩ := h
  cases hway with
  | refl => exact ha
  | tail _ hstep => exact hstep.2

theorem avoids_or_meets (h : g.Reaches direction met a b) (c : Nat) :
    g.Reaches direction (insert c met) a b ∨ g.Reaches direction met c b := by
  obtain ⟨ha, hway⟩ := h
  induction hway with
  | refl =>
      by_cases hac : a = c
      · subst hac
        exact .inr ⟨ha, .refl⟩
      · exact .inl ⟨by simp [hac, ha], .refl⟩
  | @tail x y _ hstep ih =>
      by_cases hyc : y = c
      · subst hyc
        exact .inr ⟨hstep.2, .refl⟩
      · rcases ih with ih | ih
        · exact .inl ⟨ih.1, ih.2.tail ⟨hstep.1, by simp [hyc, hstep.2]⟩⟩
        · exact .inr ⟨ih.1, ih.2.tail hstep⟩

/-- What can be reached from a node can be reached from one of its neighbours without coming back to the node. -/
theorem exists_next (h : g.Reaches direction met a b) (hne : b ≠ a) :
    ∃ c, g.Leads direction a c ∧ g.Reaches direction (insert a met) c b := by
  obtain ⟨-, hway⟩ := h
  suffices hlast : b = a ∨ ∃ c, g.Leads direction a c ∧ g.Reaches direction (insert a met) c b from
    hlast.resolve_left hne
  clear hne
  induction hway with
  | refl => exact .inl rfl
  | @tail x y _ hstep ih =>
      by_cases hya : y = a
      · exact .inl hya
      · have hnew : y ∉ insert a met := by simp [hya, hstep.2]
        rcases ih with rfl | ⟨c, hlead, hreach⟩
        · exact .inr ⟨y, hstep.1, hnew, .refl⟩
        · exact .inr ⟨c, hlead, hreach.1, hreach.2.tail ⟨hstep.1, hnew⟩⟩

end Reaches

theorem reaches_empty_iff : g.Reaches direction ∅ a b ↔ ReflTransGen (g.Leads direction) a b := by
  simp [Reaches]

namespace FirstWay

theorem reaches (h : g.FirstWay direction target met a n) : g.Reaches direction met a target := by
  induction h with
  | here hnew => exact ⟨hnew, .refl⟩
  | step hnew _ hnext _ _ ih =>
      exact .head hnew (by simp [Leads, hnext]) (ih.mono (Set.subset_insert _ _))

theorem way (h : g.FirstWay direction target met a n) : g.Way direction a target n := by
  induction h with
  | here => exact .here
  | step _ _ hnext _ _ ih => exact .step (by simp [Leads, hnext]) ih

theorem unique {m : Nat} (h : g.FirstWay direction target met a n) (h' : g.FirstWay direction target met a m) :
    n = m := by
  induction h generalizing m with
  | here =>
      cases h' with
      | here => rfl
      | step _ hne => exact absurd rfl hne
  | @step met a before b after n hnew hne hnext hbefore hrest ih =>
      cases h' with
      | here => exact absurd rfl hne
      | @step _ _ before' b' after' m _ _ hnext' hbefore' hrest' =>
          have hsame : b = b' := by
            rw [hnext] at hnext'
            -- if the next nodes differ, one way passes over the node that the other one goes on to
            rcases List.append_eq_append_iff.mp hnext' with ⟨more, rfl, heq⟩ | ⟨more, rfl, heq⟩
            · cases more with
              | nil => simpa using (List.cons.inj heq).1
              | cons d more =>
                  obtain rfl := (List.cons.inj heq).1
                  exact absurd hrest.reaches (hbefore' b (by simp))
            · cases more with
              | nil => simpa using (List.cons.inj heq).1.symm
              | cons d more =>
                  obtain rfl := (List.cons.inj heq).1
                  exact absurd hrest'.reaches (hbefore b' (by simp))
          subst hsame
          rw [ih hrest']

theorem of_insert (h : g.FirstWay direction target (insert c met) a n) (hc : ¬g.Reaches direction met c target) :
    g.FirstWay direction target met a n := by
  generalize hmet : insert c met = more at h
  induction h generalizing met with
  | here hnew =>
      subst hmet
      exact .here fun hmem => hnew (Set.mem_insert_of_mem c hmem)
  | @step _ a before b after n hnew hne hnext hbefore _ ih =>
      subst hmet
      have hc' : ¬g.Reaches direction (insert a met) c target := fun hreach =>
        hc (hreach.mono (Set.subset_insert a met))
      refine .step (fun hmem => hnew (Set.mem_insert_of_mem c hmem)) hne hnext (fun d hd hreach => ?_)
        (ih hc' (Set.insert_comm c a met))
      -- a way to the target over `c` has one from `c` as its rest
      rcases hreach.avoids_or_meets c with hreach | hreach
      · rw [Set.insert_comm] at hreach
        exact hbefore d hd hreach
      · exact hc' hreach

end FirstWay

/-! ## The search -/

def origin (direction : Direction) (edge : Edge) : Nat :=
  match direction with
  | .references => edge.source
  | .dependents => edge.target

def untried (g : Graph) (direction : Direction) (visited : List Nat) : Nat :=
  g.edges.countP fun edge => !visited.contains (origin direction edge)

/-- The first node of a stack from which a target can be reached gives the target its depth. -/
def FoundAt (g : Graph) (direction : Direction) (met : Set Nat) (target depth : Nat) : List (Nat × Nat) → Prop
  | [] => False
  | (a, m) :: stack =>
    (∃ n, g.FirstWay direction target met a n ∧ depth = m + n) ∨
      ¬g.Reaches direction met a target ∧ g.FoundAt direction met target depth stack

variable {visited : List Nat} {stack : List (Nat × Nat)} {id m depth : Nat}

theorem length_neighbours : (g.neighbours direction id).length = g.edges.countP (origin direction · == id) := by
  cases direction <;> simp [neighbours, edgesFrom, edgesTo, origin, List.countP_eq_length_filter]

/-- A node that is met for the first time puts an entry on the stack for each edge that is followed from it. -/
theorem untried_cons (hnew : id ∉ visited) :
    g.untried direction visited = g.untried direction (id :: visited) + (g.neighbours direction id).length := by
  rw [length_neighbours]
  simp only [untried]
  induction g.edges with
  | nil => rfl
  | cons edge rest ih =>
      simp only [List.countP_cons, ih]
      by_cases hid : origin direction edge = id
      · subst hid
        simp [hnew]
        omega
      · simp [hid]
        omega

theorem setOf_mem_cons : {x | x ∈ id :: visited} = insert id {x | x ∈ visited} := by
  ext x
  simp

namespace FoundAt

theorem reaches (h : g.FoundAt direction met target depth stack) :
    ∃ entry ∈ stack, g.Reaches direction met entry.1 target := by
  induction stack with
  | nil => cases h
  | cons entry rest ih =>
      rcases h with ⟨n, hway, -⟩ | ⟨-, hrest⟩
      · exact ⟨entry, List.mem_cons_self, hway.reaches⟩
      · obtain ⟨other, hmem, hreach⟩ := ih hrest
        exact ⟨other, List.mem_cons_of_mem _ hmem, hreach⟩

theorem of_insert (h : g.FoundAt direction (insert c met) target depth stack)
    (hc : ¬g.Reaches direction met c target) : g.FoundAt direction met target depth stack := by
  induction stack with
  | nil => cases h
  | cons entry rest ih =>
      rcases h with ⟨n, hway, hdepth⟩ | ⟨hnot, hrest⟩
      · exact .inl ⟨n, hway.of_insert hc, hdepth⟩
      · exact .inr ⟨fun hreach => (hreach.avoids_or_meets c).elim hnot hc, ih hrest⟩

/-- On the neighbours of a node above a stack, a target is found behind the first neighbour that leads to it, or below
if none does. -/
theorem of_neighbours {neighbours : List Nat}
    (h : g.FoundAt direction met target depth (neighbours.map (·, m) ++ stack)) :
    (∃ before b after n, neighbours = before ++ b :: after ∧
        (∀ c ∈ before, ¬g.Reaches direction met c target) ∧ g.FirstWay direction target met b n ∧ depth = m + n) ∨
      (∀ c ∈ neighbours, ¬g.Reaches direction met c target) ∧ g.FoundAt direction met target depth stack := by
  induction neighbours with
  | nil => exact .inr ⟨nofun, h⟩
  | cons b rest ih =>
      rcases h with ⟨n, hway, hdepth⟩ | ⟨hnot, hrest⟩
      · exact .inl ⟨[], b, rest, n, rfl, nofun, hway, hdepth⟩
      · rcases ih hrest with ⟨before, d, after, n, rfl, hbefore, hway, hdepth⟩ | ⟨hnone, hstack⟩
        · exact .inl ⟨b :: before, d, after, n, rfl, List.forall_mem_cons.mpr ⟨hnot, hbefore⟩, hway, hdepth⟩
        · exact .inr ⟨List.forall_mem_cons.mpr ⟨hnot, hnone⟩, hstack⟩

theorem leave (hnew : id ∉ met) (hne : target ≠ id)
    (h : g.FoundAt direction (insert id met) target depth ((g.neighbours direction id).map (·, m + 1) ++ stack)) :
    g.FoundAt direction met target depth ((id, m) :: stack) := by
  rcases h.of_neighbours with ⟨before, b, after, n, hnext, hbefore, hway, hdepth⟩ | ⟨hnone, hstack⟩
  · exact .inl ⟨n + 1, .step hnew hne.symm hnext hbefore hway, by omega⟩
  · have hnot : ¬g.Reaches direction met id target := fun hreach => by
      obtain ⟨c, hlead, hreach⟩ := hreach.exists_next hne
      exact hnone c hlead hreach
    exact .inr ⟨hnot, hstack.of_insert hnot⟩

end FoundAt

theorem foundAt_of_mem_visit (steps : Nat) (visited : List Nat) (stack : List (Nat × Nat))
    (h : (target, depth) ∈ g.visit direction steps visited stack) :
    g.FoundAt direction {x | x ∈ visited} target depth stack := by
  fun_induction visit g direction steps visited stack with
  | case1 | case2 => cases h
  | case3 steps visited id m stack hmet ih =>
      have hmet : id ∈ visited := by simpa using hmet
      exact .inr ⟨fun hreach => hreach.1 hmet, ih h⟩
  | case4 steps visited id m stack hnew ih =>
      have hnew : id ∉ {x | x ∈ visited} := by simpa using hnew
      rcases List.mem_cons.mp h with heq | h
      · obtain ⟨rfl, rfl⟩ := Prod.mk.inj heq
        exact .inl ⟨0, .here hnew, rfl⟩
      · -- what is met later is another node, as this one is among the nodes that were met
        have hfound := ih h
        rw [setOf_mem_cons] at hfound
        obtain ⟨entry, -, hreach⟩ := hfound.reaches
        have hne : target ≠ id := by
          rintro rfl
          exact hreach.not_mem (Set.mem_insert _ _)
        exact hfound.leave hnew hne

/-- With enough steps a search meets all that can be reached from its stack. -/
theorem mem_visit_of_reaches (steps : Nat) (visited : List Nat) (stack : List (Nat × Nat))
    (hsteps : stack.length + g.untried direction visited ≤ steps) {entry : Nat × Nat} (hentry : entry ∈ stack)
    (hreach : g.Reaches direction {x | x ∈ visited} entry.1 target) :
    target ∈ (g.visit direction steps visited stack).map (·.1) := by
  fun_induction visit g direction steps visited stack generalizing entry with
  | case1 visited stack =>
      obtain rfl := List.length_eq_zero_iff.mp (by omega : stack.length = 0)
      cases hentry
  | case2 => cases hentry
  | case3 steps visited id m stack hmet ih =>
      have hmet : id ∈ visited := by simpa using hmet
      rw [List.length_cons] at hsteps
      rcases List.mem_cons.mp hentry with rfl | hentry
      · exact absurd hmet hreach.1
      · exact ih (by omega) hentry hreach
  | case4 steps visited id m stack hnew ih =>
      have hnew : id ∉ visited := by simpa using hnew
      -- the edges that are followed from the node for the first time pay for their entries on the stack
      have huntried : g.untried direction visited = _ := untried_cons hnew
      rw [List.length_cons] at hsteps
      rw [List.length_append, List.length_map, setOf_mem_cons] at ih
      rw [List.map_cons, List.mem_cons]
      -- from the node itself the target is met, or one of its neighbours leads to it
      have hnode (hreach : g.Reaches direction {x | x ∈ visited} id target) : target = id ∨
          target ∈ (g.visit direction steps (id :: visited)
            ((g.neighbours direction id).map (·, m + 1) ++ stack)).map (·.1) := by
        refine or_iff_not_imp_left.mpr fun hne => ?_
        obtain ⟨c, hlead, hreach⟩ := hreach.exists_next hne
        exact ih (by omega) (List.mem_append_left _ (List.mem_map_of_mem hlead)) hreach
      rcases List.mem_cons.mp hentry with rfl | hentry
      · exact hnode hreach
      · rcases hreach.avoids_or_meets id with hreach | hreach
        · exact .inr (ih (by omega) (List.mem_append_right _ hentry) hreach)
        · exact hnode hreach

theorem nodup_visit (steps : Nat) (visited : List Nat) (stack : List (Nat × Nat)) :
    ((g.visit direction steps visited stack).map (·.1)).Nodup := by
  fun_induction visit g direction steps visited stack with
  | case1 | case2 => exact List.nodup_nil
  | case3 _ _ _ _ _ _ ih => exact ih
  | case4 steps visited id m stack hnew ih =>
      rw [List.map_cons, List.nodup_cons]
      refine ⟨fun hmem => ?_, ih⟩
      obtain ⟨⟨target, depth⟩, hmem, rfl⟩ := List.mem_map.mp hmem
      obtain ⟨entry, -, hreach⟩ := (foundAt_of_mem_visit _ _ _ hmem).reaches
      exact hreach.not_mem (List.mem_cons_self)

theorem firstWay_of_mem_visitFrom {start : Nat} (h : (target, depth) ∈ g.visitFrom direction start) :
    g.FirstWay direction target ∅ start depth := by
  have hfound := foundAt_of_mem_visit _ _ _ h
  have hnone : {x | x ∈ ([] : List Nat)} = ∅ := by simp
  rw [hnone] at hfound
  rcases hfound with ⟨n, hway, rfl⟩ | ⟨-, hnil⟩
  · rwa [Nat.zero_add]
  · cases hnil

theorem exists_mem_visitFrom {start : Nat} (h : ReflTransGen (g.Leads direction) start target) :
    ∃ depth, (target, depth) ∈ g.visitFrom direction start := by
  have hsteps : [(start, 0)].length + g.untried direction [] ≤ g.numEdges + 1 := by
    simp [untried, numEdges, Nat.add_comm]
  have hreach : g.Reaches direction {x | x ∈ ([] : List Nat)} start target := by
    simpa using reaches_empty_iff.mpr h
  have hmem := mem_visit_of_reaches _ _ _ hsteps List.mem_cons_self hreach
  obtain ⟨⟨_, depth⟩, hentry, rfl⟩ := List.mem_map.mp hmem
  exact ⟨depth, hentry⟩

/-- A search from a node meets exactly what ways lead to, at the depth of the first way. -/
theorem mem_visitFrom_iff {start : Nat} :
    (target, depth) ∈ g.visitFrom direction start ↔ g.FirstWay direction target ∅ start depth := by
  refine ⟨firstWay_of_mem_visitFrom, fun hway => ?_⟩
  obtain ⟨other, hmem⟩ := exists_mem_visitFrom (reaches_empty_iff.mp hway.reaches)
  rwa [hway.unique (firstWay_of_mem_visitFrom hmem)]

/-! ## What is listed -/

theorem Coherent.exists_name_of_leads (h : g.Coherent) (hlead : g.Leads direction a b) :
    ∃ label, g.nameOf? b = some label := by
  have hname {id : Nat} (hkey : ∃ key, g.keyAt? id = some key) : ∃ label, g.nameOf? id = some label :=
    hkey.elim fun _ hkey => (Option.map_eq_some_iff.mp hkey).imp fun _ hname => hname.1
  cases direction with
  | references =>
      obtain ⟨edge, hmem, rfl⟩ : ∃ edge ∈ g.edgesFrom a, edge.target = b := by
        simpa [Leads, neighbours] using hlead
      exact hname (h.target_known edge (List.mem_filter.mp hmem).1)
  | dependents =>
      obtain ⟨edge, hmem, rfl⟩ : ∃ edge ∈ g.edgesTo a, edge.source = b := by
        simpa [Leads, neighbours] using hlead
      exact hname (h.source_known edge (List.mem_filter.mp hmem).1)

theorem WellFormed.nameOf?_inj (h : g.WellFormed) {label : String} (ha : g.nameOf? a = some label)
    (hb : g.nameOf? b = some label) : a = b := by
  have hkey {id : Nat} (hid : g.nameOf? id = some label) : g.keyAt? id = some (keyOf label) := by
    rw [keyAt?, hid, Option.map_some]
  exact Coherent.keyAt?_inj (h.not_split _) (hkey ha) (hkey hb)

/-- What is listed for a name are the nodes that a first way leads to, each with the length of the way. -/
theorem mem_reachable_iff {name : String} {start : Nat} (hstart : g.node? name = some start) {entry : Reached} :
    entry ∈ g.reachable name direction ↔ ∃ id, id ≠ start ∧ g.nameOf? id = some entry.name ∧
      g.FirstWay direction id ∅ start entry.depth := by
  obtain ⟨label, depth⟩ := entry
  simp only [reachable, hstart, List.mem_mergeSort, List.mem_filterMap]
  constructor
  · rintro ⟨⟨id, other⟩, hmem, hentry⟩
    obtain ⟨hne, hname, rfl⟩ : id ≠ start ∧ g.nameOf? id = some label ∧ other = depth := by
      simpa using hentry
    exact ⟨id, hne, hname, mem_visitFrom_iff.mp hmem⟩
  · rintro ⟨id, hne, hname, hway⟩
    exact ⟨(id, depth), mem_visitFrom_iff.mpr hway, by simp [hne, hname]⟩

theorem WellFormed.listed_iff (h : g.WellFormed) {name : String} {start : Nat} (hstart : g.node? name = some start)
    (id : Nat) : (∃ entry ∈ g.reachable name direction, g.nameOf? id = some entry.name) ↔
      id ≠ start ∧ ReflTransGen (g.Leads direction) start id := by
  constructor
  · rintro ⟨entry, hmem, hname⟩
    obtain ⟨other, hne, hother, hway⟩ := (mem_reachable_iff hstart).mp hmem
    obtain rfl := h.nameOf?_inj hname hother
    exact ⟨hne, reaches_empty_iff.mp hway.reaches⟩
  · rintro ⟨hne, hreach⟩
    obtain ⟨depth, hmem⟩ := exists_mem_visitFrom hreach
    obtain ⟨b, -, hlead⟩ := (ReflTransGen.cases_tail hreach).resolve_left hne
    obtain ⟨label, hname⟩ := h.exists_name_of_leads hlead
    exact ⟨⟨label, depth⟩, (mem_reachable_iff hstart).mpr ⟨id, hne, hname, mem_visitFrom_iff.mp hmem⟩,
      hname⟩

theorem WellFormed.nodup_reachable (h : g.WellFormed) (name : String) (direction : Direction) :
    ((g.reachable name direction).map (·.name)).Nodup := by
  cases hstart : g.node? name with
  | none => simp [reachable, hstart]
  | some start =>
      let name? (id : Nat) : Option String := if id = start then none else g.nameOf? id
      have hname {id : Nat} {label : String} (hid : label ∈ name? id) : g.nameOf? id = some label := by
        simp only [name?, Option.mem_def, Option.ite_none_left_eq_some] at hid
        exact hid.2
      have hnames : (((g.visitFrom direction start).map (·.1)).filterMap name?).Nodup :=
        (nodup_visit _ _ _).filterMap fun _ _ _ ha hb => h.nameOf?_inj (hname ha) (hname hb)
      rw [List.filterMap_map] at hnames
      simp only [reachable, hstart]
      rw [((List.mergeSort_perm _ _).map _).nodup_iff, List.map_filterMap]
      refine (congrArg List.Nodup (List.filterMap_congr fun entry _ => ?_)).mp hnames
      obtain ⟨id, depth⟩ := entry
      by_cases hid : id = start <;> cases hname : g.nameOf? id <;> simp [name?, hid, hname]

theorem Reached.le_iff {x y : Reached} :
    Reached.le x y = true ↔ x.depth < y.depth ∨ x.depth = y.depth ∧ x.name ≤ y.name := by
  simp [Reached.le]

/-- The names are listed by their depths, and at one depth in ascending order. -/
theorem WellFormed.pairwise_reachable (h : g.WellFormed) (name : String) (direction : Direction) :
    (g.reachable name direction).Pairwise fun x y => x.depth < y.depth ∨ x.depth = y.depth ∧ x.name < y.name := by
  have hsorted : (g.reachable name direction).Pairwise fun x y => Reached.le x y = true := by
    simp only [reachable]
    split
    · exact .nil
    · refine List.pairwise_mergeSort (fun x y z hxy hyz => ?_) (fun x y => ?_) _
      · rw [Reached.le_iff] at hxy hyz ⊢
        rcases hxy with hxy | ⟨hxy, hname⟩ <;> rcases hyz with hyz | ⟨hyz, hname'⟩
        · exact .inl (by omega)
        · exact .inl (by omega)
        · exact .inl (by omega)
        · exact .inr ⟨by omega, hname.trans hname'⟩
      · rw [Bool.or_eq_true, Reached.le_iff, Reached.le_iff]
        rcases Nat.lt_trichotomy x.depth y.depth with hlt | heq | hlt
        · exact .inl (.inl hlt)
        · exact (String.le_total x.name y.name).imp (.inr ⟨heq, ·⟩) (.inr ⟨heq.symm, ·⟩)
        · exact .inr (.inl hlt)
  have hnames := List.pairwise_map.mp (h.nodup_reachable name direction)
  refine (hsorted.and hnames).imp fun ⟨hle, hne⟩ => ?_
  exact (Reached.le_iff.mp hle).imp_right fun ⟨hdepth, hname⟩ => ⟨hdepth, lt_of_le_of_ne hname hne⟩

def FirstIsShortest (g : Graph) (direction : Direction) (start id : Nat) : Prop :=
  ∀ n m, g.FirstWay direction id ∅ start n → g.Way direction start id m → n ≤ m

theorem FirstWay.isLeast_iff {start : Nat} (h : g.FirstWay direction target ∅ start n) :
    IsLeast {m | g.Way direction start target m} n ↔ g.FirstIsShortest direction start target := by
  constructor
  · rintro ⟨-, hleast⟩ k m hfirst hway
    rw [← h.unique hfirst]
    exact hleast hway
  · exact fun hshortest => ⟨h.way, fun m hway => hshortest n m h hway⟩

/-- In every graph that changes build, exactly the nodes that can be reached from a name are listed, each once, by
their depths and names. The depth of a node is the length of the first way to it, so it is the least number of edges
exactly if that way is a shortest one. -/
theorem reachable_built (updates : List Update) {name : String} {start : Nat}
    (hstart : (built updates).node? name = some start) (direction : Direction) :
    let g := built updates
    let listed := g.reachable name direction
    listed.Pairwise (fun x y => x.depth < y.depth ∨ x.depth = y.depth ∧ x.name < y.name) ∧
      (listed.map (·.name)).Nodup ∧
      (∀ id, (∃ entry ∈ listed, g.nameOf? id = some entry.name) ↔
        id ≠ start ∧ ReflTransGen (g.Leads direction) start id) ∧
      ∀ entry ∈ listed, ∃ id, g.nameOf? id = some entry.name ∧ g.FirstWay direction id ∅ start entry.depth ∧
        (IsLeast {n | g.Way direction start id n} entry.depth ↔ g.FirstIsShortest direction start id) := by
  intro g listed
  have hw : g.WellFormed := wellFormed_built updates
  refine ⟨hw.pairwise_reachable name direction, hw.nodup_reachable name direction, hw.listed_iff hstart,
    fun entry hmem => ?_⟩
  obtain ⟨id, -, hname, hway⟩ := (mem_reachable_iff hstart).mp hmem
  exact ⟨id, hname, hway, hway.isLeast_iff⟩

/-- The formulas that reference `c` are listed at the least depths. -/
theorem reachable_built_users :
    let g := built twoUpdates
    ⟨"b", 1⟩ ∈ g.reachable "C" .dependents ∧ ∀ entry ∈ g.reachable "C" .dependents,
      ∃ id, g.nameOf? id = some entry.name ∧ IsLeast {n | g.Way .dependents 2 id n} entry.depth := by
  intro g
  have hstart : g.node? "C" = some 2 := by decide +kernel
  have hvisited : ∀ entry ∈ g.visitFrom .dependents 2, entry.1 ≠ 2 → entry.2 = 1 := by decide +kernel
  have hmet : (1, 1) ∈ g.visitFrom .dependents 2 := by decide +kernel
  have hname : g.nameOf? 1 = some "b" := by decide +kernel
  obtain ⟨-, -, hnodes, hdepths⟩ := reachable_built twoUpdates hstart .dependents
  refine ⟨(mem_reachable_iff hstart).mpr ⟨1, by decide, hname, mem_visitFrom_iff.mp hmet⟩, fun entry hmem => ?_⟩
  obtain ⟨id, hname, hfirst, hleast⟩ := hdepths entry hmem
  have hne : id ≠ 2 := ((hnodes id).mp ⟨entry, hmem, hname⟩).1
  have hone : entry.depth = 1 := hvisited (id, entry.depth) (mem_visitFrom_iff.mpr hfirst) hne
  refine ⟨id, hname, hleast.mpr fun n m hfirst' hway => ?_⟩
  rw [hfirst'.unique hfirst, hone]
  cases hway with
  | here => exact absurd rfl hne
  | step => exact Nat.le_add_left 1 _

/-- The formula of `a` references `c`, which is listed at the depth of the way over `b` all the same. -/
theorem not_isLeast_reachable_shortcut :
    let g := built twoUpdates
    g.node? "a" = some 0 ∧ g.nameOf? 2 = some "c" ∧ ⟨"c", 2⟩ ∈ g.reachable "a" .references ∧
      g.Way .references 0 2 1 ∧ ¬IsLeast {n | g.Way .references 0 2 n} 2 := by
  intro g
  have hstart : g.node? "a" = some 0 := by decide +kernel
  have hname : g.nameOf? 2 = some "c" := by decide +kernel
  have hmet : (2, 2) ∈ g.visitFrom .references 0 := by decide +kernel
  have hlead : g.Leads .references 0 2 := by
    show 2 ∈ g.neighbours .references 0
    decide +kernel
  have hway : g.Way .references 0 2 1 := .step hlead .here
  refine ⟨hstart, hname, (mem_reachable_iff hstart).mpr ⟨2, by decide, hname, mem_visitFrom_iff.mp hmet⟩, hway,
    fun hleast => ?_⟩
  exact absurd (hleast.2 hway) (by decide)

end Parametric.Graph
