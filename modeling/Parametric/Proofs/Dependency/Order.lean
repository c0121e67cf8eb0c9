import Parametric.Dependency.Order
import Parametric.Proofs.Dependency.Loop

/-!
# Evaluation order

The order in which formulas can be evaluated is found by walks that finish a name after what it references. A walk
ends on every graph. It lists each name once, all that can be reached, and a reference comes after a result that
needs it only if the two are on a loop.
-/

namespace Parametric.Graph

open Relation

/-! ## Walks that end -/

/-- A walk over a stack, however long it takes, from what was done before to what is done at its end. -/
inductive Walks (g : Graph) : Progress → List Nat → List (Nat × Bool) → Progress → Prop where
  | done {p opened} : Walks g p opened [] p
  | unknown {p opened id expanded stack q} : g.nameOf? id = none → Walks g p opened stack q →
      Walks g p opened ((id, expanded) :: stack) q
  | skip {p opened id expanded stack name q} : g.nameOf? id = some name →
      keyOf name ∈ p.done ∨ expanded = false ∧ id ∈ opened → Walks g p opened stack q →
      Walks g p opened ((id, expanded) :: stack) q
  | finish {p opened id stack name q} : g.nameOf? id = some name → keyOf name ∉ p.done →
      Walks g (p.finish name) opened stack q → Walks g p opened ((id, true) :: stack) q
  | enter {p opened id stack name q} : g.nameOf? id = some name → keyOf name ∉ p.done → id ∉ opened →
      Walks g p (id :: opened) ((g.successors id).map (·, false) ++ (id, true) :: stack) q →
      Walks g p opened ((id, false) :: stack) q

/-- Walks from names, one after the other. A name without a node is listed by itself. -/
inductive Scheduled (g : Graph) : Progress → List String → Progress → Prop where
  | done {p} : Scheduled g p [] p
  | walked {p name id q names r} : g.node? name = some id → Walks g p [] [(id, false)] q → Scheduled g q names r →
      Scheduled g p (name :: names) r
  | repeated {p name names r} : g.node? name = none → keyOf name ∈ p.done → Scheduled g p names r →
      Scheduled g p (name :: names) r
  | single {p name names r} : g.node? name = none → keyOf name ∉ p.done → Scheduled g (p.finish name) names r →
      Scheduled g p (name :: names) r

variable {g : Graph} {p q : Progress} {opened : List Nat} {stack : List (Nat × Bool)} {id : Nat} {expanded : Bool}
  {name : String}

def unopened (g : Graph) (opened : List Nat) : List Nat := (g.nodes.map (·.id)).filter (!opened.contains ·)

theorem mem_ids_of_nameOf? (h : g.nameOf? id = some name) : id ∈ g.nodes.map (·.id) := by
  obtain ⟨node, hfind, -⟩ := Option.map_eq_some_iff.mp h
  exact List.mem_map.mpr ⟨node, List.mem_of_find?_eq_some hfind, by simpa using List.find?_some hfind⟩

/-- A node that is entered puts its successors and itself on the stack, and is never entered again. -/
theorem workOf_unopened_cons (h : g.Coherent) (hid : id ∈ g.nodes.map (·.id)) (hnew : id ∉ opened) :
    g.workOf (g.unopened opened) = g.workOf (g.unopened (id :: opened)) + ((g.successors id).length + 1) := by
  have hrest : g.unopened (id :: opened) = (g.unopened opened).erase id := by
    have hnodup : (g.unopened opened).Nodup := h.ids_nodup.filter _
    rw [hnodup.erase_eq_filter, unopened, unopened, List.filter_filter]
    congr 1
    funext other
    by_cases hother : other = id <;> simp [hother]
  rw [hrest]
  exact workOf_erase (List.mem_filter.mpr ⟨hid, by simpa using hnew⟩)

/-- With enough steps a walk comes to its end. -/
theorem walks_walk (h : g.Coherent) (steps : Nat) (p : Progress) (opened : List Nat) (stack : List (Nat × Bool))
    (hsteps : stack.length + g.workOf (g.unopened opened) ≤ steps) :
    g.Walks p opened stack (g.walk steps p opened stack) := by
  fun_induction walk g steps p opened stack with
  | case1 p opened stack =>
      obtain rfl := List.length_eq_zero_iff.mp (by omega : stack.length = 0)
      exact .done
  | case2 => exact .done
  | case3 steps p opened id expanded stack hname ih =>
      rw [List.length_cons] at hsteps
      exact .unknown hname (ih (by omega))
  | case4 steps p opened id expanded stack name hname hdone ih =>
      rw [List.length_cons] at hsteps
      exact .skip hname (.inl (by simpa using hdone)) (ih (by omega))
  | case5 steps p opened id stack name hname hdone ih =>
      rw [List.length_cons] at hsteps
      exact .finish hname (by simpa using hdone) (ih (by omega))
  | case6 steps p opened id expanded stack name hname hdone hexpanded hopened ih =>
      rw [List.length_cons] at hsteps
      exact .skip hname (.inr ⟨by simpa using hexpanded, by simpa using hopened⟩) (ih (by omega))
  | case7 steps p opened id expanded stack name hname hdone hexpanded hopened ih =>
      obtain rfl : expanded = false := by simpa using hexpanded
      replace hopened : id ∉ opened := by simpa using hopened
      refine .enter hname (by simpa using hdone) hopened (ih ?_)
      have hwork := workOf_unopened_cons h (mem_ids_of_nameOf? hname) hopened
      simp only [List.length_append, List.length_map, List.length_cons] at hsteps ⊢
      omega

theorem walks_orderName (h : g.Coherent) {start : Nat} (hstart : g.node? name = some start) (p : Progress) :
    g.Walks p [] [(start, false)] (g.orderName p name) := by
  have hwork := workOf_le (g := g) (g.nodes.map (·.id)) h.ids_nodup
  have hall : g.unopened [] = g.nodes.map (·.id) := by simp [unopened]
  simp only [orderName, hstart]
  refine walks_walk h _ _ _ _ ?_
  rw [hall, List.length_singleton, numNodes]
  rw [List.length_map] at hwork
  omega

theorem scheduled_foldl (h : g.Coherent) (names : List String) (p : Progress) :
    g.Scheduled p names (names.foldl g.orderName p) := by
  induction names generalizing p with
  | nil => exact .done
  | cons name names ih =>
      rw [List.foldl_cons]
      cases hnode : g.node? name with
      | some start => exact .walked hnode (walks_orderName h hnode p) (ih _)
      | none =>
          have hrest := ih (g.orderName p name)
          simp only [orderName, hnode, List.contains_iff_mem] at hrest ⊢
          split at hrest
          case isTrue hdone =>
            rw [if_pos hdone]
            exact .repeated hnode hdone hrest
          case isFalse hdone =>
            rw [if_neg hdone]
            exact .single hnode hdone hrest

/-! ## What a walk keeps -/

/-- Whether a node is finished, which its key tells. -/
def Finished (g : Graph) (p : Progress) (id : Nat) : Prop := ∃ key ∈ p.done, g.keyAt? id = some key

/-- What stands above an expanded node of a stack, the nearest first in `above`: its successors, unless they were
met, and only nodes that it leads to. -/
def Framed (g : Graph) (met : Nat → Prop) : List (Nat × Bool) → List (Nat × Bool) → Prop
  | _, [] => True
  | above, (id, expanded) :: stack =>
    (expanded = true → (∀ b, g.Arrow id b → met b ∨ (b, false) ∈ above) ∧
        ∀ entry ∈ above, TransGen g.Arrow id entry.1) ∧
      g.Framed met ((id, expanded) :: above) stack

/-- The names of an order, backwards: what a name references comes before it, or leads back to it. -/
def Ordered (g : Graph) : List String → Prop
  | [] => True
  | name :: before =>
    (∀ target, g.References (keyOf name) target →
        target ∈ before.map keyOf ∨ ReflTransGen g.References target (keyOf name)) ∧
      g.Ordered before

/-- A walk in progress over a stack: what it has listed, and how the stack makes up for what is not finished.
`reach` holds of the keys that are to be listed. -/
structure Walking (g : Graph) (reach : String → Prop) (p : Progress) (opened : List Nat)
    (stack : List (Nat × Bool)) : Prop where
  keys : p.done = p.order.map keyOf
  nodup : p.done.Nodup
  ordered : g.Ordered p.order
  reached : ∀ key ∈ p.done, reach key
  closed : ∀ a b, g.Finished p a → g.Arrow a b → g.Finished p b ∨ (b, true) ∈ stack
  known : ∀ entry ∈ stack, ∃ key, g.keyAt? entry.1 = some key ∧ reach key
  expanded : ∀ id, (id, true) ∈ stack → id ∈ opened
  active : ∀ id ∈ opened, g.Finished p id ∨ (id, true) ∈ stack
  framed : g.Framed (fun id => g.Finished p id ∨ id ∈ opened) [] stack

theorem keyAt?_of_nameOf? (h : g.nameOf? id = some name) : g.keyAt? id = some (keyOf name) := by
  rw [keyAt?, h, Option.map_some]

theorem Finished.finish (h : g.Finished p id) (name : String) : g.Finished (p.finish name) id := by
  obtain ⟨key, hmem, hkey⟩ := h
  exact ⟨key, List.mem_cons_of_mem _ hmem, hkey⟩

theorem finished_finish (h : g.nameOf? id = some name) : g.Finished (p.finish name) id :=
  ⟨keyOf name, List.mem_cons_self, keyAt?_of_nameOf? h⟩

/-- A node that is finished with a name was finished before, or is the node of that name. -/
theorem WellFormed.finished_finish_iff (hw : g.WellFormed) (hname : g.nameOf? id = some name) {a : Nat} :
    g.Finished (p.finish name) a ↔ a = id ∨ g.Finished p a := by
  constructor
  · rintro ⟨key, hmem, hkey⟩
    rcases List.mem_cons.mp hmem with rfl | hmem
    · exact .inl (Coherent.keyAt?_inj (hw.not_split _) hkey (keyAt?_of_nameOf? hname))
    · exact .inr ⟨key, hmem, hkey⟩
  · rintro (rfl | h)
    · exact finished_finish hname
    · exact h.finish name

/-! ## Frames -/

namespace Framed

variable {met met' : Nat → Prop} {above above' : List (Nat × Bool)}

theorem mono (h : g.Framed met above stack) (hmet : ∀ b, met b → met' b)
    (hpending : ∀ b, (b, false) ∈ above → met' b ∨ (b, false) ∈ above')
    (hbelow : ∀ id, (∀ entry ∈ above, TransGen g.Arrow id entry.1) → ∀ entry ∈ above', TransGen g.Arrow id entry.1) :
    g.Framed met' above' stack := by
  induction stack generalizing above above' with
  | nil => trivial
  | cons top stack ih =>
      obtain ⟨id, expanded⟩ := top
      obtain ⟨hframe, hrest⟩ := h
      refine ⟨fun hexpanded => ⟨fun b hb => ?_, hbelow id (hframe hexpanded).2⟩, ih hrest ?_ ?_⟩
      · rcases (hframe hexpanded).1 b hb with hb | hb
        · exact .inl (hmet b hb)
        · exact hpending b hb
      · intro b hb
        rcases List.mem_cons.mp hb with heq | hb
        · exact .inr (heq ▸ List.mem_cons_self)
        · exact (hpending b hb).imp_right (List.mem_cons_of_mem _)
      · intro a ha entry hentry
        have ha := List.forall_mem_cons.mp ha
        rcases List.mem_cons.mp hentry with rfl | hentry
        · exact ha.1
        · exact hbelow a ha.2 entry hentry

theorem pop (h : g.Framed met [] ((id, expanded) :: stack)) (hmet : ∀ b, met b → met' b)
    (hid : expanded = false → met' id) : g.Framed met' [] stack := by
  refine h.2.mono hmet (fun b hb => ?_) (fun _ _ => nofun)
  obtain ⟨rfl, rfl⟩ : b = id ∧ false = expanded := by simpa using hb
  exact .inl (hid rfl)

theorem push (h : g.Framed met [] ((id, false) :: stack)) (hmet : ∀ b, met b → met' b) (hid : met' id) :
    g.Framed met' [] ((g.successors id).map (·, false) ++ (id, true) :: stack) := by
  -- what is pending lays no claim on what stands above it
  have hskip : ∀ (ids : List Nat) (above : List (Nat × Bool)) (rest : List (Nat × Bool)),
      g.Framed met' ((ids.map (·, false)).reverse ++ above) rest →
        g.Framed met' above (ids.map (·, false) ++ rest) := by
    intro ids
    induction ids with
    | nil => exact fun _ _ h => h
    | cons next ids ih =>
        intro above rest h
        refine ⟨nofun, ih _ _ ?_⟩
        simpa using h
  refine hskip _ _ _ ⟨fun _ => ⟨fun b hb => ?_, ?_⟩, h.2.mono hmet ?_ ?_⟩
  · exact .inr (by simpa using show b ∈ g.successors id from hb)
  · intro entry hentry
    obtain ⟨b, hb, rfl⟩ : ∃ b ∈ g.successors id, (b, false) = entry := by simpa using hentry
    exact .single hb
  · intro b hb
    obtain rfl : b = id := by simpa using hb
    exact .inl hid
  · intro a ha entry hentry
    have hto : TransGen g.Arrow a id := ha _ List.mem_cons_self
    rcases List.mem_cons.mp hentry with rfl | hentry
    · exact hto
    · obtain ⟨b, hb, rfl⟩ : ∃ b ∈ g.successors id, (b, false) = entry := by simpa using hentry
      exact hto.tail hb

theorem leads (h : g.Framed met above stack) (hid : (id, true) ∈ stack) :
    ∀ entry ∈ above, TransGen g.Arrow id entry.1 := by
  induction stack generalizing above with
  | nil => cases hid
  | cons top stack ih =>
      obtain ⟨hframe, hrest⟩ := h
      rcases List.mem_cons.mp hid with rfl | hid
      · exact (hframe rfl).2
      · exact (List.forall_mem_cons.mp (ih hrest hid)).2

end Framed

/-! ## Steps of a walk -/

namespace Walking

variable {reach : String → Prop}

theorem skip (h : g.Walking reach p opened ((id, expanded) :: stack)) (hname : g.nameOf? id = some name)
    (hmet : keyOf name ∈ p.done ∨ expanded = false ∧ id ∈ opened) : g.Walking reach p opened stack := by
  have hkey := keyAt?_of_nameOf? hname
  -- an expanded node that is skipped is finished, so nothing needs it on the stack
  have hdrop : ∀ b, (b, true) ∈ (id, expanded) :: stack → g.Finished p b ∨ (b, true) ∈ stack := by
    intro b hb
    rcases List.mem_cons.mp hb with heq | hb
    · obtain ⟨rfl, rfl⟩ := Prod.mk.inj heq
      rcases hmet with hdone | ⟨hfalse, -⟩
      · exact .inl ⟨_, hdone, hkey⟩
      · cases hfalse
    · exact .inr hb
  constructor
  case keys => exact h.keys
  case nodup => exact h.nodup
  case ordered => exact h.ordered
  case reached => exact h.reached
  case closed => exact fun a b ha hab => (h.closed a b ha hab).elim .inl (hdrop b)
  case known => exact fun entry hentry => h.known entry (List.mem_cons_of_mem _ hentry)
  case expanded => exact fun a ha => h.expanded a (List.mem_cons_of_mem _ ha)
  case active => exact fun a ha => (h.active a ha).elim .inl (hdrop a)
  case framed =>
    refine h.framed.pop (fun _ hb => hb) fun _ => ?_
    exact hmet.elim (fun hdone => .inl ⟨_, hdone, hkey⟩) fun hopened => .inr hopened.2

theorem finish (hw : g.WellFormed) (h : g.Walking reach p opened ((id, true) :: stack))
    (hname : g.nameOf? id = some name) (hdone : keyOf name ∉ p.done) :
    g.Walking reach (p.finish name) opened stack := by
  have hkey := keyAt?_of_nameOf? hname
  have hiff : ∀ {a}, g.Finished (p.finish name) a ↔ a = id ∨ g.Finished p a := hw.finished_finish_iff hname
  have hdrop : ∀ b, (b, true) ∈ (id, true) :: stack → g.Finished (p.finish name) b ∨ (b, true) ∈ stack := by
    intro b hb
    rcases List.mem_cons.mp hb with heq | hb
    · exact .inl (hiff.mpr (.inl (Prod.mk.inj heq).1))
    · exact .inr hb
  -- nothing is left above `id` on the stack: what it references is finished, or still open below
  have hopen : ∀ b, g.Arrow id b → g.Finished p b ∨ (b, true) ∈ (id, true) :: stack := by
    intro b hb
    rcases (h.framed.1 rfl).1 b hb with (hb | hb) | hb
    · exact .inl hb
    · exact h.active b hb
    · cases hb
  constructor
  case keys => simp [Progress.finish, h.keys]
  case nodup => exact List.nodup_cons.mpr ⟨hdone, h.nodup⟩
  case ordered =>
    refine ⟨fun target htarget => ?_, h.ordered⟩
    obtain ⟨position, edge, hm, hsource, htarget, -⟩ := htarget
    have hid : edge.source = id := Coherent.keyAt?_inj (hw.not_split _) hsource hkey
    rcases hopen edge.target (arrow_iff.mpr ⟨edge, hm, hid, rfl⟩) with ⟨key, hmem, hfinished⟩ | hb
    · obtain rfl := Option.some.inj (hfinished.symm.trans htarget)
      exact .inl (h.keys ▸ hmem)
    · -- a target that is still open leads back to `id`: the reference is on a cycle
      right
      rcases List.mem_cons.mp hb with heq | hb
      · rw [(Prod.mk.inj heq).1, hkey] at htarget
        exact Option.some.inj htarget ▸ .refl
      · have hback := h.framed.2.leads hb (id, true) (List.mem_singleton_self _)
        obtain ⟨key, last, hfirst, hlast, hwalk⟩ := hw.references_of_arrow hback
        obtain rfl := Option.some.inj (htarget.symm.trans hfirst)
        obtain rfl := Option.some.inj (hkey.symm.trans hlast)
        exact hwalk.to_reflTransGen
  case reached =>
    obtain ⟨key, hid, hreach⟩ := h.known _ List.mem_cons_self
    obtain rfl := Option.some.inj (hkey.symm.trans hid)
    exact List.forall_mem_cons.mpr ⟨hreach, h.reached⟩
  case closed =>
    intro a b ha hab
    have hb : g.Finished p b ∨ (b, true) ∈ (id, true) :: stack := by
      rcases hiff.mp ha with rfl | ha
      · exact hopen b hab
      · exact h.closed a b ha hab
    exact hb.elim (fun hb => .inl (hb.finish name)) (hdrop b)
  case known => exact fun entry hentry => h.known entry (List.mem_cons_of_mem _ hentry)
  case expanded => exact fun a ha => h.expanded a (List.mem_cons_of_mem _ ha)
  case active => exact fun a ha => (h.active a ha).elim (fun ha => .inl (ha.finish name)) (hdrop a)
  case framed => exact h.framed.pop (fun b hb => hb.imp_left fun hb => hb.finish name) nofun

theorem enter (hc : g.Coherent) (hreach : ∀ key target, reach key → g.References key target → reach target)
    (h : g.Walking reach p opened ((id, false) :: stack)) :
    g.Walking reach p (id :: opened) ((g.successors id).map (·, false) ++ (id, true) :: stack) := by
  have hstack : ∀ b, (b, true) ∈ (id, false) :: stack →
      (b, true) ∈ (g.successors id).map (·, false) ++ (id, true) :: stack := by
    intro b hb
    obtain hb : (b, true) ∈ stack := by simpa using hb
    exact List.mem_append_right _ (List.mem_cons_of_mem _ hb)
  constructor
  case keys => exact h.keys
  case nodup => exact h.nodup
  case ordered => exact h.ordered
  case reached => exact h.reached
  case closed => exact fun a b ha hab => (h.closed a b ha hab).imp_right (hstack b)
  case known =>
    obtain ⟨hid, hrest⟩ := List.forall_mem_cons.mp h.known
    refine List.forall_mem_append.mpr ⟨fun entry hentry => ?_, List.forall_mem_cons.mpr ⟨hid, hrest⟩⟩
    obtain ⟨b, hb, rfl⟩ := List.mem_map.mp hentry
    obtain ⟨key, hkey, hkeyReach⟩ := hid
    obtain ⟨edge, hm, rfl, rfl⟩ := arrow_iff.mp hb
    obtain ⟨target, htarget⟩ := hc.target_known edge hm
    exact ⟨target, htarget, hreach key target hkeyReach ⟨_, edge, hm, hkey, htarget, rfl⟩⟩
  case expanded =>
    intro a ha
    obtain rfl | ha : a = id ∨ (a, true) ∈ stack := by simpa using ha
    · exact List.mem_cons_self
    · exact List.mem_cons_of_mem _ (h.expanded a (List.mem_cons_of_mem _ ha))
  case active =>
    intro a ha
    rcases List.mem_cons.mp ha with rfl | ha
    · exact .inr (List.mem_append_right _ List.mem_cons_self)
    · exact (h.active a ha).imp_right (hstack a)
  case framed => exact h.framed.push (fun b hb => hb.imp_right (List.mem_cons_of_mem _)) (.inr List.mem_cons_self)

/-- A walk that ends has finished all that was on its stack, and leaves nothing half done. -/
theorem run (hw : g.WellFormed) (hreach : ∀ key target, reach key → g.References key target → reach target)
    (hwalk : g.Walks p opened stack q) (h : g.Walking reach p opened stack) :
    g.Walking reach q [] [] ∧ (∀ key ∈ p.done, key ∈ q.done) ∧ ∀ entry ∈ stack, g.Finished q entry.1 := by
  have hmono : ∀ {p q : Progress} {id}, (∀ key ∈ p.done, key ∈ q.done) → g.Finished p id →
      g.Finished q id :=
    fun hkept ⟨key, hmem, hkey⟩ => ⟨key, hkept key hmem, hkey⟩
  induction hwalk with
  | done =>
      refine ⟨?_, fun _ hkey => hkey, nofun⟩
      exact { h with expanded := nofun, active := nofun, framed := trivial }
  | unknown hname hwalk ih =>
      obtain ⟨key, hkey, -⟩ := h.known _ List.mem_cons_self
      rw [keyAt?, hname] at hkey
      cases hkey
  | @skip p opened id expanded stack name q hname hmet hwalk ih =>
      have hrest := h.skip hname hmet
      obtain ⟨hend, hkept, hall⟩ := ih hrest
      refine ⟨hend, hkept, List.forall_mem_cons.mpr ⟨?_, hall⟩⟩
      rcases hmet with hdone | ⟨-, hopened⟩
      · exact hmono hkept ⟨_, hdone, keyAt?_of_nameOf? hname⟩
      · exact (hrest.active id hopened).elim (hmono hkept) (hall _)
  | finish hname hdone hwalk ih =>
      obtain ⟨hend, hkept, hall⟩ := ih (h.finish hw hname hdone)
      refine ⟨hend, fun key hkey => hkept key (List.mem_cons_of_mem _ hkey), ?_⟩
      exact List.forall_mem_cons.mpr ⟨hmono hkept (finished_finish hname), hall⟩
  | enter hname hdone hopened hwalk ih =>
      obtain ⟨hend, hkept, hall⟩ := ih (h.enter hw.toCoherent hreach)
      obtain ⟨hid, hall⟩ := List.forall_mem_cons.mp (List.forall_mem_append.mp hall).2
      exact ⟨hend, hkept, List.forall_mem_cons.mpr ⟨hid, hall⟩⟩

end Walking

/-! ## The names of an order -/

/-- What is listed from names is closed under references, in order, and can be reached. -/
theorem Scheduled.settled (hw : g.WellFormed) {reach : String → Prop}
    (hreach : ∀ key target, reach key → g.References key target → reach target) {names : List String}
    (hscheduled : g.Scheduled p names q) (hnames : ∀ name ∈ names, reach (keyOf name))
    (h : g.Walking reach p [] []) :
    g.Walking reach q [] [] ∧ (∀ key ∈ p.done, key ∈ q.done) ∧ ∀ name ∈ names, keyOf name ∈ q.done := by
  induction hscheduled with
  | done => exact ⟨h, fun _ hkey => hkey, nofun⟩
  | @walked p name id q names r hnode hwalk hscheduled ih =>
      obtain ⟨hname, hnames⟩ := List.forall_mem_cons.mp hnames
      have hkey := hw.keyAt?_node? hnode
      have hstart : g.Walking reach p [] [(id, false)] :=
        { h with
          closed := fun a b ha hab => .inl ((h.closed a b ha hab).resolve_right List.not_mem_nil)
          known := List.forall_mem_singleton.mpr ⟨_, hkey, hname⟩
          expanded := by simp
          active := nofun
          framed := ⟨nofun, trivial⟩ }
      obtain ⟨hend, hkept, hall⟩ := hstart.run hw hreach hwalk
      obtain ⟨hlast, hkept', hall'⟩ := ih hnames hend
      refine ⟨hlast, fun key hmem => hkept' key (hkept key hmem), List.forall_mem_cons.mpr ⟨?_, hall'⟩⟩
      obtain ⟨key, hmem, hid⟩ := hall (id, false) List.mem_cons_self
      obtain rfl := Option.some.inj (hkey.symm.trans hid)
      exact hkept' _ hmem
  | repeated hnode hdone hscheduled ih =>
      obtain ⟨-, hnames⟩ := List.forall_mem_cons.mp hnames
      obtain ⟨hlast, hkept, hall⟩ := ih hnames h
      exact ⟨hlast, hkept, List.forall_mem_cons.mpr ⟨hkept _ hdone, hall⟩⟩
  | @single p name names r hnode hdone hscheduled ih =>
      obtain ⟨hname, hnames⟩ := List.forall_mem_cons.mp hnames
      -- a name without a node references nothing
      have hnone : ∀ {id}, g.keyAt? id ≠ some (keyOf name) := fun hid =>
        Option.some_ne_none _ ((Coherent.eq_of_keyAt? (hw.not_split _) hid).symm.trans hnode)
      have hiff : ∀ {a}, g.Finished (p.finish name) a ↔ g.Finished p a := by
        refine ⟨?_, fun ha => ha.finish name⟩
        rintro ⟨key, hmem, hkey⟩
        rcases List.mem_cons.mp hmem with rfl | hmem
        · exact absurd hkey hnone
        · exact ⟨key, hmem, hkey⟩
      have hstart : g.Walking reach (p.finish name) [] [] :=
        { h with
          keys := by simp [Progress.finish, h.keys]
          nodup := List.nodup_cons.mpr ⟨hdone, h.nodup⟩
          ordered := ⟨fun target ⟨_, _, _, hsource, _⟩ => absurd hsource hnone, h.ordered⟩
          reached := List.forall_mem_cons.mpr ⟨hname, h.reached⟩
          closed := by simpa only [hiff] using h.closed
          active := nofun
          framed := trivial }
      obtain ⟨hlast, hkept, hall⟩ := ih hnames hstart
      exact ⟨hlast, fun key hmem => hkept key (List.mem_cons_of_mem _ hmem),
        List.forall_mem_cons.mpr ⟨hkept _ List.mem_cons_self, hall⟩⟩

theorem Ordered.of_append {after before : List String} (h : g.Ordered (after ++ name :: before)) {target : String}
    (htarget : g.References (keyOf name) target) :
    target ∈ before.map keyOf ∨ ReflTransGen g.References target (keyOf name) := by
  induction after with
  | nil => exact h.1 target htarget
  | cons last after ih => exact ih h.2

/-- What a listed result references stands before it, unless it leads back to the result. -/
theorem Walking.before_or_back {reach : String → Prop} (h : g.Walking reach p [] []) {before after : List String}
    (horder : p.order.reverse = before ++ name :: after) {target : String}
    (htarget : g.References (keyOf name) target) :
    target ∈ before.map keyOf ∨ ReflTransGen g.References target (keyOf name) := by
  have hordered := h.ordered
  rw [List.reverse_eq_iff.mp horder, List.reverse_append, List.reverse_cons, List.append_assoc,
    List.singleton_append] at hordered
  simpa using hordered.of_append htarget

/-- The walks from a list of names end on every graph that changes build. They list each name once, in one of its
spellings, and exactly what the names lead to. If the graph has no loop, whatever a listed result references
stands before it. -/
theorem schedule_built (updates : List Update) (names : List String) :
    let g := built updates
    let order := g.schedule names
    (∃ p, g.Scheduled {} names p ∧ p.order.reverse = order) ∧
      (order.map keyOf).Nodup ∧
      (∀ key, key ∈ order.map keyOf ↔ ∃ name ∈ names, ReflTransGen g.References (keyOf name) key) ∧
      (g.Acyclic → ∀ before result after, order = before ++ result :: after →
        ∀ reference, g.References (keyOf result) reference → reference ∈ before.map keyOf) := by
  intro g order
  have hw : g.WellFormed := wellFormed_built updates
  let reach (key : String) : Prop := ∃ name ∈ names, ReflTransGen g.References (keyOf name) key
  have hreach : ∀ key target, reach key → g.References key target → reach target :=
    fun key target ⟨name, hname, hwalk⟩ htarget => ⟨name, hname, hwalk.tail htarget⟩
  have hscheduled := scheduled_foldl hw.toCoherent names {}
  have hempty : g.Walking reach {} [] [] :=
    ⟨rfl, List.nodup_nil, trivial, nofun, fun _ _ ⟨_, hmem, _⟩ => absurd hmem List.not_mem_nil, nofun, nofun,
      nofun, trivial⟩
  obtain ⟨hend, -, hall⟩ := hscheduled.settled hw hreach (fun name hname => ⟨name, hname, .refl⟩) hempty
  have hkeys : order.map keyOf = (names.foldl g.orderName {}).done.reverse := by
    rw [hend.keys, ← List.map_reverse]
    rfl
  refine ⟨⟨_, hscheduled, rfl⟩, hkeys ▸ List.nodup_reverse.mpr hend.nodup, fun key => ?_, ?_⟩
  · rw [hkeys, List.mem_reverse]
    refine ⟨hend.reached key, ?_⟩
    rintro ⟨name, hname, hwalk⟩
    induction hwalk with
    | refl => exact hall name hname
    | tail _ hstep ih =>
        obtain ⟨position, edge, hm, hsource, htarget, -⟩ := hstep
        obtain ⟨key, hmem, hkey⟩ := (hend.closed edge.source edge.target ⟨_, ih, hsource⟩
          (arrow_iff.mpr ⟨edge, hm, rfl, rfl⟩)).resolve_right List.not_mem_nil
        exact Option.some.inj (hkey.symm.trans htarget) ▸ hmem
  · intro hac before result after horder reference hreference
    refine (hend.before_or_back horder hreference).resolve_right fun hback => ?_
    exact hac _ (.head' hreference hback)

/-- From `x` and `A` all names are listed, and `b` comes before the `a` that references it. -/
theorem schedule_built_chain :
    (built twoUpdates).Acyclic ∧ (built twoUpdates).References "a" "b" ∧
      ∃ before result after, (built twoUpdates).schedule ["x", "A", "X"] = before ++ result :: after ∧
        keyOf result = "a" ∧ "b" ∈ before.map keyOf := by
  have hnone : ({} : Graph).cycleWithAll [("a", ["b", "c"]), ("b", ["c"])] = none := by cbv
  have hac : (built twoUpdates).Acyclic := (WellFormed.empty.cycleWithAll_eq_none_iff acyclic_empty).mp hnone
  have hreference : (built twoUpdates).References "a" "b" :=
    ⟨0, ⟨0, 1, 0⟩, by decide +kernel, by decide +kernel, by decide +kernel, rfl⟩
  have hkey : keyOf "A" = "a" := by decide +kernel
  obtain ⟨-, -, hlisted, hbefore⟩ := schedule_built twoUpdates ["x", "A", "X"]
  have hmem : "a" ∈ ((built twoUpdates).schedule ["x", "A", "X"]).map keyOf :=
    (hlisted "a").mpr ⟨"A", by simp, by rw [hkey]⟩
  obtain ⟨result, hresult, hresultKey⟩ := List.mem_map.mp hmem
  obtain ⟨before, after, horder⟩ := List.append_of_mem hresult
  exact ⟨hac, hreference, before, result, after, horder, hresultKey,
    hbefore hac before result after horder "b" (by rwa [hresultKey])⟩

end Parametric.Graph
