import Mathlib.Data.List.Forall2
import Parametric.Proofs.Dependency.Table

/-!
# Cycles that are found

A search from a name that comes back to it has followed references all the way, so a graph without cycles
passes every check.
-/

namespace Parametric.Graph

open Relation

variable {g : Graph} {start : Nat}

/-- The nodes of a path can be reached from the start, and what is untried beside them are their successors. -/
def Follows (g : Graph) (start : Nat) (path : List Nat) (frontier : List (List Nat)) : Prop :=
  List.Forall₂ (fun node pending => ReflTransGen g.Arrow start node ∧ ∀ b ∈ pending, g.Arrow node b) path frontier

theorem Follows.init : g.Follows start [start] [g.successors start] :=
  .cons ⟨.refl, fun _ hb => hb⟩ .nil

theorem reaches_of_pathBack (steps : Nat) (visited path : List Nat) (frontier : List (List Nat))
    (h : g.Follows start path frontier) {found : List Nat}
    (hfound : g.pathBack start steps visited path frontier = some found) : TransGen g.Arrow start start := by
  fun_induction pathBack g start steps visited path frontier with
  | case1 | case2 => cases hfound
  | case3 steps visited path frontier ih =>
      cases h with
      | cons _ htail => exact ih htail hfound
  | case4 steps visited path pending frontier =>
      cases h with
      | cons hnode _ => exact .tail' hnode.1 (hnode.2 start List.mem_cons_self)
  | case5 steps visited path next pending frontier hs hv ih =>
      cases h with
      | cons hnode htail =>
          exact ih (.cons ⟨hnode.1, fun b hb => hnode.2 b (List.mem_cons_of_mem _ hb)⟩ htail) hfound
  | case6 steps visited path next pending frontier hs hv ih =>
      cases h with
      | cons hnode htail =>
          refine ih (.cons ⟨hnode.1.tail (hnode.2 next List.mem_cons_self), fun _ hb => hb⟩
            (.cons ⟨hnode.1, fun b hb => hnode.2 b (List.mem_cons_of_mem _ hb)⟩ htail)) hfound

theorem Coherent.references_of_arrow (h : g.Coherent) {a b : Nat} (hab : TransGen g.Arrow a b) :
    ∃ key target, g.keyAt? a = some key ∧ g.keyAt? b = some target ∧ TransGen g.References key target := by
  have hstep : ∀ {a b}, g.Arrow a b → ∃ key target, g.keyAt? a = some key ∧ g.keyAt? b = some target ∧
      g.References key target := by
    intro a b hab
    obtain ⟨edge, hm, rfl, rfl⟩ := arrow_iff.mp hab
    obtain ⟨key, hkey⟩ := h.source_known edge hm
    obtain ⟨target, htarget⟩ := h.target_known edge hm
    exact ⟨key, target, hkey, htarget, edge.position, edge, hm, hkey, htarget, rfl⟩
  induction hab with
  | single hab =>
      obtain ⟨key, target, hkey, htarget, hlink⟩ := hstep hab
      exact ⟨key, target, hkey, htarget, .single hlink⟩
  | tail _ hbc ih =>
      obtain ⟨key, middle, hkey, hmiddle, hwalk⟩ := ih
      obtain ⟨middle', target, hmiddle', htarget, hlink⟩ := hstep hbc
      obtain rfl : middle = middle' := Option.some.inj (hmiddle.symm.trans hmiddle')
      exact ⟨key, target, hkey, htarget, hwalk.tail hlink⟩

theorem loopAt_eq_none (h : g.Coherent) (hac : g.Acyclic) (name : String) : g.loopAt name = none := by
  cases hnode : g.node? name with
  | none => simp [loopAt, hnode]
  | some start =>
      cases hfound : g.pathBack start (g.numEdges + g.numNodes + 2) [] [start] [g.successors start] with
      | none => simp [loopAt, hnode, hfound]
      | some path =>
          obtain ⟨key, target, hkey, htarget, hwalk⟩ :=
            h.references_of_arrow (reaches_of_pathBack _ _ _ _ .init hfound)
          obtain rfl : key = target := Option.some.inj (hkey.symm.trans htarget)
          exact absurd hwalk (hac key)

theorem cycleWithAll_eq_none {formulas : List (String × List String)} (h : g.Coherent)
    (hac : (g.setAll formulas).Acyclic) : g.cycleWithAll formulas = none := by
  simp only [cycleWithAll, List.findSome?_eq_none_iff]
  exact fun f _ => loopAt_eq_none h.setAll hac f.1

end Parametric.Graph
