/-
# `Mavros.Lib.Toposort` — dependencies before what depends on them

A depth-first walk along the dependencies lists a node once all it depends on is listed or
known beforehand.  On a graph without cycles a node that was visited but is not listed yet
is one the walk is inside of, so the node at hand is never met again below itself.

## What is proved

* `topoSort_ordered`: every node of the list comes after all its dependencies that are not
  known beforehand.
* `mem_topoSort`: every root is known or listed.

## How it goes

`Covers w nodes w'` is what a part of the walk does: it keeps the order, forgets nothing, lists
the nodes it was sent to, and what it met is listed when it is back.  `covers_visit` is proved by
induction along the acyclic order and `covers_topoSort` puts the roots together; the two
theorems are fields of it.

The graph carries its acyclicity as a field (`DepGraph`), so that the walk needs no fuel.  Where
the nodes are finitely many `DepGraph.ofIrrefl` makes one from the fact that no node depends on
itself through others.
-/
import Mathlib.Data.Fintype.Card
import Mathlib.Logic.Relation
import Mathlib.Tactic.Common

namespace Mavros.Lib

/-- Dependencies that do not go on for ever. -/
structure DepGraph (α : Type) where
  dependencies : α → List α
  acyclic : WellFounded fun d a => d ∈ dependencies a

namespace DepGraph

variable {α : Type}

/-- A finite graph is acyclic when no node depends on itself. -/
def ofIrrefl [Finite α] (dependencies : α → List α)
    (h : ∀ a, ¬ Relation.TransGen (fun d a => d ∈ dependencies a) a a) : DepGraph α where
  dependencies := dependencies
  acyclic := by
    have : Std.Irrefl (Relation.TransGen fun d a => d ∈ dependencies a) := ⟨h⟩
    refine Subrelation.wf (fun {d a} hd => ?_)
      (Finite.wellFounded_of_trans_of_irrefl (Relation.TransGen fun d a => d ∈ dependencies a))
    exact Relation.TransGen.single hd

variable (g : DepGraph α)

/-- `d` is below `a`: `a` depends on it, through others perhaps. -/
abbrev Under (d a : α) : Prop := Relation.TransGen (fun d a => d ∈ g.dependencies a) d a

/-- `a` is `d` or depends on it. -/
abbrev Uses (a d : α) : Prop := Relation.ReflTransGen (fun a d => d ∈ g.dependencies a) a d

theorem not_under_self (a : α) : ¬ g.Under a a := fun h =>
  g.acyclic.transGen.asymmetric _ _ h h

/-- Every member's dependencies are known or come before it. -/
inductive Ordered (known : α → Bool) : List α → Prop
  | nil : Ordered known []
  | snoc {l : List α} {a : α} : Ordered known l →
      (∀ d ∈ g.dependencies a, known d = true ∨ d ∈ l) → Ordered known (l ++ [a])

/-- The nodes met and those listed. -/
structure Walk (α : Type) where
  visited : List α
  result : List α

variable [DecidableEq α] (known : α → Bool)

def visit (a : α) (w : Walk α) : Walk α :=
  if known a || w.visited.contains a then w
  else
    let w := (g.dependencies a).attach.foldl (fun w d => visit d.1 w)
      { w with visited := a :: w.visited }
    { w with result := w.result ++ [a] }
termination_by g.acyclic.wrap a
decreasing_by exact d.2

def topoSort (roots : List α) : List α :=
  (roots.foldl (fun w a => g.visit known a w) ⟨[], []⟩).result

/-! ## The walk

`Inside` is the invariant: what was met and is not listed is what the walk is inside of.
-/

section Spec

variable {g known}

omit [DecidableEq α]

/-- The walk is inside of what it met and did not list. -/
def Inside (open' : α → Prop) (w : Walk α) : Prop := ∀ b ∈ w.visited, b ∈ w.result ∨ open' b

variable (g known) in
/-- From `w` the walk went through the nodes to `w'`. -/
structure Covers (w : Walk α) (nodes : List α) (w' : Walk α) : Prop where
  ordered : g.Ordered known w.result → g.Ordered known w'.result
  result : w.result ⊆ w'.result
  listed : ∀ a ∈ nodes, known a = true ∨ a ∈ w'.result
  visited : ∀ b ∈ w'.visited, b ∈ w.visited ∨ b ∈ w'.result

theorem Covers.inside {w w' : Walk α} {nodes : List α} {open' : α → Prop}
    (h : Covers g known w nodes w') (hw : Inside open' w) : Inside open' w' := by
  intro b hb
  rcases h.visited b hb with hb | hb
  · exact (hw b hb).imp_left fun hlisted => h.result hlisted
  · exact .inl hb

theorem Covers.cons {w w' w'' : Walk α} {a : α} {nodes : List α}
    (h : Covers g known w [a] w') (hrest : Covers g known w' nodes w'') :
    Covers g known w (a :: nodes) w'' where
  ordered := hrest.ordered ∘ h.ordered
  result := List.Subset.trans h.result hrest.result
  listed := by
    rintro b (_ | ⟨_, hb⟩)
    · exact (h.listed a List.mem_cons_self).imp_right fun hlisted => hrest.result hlisted
    · exact hrest.listed b hb
  visited := by
    intro b hb
    rcases hrest.visited b hb with hb | hb
    · exact (h.visited b hb).imp_right fun hlisted => hrest.result hlisted
    · exact .inr hb

variable [DecidableEq α]

/-- Nodes one after the other, when the walk goes through each of them. -/
theorem covers_foldl {open' : α → Prop} : ∀ {nodes : List α} {w : Walk α}, Inside open' w →
    (∀ a ∈ nodes, ∀ w, Inside open' w → Covers g known w [a] (g.visit known a w)) →
    Covers g known w nodes (nodes.foldl (fun w a => g.visit known a w) w)
  | [], _, _, _ =>
    ⟨id, List.Subset.refl _, fun _ h => absurd h List.not_mem_nil, fun _ hb => .inl hb⟩
  | a :: nodes, w, hw, h => by
    have hfirst := h a List.mem_cons_self w hw
    exact hfirst.cons (covers_foldl (hfirst.inside hw) fun b hb =>
      h b (List.mem_cons_of_mem a hb))

theorem foldl_attach_visit (l : List α) (w : Walk α) :
    l.attach.foldl (fun w d => g.visit known d.1 w) w
      = l.foldl (fun w d => g.visit known d w) w :=
  List.foldl_attach (f := fun w d => g.visit known d w)

/-- What the walk is inside of depends on the node it goes to. -/
theorem covers_visit (a : α) {w : Walk α} (hw : Inside (g.Under a) w) :
    Covers g known w [a] (g.visit known a w) := by
  induction a using g.acyclic.induction generalizing w with
  | _ a ih =>
    rw [visit]
    split
    · next hskip =>
      refine ⟨id, List.Subset.refl _, ?_, fun _ hb => .inl hb⟩
      intro b hb
      obtain rfl := List.mem_singleton.mp hb
      rcases Bool.or_eq_true_iff.mp hskip with hknown | hvisited
      · exact .inl hknown
      · have hb := hw b (List.contains_iff_mem.mp hvisited)
        exact .inr (hb.resolve_right (g.not_under_self b))
    · -- the walk is now inside of `a` as well
      have hopen : Inside (fun b => b = a ∨ g.Under a b) { w with visited := a :: w.visited } := by
        intro b hb
        rcases List.mem_cons.mp hb with rfl | hb
        · exact .inr (.inl rfl)
        · exact (hw b hb).imp_right .inr
      have hstep : ∀ d ∈ g.dependencies a, ∀ w, Inside (fun b => b = a ∨ g.Under a b) w →
          Covers g known w [d] (g.visit known d w) := by
        intro d hd w hw
        refine ih d hd fun b hb => (hw b hb).imp_right ?_
        rintro (rfl | hunder)
        · exact .single hd
        · exact .head hd hunder
      have hdeps := covers_foldl hopen hstep
      rw [foldl_attach_visit]
      generalize (g.dependencies a).foldl (fun w d => g.visit known d w)
        { w with visited := a :: w.visited } = w' at hdeps
      refine ⟨fun hordered => (hdeps.ordered hordered).snoc hdeps.listed, ?_, ?_, ?_⟩
      · exact List.Subset.trans hdeps.result (List.subset_append_left _ _)
      · intro b hb
        exact .inr (List.mem_append_right _ hb)
      · intro b hb
        rcases hdeps.visited b hb with hb | hb
        · rcases List.mem_cons.mp hb with rfl | hb
          · exact .inr (List.mem_append_right _ (List.mem_singleton_self b))
          · exact .inl hb
        · exact .inr (List.mem_append_left _ hb)

theorem covers_topoSort (roots : List α) :
    Covers g known ⟨[], []⟩ roots (roots.foldl (fun w a => g.visit known a w) ⟨[], []⟩) := by
  have hstart : Inside (fun _ => False) (⟨[], []⟩ : Walk α) := fun _ h => nomatch h
  exact covers_foldl hstart fun a _ w hw =>
    covers_visit a fun b hb => (hw b hb).imp_right False.elim

theorem topoSort_ordered (roots : List α) : g.Ordered known (g.topoSort known roots) :=
  (covers_topoSort roots).ordered .nil

theorem mem_topoSort {roots : List α} {a : α} (ha : a ∈ roots) :
    known a = true ∨ a ∈ g.topoSort known roots :=
  (covers_topoSort roots).listed a ha

end Spec

end DepGraph

end Mavros.Lib
