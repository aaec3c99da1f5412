/-
# `Mavros.Lib.Dfs` — numbering the nodes of a tree

A tree is given by the children of each node and walked to a given depth.  In the order
that lists a node before its children and the one that lists it after them, the
descendants of a node are exactly those that come no earlier in the first and no later in
the second (`interval_iff_below`), which is how ancestors are queried with two numbers.

## How it goes

The walk down to a depth is structural in the depth, so that both orders compute; that the
depth was enough is the separate predicate `Exhausts`, under which what is listed is closed
under going down (`Exhausts.mem_preOrder`).

`interval_iff_below_forest` is the induction: for a list of trees that share no node, the
numbering of the whole list is read off the numbering of each tree.  Two nodes of one tree are
compared inside it, two nodes of different trees by the order of the trees, and in neither case
does the pair of numbers say more than the position in the list.

## What it is not

Nothing here says that the children come from an immediate-dominator relation, or that the
depth of some tree is bounded.  Both are supplied by `Mavros.Lib.DominatorTree`.
-/
import Mathlib.Data.List.Nodup
import Mathlib.Data.List.Perm.Basic
import Mathlib.Tactic.Common

namespace Mavros.Lib

variable {α : Type*} {children : α → List α}

/-- The nodes below a node down to the given depth, each before its children. -/
def preOrder (children : α → List α) : Nat → α → List α
  | 0, _ => []
  | depth + 1, a => a :: (children a).flatMap (preOrder children depth)

/-- The same nodes, each after its children. -/
def postOrder (children : α → List α) : Nat → α → List α
  | 0, _ => []
  | depth + 1, a => (children a).flatMap (postOrder children depth) ++ [a]

/-- `b` is `a` or a descendant of it. -/
def Below (children : α → List α) (a b : α) : Prop := ∃ depth, b ∈ preOrder children depth a

theorem postOrder_perm (depth : Nat) (a : α) :
    (postOrder children depth a).Perm (preOrder children depth a) := by
  induction depth generalizing a with
  | zero => exact .refl _
  | succ depth ih =>
    exact (List.perm_append_singleton _ _).trans
      ((List.Perm.flatMap_left _ fun c _ => ih c).cons a)

theorem mem_postOrder {depth : Nat} {a b : α} :
    b ∈ postOrder children depth a ↔ b ∈ preOrder children depth a :=
  (postOrder_perm depth a).mem_iff

theorem preOrder_mono {depth depth' : Nat} (h : depth ≤ depth') {a b : α}
    (hb : b ∈ preOrder children depth a) : b ∈ preOrder children depth' a := by
  induction depth generalizing a depth' with
  | zero => simp [preOrder] at hb
  | succ depth ih =>
    obtain ⟨depth', rfl⟩ : ∃ n, depth' = n + 1 := ⟨depth' - 1, by omega⟩
    rw [preOrder, List.mem_cons, List.mem_flatMap] at hb ⊢
    exact hb.imp_right fun ⟨c, hc, hbc⟩ => ⟨c, hc, ih (by omega) hbc⟩

/-- What is below a node below `a` is below `a`. -/
theorem mem_preOrder_trans {depth depth' : Nat} {a b c : α}
    (hb : b ∈ preOrder children depth a) (hc : c ∈ preOrder children depth' b) :
    c ∈ preOrder children (depth + depth') a := by
  induction depth generalizing a with
  | zero => simp [preOrder] at hb
  | succ depth ih =>
    rw [preOrder, List.mem_cons, List.mem_flatMap] at hb
    rcases hb with rfl | ⟨x, hx, hbx⟩
    · exact preOrder_mono (by omega) hc
    · rw [Nat.add_right_comm, preOrder, List.mem_cons, List.mem_flatMap]
      exact .inr ⟨x, hx, ih hbx⟩

/-- The tree below a node is no deeper than the given depth. -/
def Exhausts (children : α → List α) : Nat → α → Prop
  | 0, _ => False
  | depth + 1, a => ∀ c ∈ children a, Exhausts children depth c

theorem Exhausts.mem_preOrder {depth : Nat} {a b : α} (h : Exhausts children depth a)
    (hb : Below children a b) : b ∈ preOrder children depth a := by
  induction depth generalizing a with
  | zero => exact h.elim
  | succ depth ih =>
    obtain ⟨depth', hb⟩ := hb
    cases depth' with
    | zero => simp [preOrder] at hb
    | succ depth' =>
      rw [preOrder, List.mem_cons, List.mem_flatMap] at hb ⊢
      exact hb.imp_right fun ⟨c, hc, hbc⟩ => ⟨c, hc, ih (h c hc) ⟨depth', hbc⟩⟩

theorem mem_forest_mono {depth depth' : Nat} (h : depth ≤ depth') {cs : List α} {b : α}
    (hb : b ∈ cs.flatMap (preOrder children depth)) :
    b ∈ cs.flatMap (preOrder children depth') := by
  obtain ⟨c, hc, hbc⟩ := List.mem_flatMap.mp hb
  exact List.mem_flatMap.mpr ⟨c, hc, preOrder_mono h hbc⟩

theorem mem_forest_trans {depth depth' : Nat} {cs : List α} {a b : α}
    (ha : a ∈ cs.flatMap (preOrder children depth)) (hb : b ∈ preOrder children depth' a) :
    b ∈ cs.flatMap (preOrder children (depth + depth')) := by
  obtain ⟨c, hc, hac⟩ := List.mem_flatMap.mp ha
  exact List.mem_flatMap.mpr ⟨c, hc, mem_preOrder_trans hac hb⟩

variable [DecidableEq α]

/-- The numbering of a list of disjoint trees, from the numbering of each. -/
theorem interval_iff_below_forest {depth : Nat} {cs : List α}
    (hnodup : ∀ depth', (cs.flatMap (preOrder children depth')).Nodup)
    (htree : ∀ c ∈ cs, ∀ a b, a ∈ preOrder children depth c → b ∈ preOrder children depth c →
      ((preOrder children depth c).idxOf a ≤ (preOrder children depth c).idxOf b ∧
        (postOrder children depth c).idxOf b ≤ (postOrder children depth c).idxOf a ↔
        Below children a b))
    {a b : α} (ha : a ∈ cs.flatMap (preOrder children depth))
    (hb : b ∈ cs.flatMap (preOrder children depth)) :
    (cs.flatMap (preOrder children depth)).idxOf a ≤
        (cs.flatMap (preOrder children depth)).idxOf b ∧
      (cs.flatMap (postOrder children depth)).idxOf b ≤
        (cs.flatMap (postOrder children depth)).idxOf a ↔ Below children a b := by
  induction cs with
  | nil => simp at ha
  | cons c cs ih =>
    -- the first tree shares no node with the others, to any depth
    have hdisj (depth' : Nat) {x : α} (hx : x ∈ preOrder children depth' c) :
        x ∉ cs.flatMap (preOrder children depth') := by
      have h := hnodup depth'
      rw [List.flatMap_cons, List.nodup_append] at h
      exact fun hx' => h.2.2 x hx x hx' rfl
    have hpost {x : α} (h : x ∉ preOrder children depth c) :
        x ∉ postOrder children depth c := fun hx => h (mem_postOrder.mp hx)
    simp only [List.flatMap_cons, List.mem_append] at ha hb ⊢
    by_cases hac : a ∈ preOrder children depth c <;>
      by_cases hbc : b ∈ preOrder children depth c
    · rw [List.idxOf_append_of_mem hac, List.idxOf_append_of_mem hbc,
        List.idxOf_append_of_mem (mem_postOrder.mpr hac),
        List.idxOf_append_of_mem (mem_postOrder.mpr hbc)]
      exact htree c List.mem_cons_self a b hac hbc
    · rw [List.idxOf_append_of_mem (mem_postOrder.mpr hac),
        List.idxOf_append_of_notMem (hpost hbc)]
      have hlt := List.idxOf_lt_length_of_mem (mem_postOrder.mpr hac)
      refine iff_of_false (by omega) fun ⟨e, he⟩ => ?_
      exact hdisj (depth + e) (mem_preOrder_trans hac he)
        (mem_forest_mono (by omega) (hb.resolve_left hbc))
    · rw [List.idxOf_append_of_notMem hac, List.idxOf_append_of_mem hbc]
      have hlt := List.idxOf_lt_length_of_mem hbc
      refine iff_of_false (by omega) fun ⟨e, he⟩ => ?_
      exact hdisj (depth + e) (preOrder_mono (by omega) hbc)
        (mem_forest_trans (ha.resolve_left hac) he)
    · rw [List.idxOf_append_of_notMem hac, List.idxOf_append_of_notMem hbc,
        List.idxOf_append_of_notMem (hpost hac), List.idxOf_append_of_notMem (hpost hbc),
        Nat.add_le_add_iff_left, Nat.add_le_add_iff_left]
      refine ih (fun depth' => ?_) (fun x hx => htree x (List.mem_cons_of_mem _ hx))
        (ha.resolve_left hac) (hb.resolve_left hbc)
      have h := hnodup depth'
      rw [List.flatMap_cons, List.nodup_append] at h
      exact h.2.1

/-- In a tree without repeated nodes the descendants of a node are those between its two
numbers. -/
theorem interval_iff_below {depth : Nat} {r a b : α}
    (hnodup : ∀ depth', (preOrder children depth' r).Nodup)
    (ha : a ∈ preOrder children depth r) (hb : b ∈ preOrder children depth r) :
    (preOrder children depth r).idxOf a ≤ (preOrder children depth r).idxOf b ∧
      (postOrder children depth r).idxOf b ≤ (postOrder children depth r).idxOf a ↔
      Below children a b := by
  induction depth generalizing r a b with
  | zero => simp [preOrder] at ha
  | succ depth ih =>
    have hforest (depth' : Nat) : r ∉ (children r).flatMap (preOrder children depth') ∧
        ((children r).flatMap (preOrder children depth')).Nodup :=
      List.nodup_cons.mp (hnodup (depth' + 1))
    have hpost : r ∉ (children r).flatMap (postOrder children depth) := by
      intro h
      obtain ⟨c, hc, hrc⟩ := List.mem_flatMap.mp h
      exact (hforest depth).1 (List.mem_flatMap.mpr ⟨c, hc, mem_postOrder.mp hrc⟩)
    have hmem {x : α} (hx : x ∈ preOrder children (depth + 1) r) (hne : x ≠ r) :
        x ∈ (children r).flatMap (preOrder children depth) :=
      (List.mem_cons.mp hx).resolve_left hne
    have hmemPost {x : α} (hx : x ∈ (children r).flatMap (preOrder children depth)) :
        x ∈ (children r).flatMap (postOrder children depth) := by
      obtain ⟨c, hc, hxc⟩ := List.mem_flatMap.mp hx
      exact List.mem_flatMap.mpr ⟨c, hc, mem_postOrder.mpr hxc⟩
    by_cases har : a = r
    · subst har
      have hlast : (postOrder children (depth + 1) a).idxOf b ≤
          (postOrder children (depth + 1) a).idxOf a := by
        rw [postOrder, List.idxOf_append_of_notMem hpost, List.idxOf_cons_self]
        have hlt := List.idxOf_lt_length_of_mem (mem_postOrder.mpr hb)
        simp only [postOrder, List.length_append, List.length_singleton] at hlt
        omega
      rw [preOrder, List.idxOf_cons_self]
      exact iff_of_true ⟨Nat.zero_le _, hlast⟩ ⟨depth + 1, hb⟩
    by_cases hbr : b = r
    · subst hbr
      rw [preOrder, List.idxOf_cons_self, List.idxOf_cons_ne _ (Ne.symm har)]
      refine iff_of_false (by omega) fun ⟨e, he⟩ => ?_
      exact (hforest _).1 (mem_forest_trans (hmem ha har) he)
    · rw [preOrder, postOrder, List.idxOf_cons_ne _ (Ne.symm har),
        List.idxOf_cons_ne _ (Ne.symm hbr), List.idxOf_append_of_mem (hmemPost (hmem ha har)),
        List.idxOf_append_of_mem (hmemPost (hmem hb hbr)), Nat.succ_le_succ_iff]
      refine interval_iff_below_forest (fun depth' => (hforest depth').2)
        (fun c hc x y hx hy => ih (fun depth' => ?_) hx hy) (hmem ha har) (hmem hb hbr)
      exact (List.nodup_flatMap.mp (hforest depth').2).1 c hc

end Mavros.Lib
