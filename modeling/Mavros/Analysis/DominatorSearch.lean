/-
# `Mavros.Analysis.DominatorSearch` — dominators by their definition

A node dominates another when the second is not reached once the first is removed.  The
search below decides dominance so and picks the immediate dominator by its definition; it
stands for `simple_fast` where a concrete function is wanted, and shows that what is
assumed of petgraph can be had for every graph.

## What is proved

`searchDominators_correct`: on a graph whose edges join its nodes the search computes what
`Dominators.Correct` asks for, and `searchDominators_correct_of_graphOf` applies it to the
graph of a function.

## How it goes

`reachedAvoiding` takes as many steps as there are nodes.  This is enough, since a walk without
its detours visits no node twice (`exists_nodup_walk`), and removing a node from the graph
leaves the walks that never visit it.

It is no model of petgraph's algorithm, which is much faster.  No result above rests on this
search: they are about any dominators that are correct.
-/
import Mavros.Analysis.Dominance

namespace Mavros.FlowAnalysis

open Lib

/-- The nodes reached from the root in at most `k` steps that never visit `avoid`. -/
def reachedAvoiding (g : Graph) (root : Node) (avoid : Option Node) : Nat → List Node
  | 0 => if avoid = some root then [] else [root]
  | k + 1 =>
    let seen := reachedAvoiding g root avoid k
    seen ++ (g.edges.filter fun e =>
      e.source ∈ seen ∧ e.target ∉ seen ∧ avoid ≠ some e.target).map (·.target)

theorem mem_reachedAvoiding {g : Graph} {root : Node} {avoid : Option Node} {k : Nat} {x : Node} :
    x ∈ reachedAvoiding g root avoid k ↔
      ∃ hist, Walk root g.Flow (x :: hist) ∧ (∀ n ∈ x :: hist, avoid ≠ some n) ∧
        hist.length ≤ k := by
  induction k generalizing x with
  | zero =>
    have hroot : (∃ hist, Walk root g.Flow (x :: hist) ∧ (∀ n ∈ x :: hist, avoid ≠ some n) ∧
        hist.length ≤ 0) ↔ x = root ∧ avoid ≠ some root := by
      constructor
      · rintro ⟨hist, hwalk, hnot, hlen⟩
        obtain rfl := List.length_eq_zero_iff.mp (Nat.le_zero.mp hlen)
        cases hwalk
        exact ⟨rfl, hnot _ List.mem_cons_self⟩
      · rintro ⟨rfl, hnot⟩
        exact ⟨[], .start, by simpa using hnot, le_refl 0⟩
    rw [hroot, reachedAvoiding]
    by_cases h : avoid = some root <;> simp [h]
  | succ k ih =>
    simp only [reachedAvoiding, List.mem_append, List.mem_map, List.mem_filter,
      decide_eq_true_eq]
    constructor
    · rintro (hx | ⟨e, ⟨he, hs, -, ht⟩, rfl⟩)
      · obtain ⟨hist, hwalk, hnot, hlen⟩ := ih.mp hx
        exact ⟨hist, hwalk, hnot, by omega⟩
      · obtain ⟨hist, hwalk, hnot, hlen⟩ := ih.mp hs
        refine ⟨e.source :: hist, hwalk.step ⟨e, he, rfl, rfl⟩, ?_, by simpa using hlen⟩
        exact List.forall_mem_cons.mpr ⟨ht, hnot⟩
    · rintro ⟨hist, hwalk, hnot, hlen⟩
      by_cases hx : x ∈ reachedAvoiding g root avoid k
      · exact .inl hx
      cases hwalk with
      | start => exact absurd (ih.mpr ⟨[], .start, hnot, Nat.zero_le k⟩) hx
      | @step a _ hist hwalk hedge =>
        obtain ⟨e, he, rfl, rfl⟩ := hedge
        obtain ⟨ht, hnot'⟩ := List.forall_mem_cons.mp hnot
        have hs := ih.mpr ⟨hist, hwalk, hnot', by simpa using hlen⟩
        exact .inr ⟨e, ⟨he, hs, hx, ht⟩, rfl⟩

/-- A walk without its detours. -/
theorem exists_nodup_walk {root : Node} {edge : Node → Node → Prop} {hist : List Node}
    (h : Walk root edge hist) :
    ∃ hist', Walk root edge hist' ∧ hist'.head? = hist.head? ∧ hist'.Nodup ∧ hist' ⊆ hist := by
  induction h with
  | start => exact ⟨_, .start, rfl, by simp, fun _ h => h⟩
  | @step a b hist _ hedge ih =>
    obtain ⟨hist', hwalk, hhead, hnodup, hsub⟩ := ih
    by_cases hb : b ∈ hist'
    · obtain ⟨recent, older, rfl⟩ := List.append_of_mem hb
      refine ⟨b :: older, hwalk.suffix, rfl, (List.nodup_append.mp hnodup).2.1, fun x hx => ?_⟩
      exact List.mem_cons_of_mem _ (hsub (List.mem_append_right _ hx))
    · cases hist' with
      | nil => simp at hhead
      | cons a' hist' =>
        obtain rfl : a' = a := by simpa using hhead
        exact ⟨_, hwalk.step hedge, rfl, List.nodup_cons.mpr ⟨hb, hnodup⟩,
          List.cons_subset_cons b hsub⟩

theorem mem_reachedAvoiding_length {g : Graph} (hg : g.WellFormed) {root : Node}
    (hroot : root ∈ g.nodes) {avoid : Option Node} {x : Node} :
    x ∈ reachedAvoiding g root avoid g.nodes.length ↔
      ∃ hist, Walk root g.Flow (x :: hist) ∧ ∀ n ∈ x :: hist, avoid ≠ some n := by
  rw [mem_reachedAvoiding]
  refine ⟨fun ⟨hist, hwalk, hnot, _⟩ => ⟨hist, hwalk, hnot⟩, fun ⟨hist, hwalk, hnot⟩ => ?_⟩
  obtain ⟨hist', hwalk', hhead, hnodup, hsub⟩ := exists_nodup_walk hwalk
  cases hist' with
  | nil => simp at hhead
  | cons y hist' =>
    obtain rfl : y = x := by simpa using hhead
    refine ⟨hist', hwalk', fun n hn => hnot n (hsub hn), ?_⟩
    have hnodes : (y :: hist') ⊆ g.nodes := by
      intro n hn
      obtain ⟨recent, older, hcut⟩ := List.append_of_mem hn
      exact hg.mem_of_reachable hroot ⟨older, (hcut ▸ hwalk').suffix⟩
    have hlen := (hnodup.subperm hnodes).length_le
    simp only [List.length_cons] at hlen
    omega

def reached (g : Graph) (root b : Node) : Bool :=
  b ∈ reachedAvoiding g root none g.nodes.length

def searchDominates (g : Graph) (root a b : Node) : Bool :=
  b ∉ reachedAvoiding g root (some a) g.nodes.length

theorem reached_iff {g : Graph} (hg : g.WellFormed) {root : Node} (hroot : root ∈ g.nodes)
    (b : Node) : reached g root b = true ↔ Reachable root g.Flow b := by
  rw [reached, decide_eq_true_eq, mem_reachedAvoiding_length hg hroot]
  simp [Reachable]

theorem searchDominates_iff {g : Graph} (hg : g.WellFormed) {root : Node}
    (hroot : root ∈ g.nodes) (a b : Node) :
    searchDominates g root a b = true ↔ Dominates root g.Flow a b := by
  rw [searchDominates, decide_eq_true_eq, mem_reachedAvoiding_length hg hroot]
  simp only [not_exists, not_and, Dominates]
  refine forall_congr' fun hist => forall_congr' fun _ => ?_
  constructor
  · intro h
    by_contra hm
    exact h fun n hn he => hm (Option.some.inj he ▸ hn)
  · exact fun hm h => h a hm rfl

def isImmediate (g : Graph) (root b a : Node) : Bool :=
  a ≠ b && searchDominates g root a b &&
    g.nodes.all fun d => d = b || !searchDominates g root d b || searchDominates g root d a

def searchImmediate (g : Graph) (root b : Node) : Option Node :=
  if reached g root b then g.nodes.find? (isImmediate g root b) else none

/-- Dominators by their definition. -/
def searchDominators (g : Graph) (root : Node) : Dominators where
  immediateDominator := searchImmediate g root
  immediatelyDominatedBy a := g.nodes.filter fun b => searchImmediate g root b = some a

theorem searchDominators_correct {g : Graph} (hg : g.WellFormed) {root : Node}
    (hroot : root ∈ g.nodes) : (searchDominators g root).Correct g root := by
  have hpred (a b : Node) (hb : Reachable root g.Flow b) :
      isImmediate g root b a = true ↔ ImmediatelyDominates root g.Flow a b := by
    simp only [isImmediate, Bool.and_eq_true, decide_eq_true_eq, List.all_eq_true, Bool.or_eq_true,
      Bool.not_eq_true', ← Bool.not_eq_true, searchDominates_iff hg hroot, and_assoc]
    refine and_congr_right fun _ => and_congr_right fun _ => ?_
    constructor
    · intro h d hdb hd
      have hmem := hg.mem_of_reachable hroot (hd.reachable hb)
      exact ((h d hmem).resolve_left fun h => h.elim hdb fun h => h hd)
    · intro h d _
      by_cases hdb : d = b
      · exact .inl (.inl hdb)
      · by_cases hd : Dominates root g.Flow d b
        · exact .inr (h d hdb hd)
        · exact .inl (.inr hd)
  have hiff (a b : Node) : searchImmediate g root b = some a ↔
      Reachable root g.Flow b ∧ ImmediatelyDominates root g.Flow a b := by
    unfold searchImmediate
    by_cases hb : Reachable root g.Flow b
    · rw [if_pos ((reached_iff hg hroot b).mpr hb)]
      constructor
      · intro h
        exact ⟨hb, (hpred a b hb).mp (List.find?_some h)⟩
      · rintro ⟨-, ha⟩
        have hmem := hg.mem_of_reachable hroot (ha.2.1.reachable hb)
        cases hf : g.nodes.find? _ with
        | none => exact absurd ((hpred a b hb).mpr ha) (List.find?_eq_none.mp hf a hmem)
        | some a' => rw [((hpred a' b hb).mp (List.find?_some hf)).unique hb ha]
    · rw [if_neg fun h => hb ((reached_iff hg hroot b).mp h)]
      simp [hb]
  exact {
    immediate_iff := hiff
    mem_dominatedBy := fun a b _ => by
      simp only [searchDominators, List.mem_filter, decide_eq_true_eq]
      exact and_iff_right_of_imp fun h => hg.mem_of_reachable hroot ((hiff a b).mp h).1
    nodup_dominatedBy := fun a => hg.nodup.filter _ }

theorem searchDominators_correct_of_graphOf {f : Hlssa.Function}
    (hkeys : (f.blocks.map Prod.fst).Nodup) (hentry : f.entryBlock ∈ f.blocks.map Prod.fst) :
    ∀ g, graphOf f = some g → (searchDominators g .entry).Correct g .entry ∧
      (searchDominators g.reverse .return).Correct g.reverse .return := by
  intro g hg
  obtain ⟨g', hg', hwf, -⟩ := graphOf_spec hkeys hentry
  obtain rfl := Option.some.inj (hg'.symm.trans hg)
  exact ⟨searchDominators_correct hwf hwf.entry_mem,
    searchDominators_correct hwf.reverse hwf.reverse.return_mem⟩

end Mavros.FlowAnalysis
