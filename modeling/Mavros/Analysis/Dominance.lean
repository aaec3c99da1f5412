/-
# `Mavros.Analysis.Dominance` — dominance from two numbers

Given that petgraph computes immediate dominators (`Dominators.Correct`), the numbers a
graph's data keeps per node answer dominance exactly (`fromGraph_answers`), and the graph
of a function has an edge for each way control can go (`graphOf_spec`).

## What is assumed

petgraph is not part of the repository.  `Dominators.Correct` is its documentation of
`simple_fast` and of the two queries of the result: the nodes reached from the root, and of each
but the root the strict dominator that all others dominate.

## What is proved

* `computeDominatorTraversals_eq`: the recursion returns once its depth covers the tree, and
  lists the nodes in the two orders of the tree.
* `fromGraph_answers`: among the reachable nodes the comparison of the two numbers is dominance.
* `graphOf_spec`: a function that has its entry block has a graph, and its edges are the ways
  control can go (`Flows`), including those into the entry and out of the returns.

## How it goes

The dominator tree and the numbering of a tree are `Mavros.Lib.DominatorTree` and
`Mavros.Lib.Dfs`.  What is left here is that the maps of the source hold these numbers, and that
a graph built edge by edge has the edges put in.
-/
import Mavros.Analysis.FlowAnalysis
import Mavros.Lib.DominatorTree
import Mavros.Lib.Lists

namespace Mavros.FlowAnalysis

open Hlssa Lib

/-! ## Graphs

The same statements serve the graph and its reversal, which post-dominance is read from.
-/

/-- Some edge leads from `a` to `b`. -/
def Graph.Flow (g : Graph) (a b : Node) : Prop := ∃ e ∈ g.edges, e.source = a ∧ e.target = b

theorem Graph.reverse_flow (g : Graph) : g.reverse.Flow = Function.swap g.Flow := by
  funext a b
  simp only [Graph.Flow, Graph.reverse, List.mem_map, Function.swap, eq_iff_iff]
  constructor
  · rintro ⟨_, ⟨e, he, rfl⟩, rfl, rfl⟩
    exact ⟨e, he, rfl, rfl⟩
  · rintro ⟨e, he, rfl, rfl⟩
    exact ⟨_, ⟨e, he, rfl⟩, rfl, rfl⟩

/-- What petgraph documents of `simple_fast` and of the two queries of its result. -/
structure Dominators.Correct (d : Dominators) (g : Graph) (root : Node) : Prop where
  immediate_iff : ∀ a b, d.immediateDominator b = some a ↔
    Reachable root g.Flow b ∧ ImmediatelyDominates root g.Flow a b
  mem_dominatedBy : ∀ a b, b ≠ a →
    (b ∈ d.immediatelyDominatedBy a ↔ d.immediateDominator b = some a)
  nodup_dominatedBy : ∀ a, (d.immediatelyDominatedBy a).Nodup

/-- A graph whose edges join its nodes. -/
structure Graph.WellFormed (g : Graph) : Prop where
  entry_mem : Node.entry ∈ g.nodes
  return_mem : Node.return ∈ g.nodes
  edge_mem : ∀ e ∈ g.edges, e.source ∈ g.nodes ∧ e.target ∈ g.nodes
  nodup : g.nodes.Nodup

theorem Graph.WellFormed.reverse {g : Graph} (h : g.WellFormed) : g.reverse.WellFormed where
  entry_mem := h.entry_mem
  return_mem := h.return_mem
  edge_mem e he := by
    obtain ⟨e', he', rfl⟩ := List.mem_map.mp he
    exact (h.edge_mem e' he').symm
  nodup := h.nodup

theorem Graph.WellFormed.mem_of_reachable {g : Graph} (h : g.WellFormed) {root b : Node}
    (hroot : root ∈ g.nodes) (hb : Reachable root g.Flow b) : b ∈ g.nodes := by
  obtain ⟨hist, hwalk⟩ := hb
  cases hwalk with
  | start => exact hroot
  | step _ hedge =>
    obtain ⟨e, he, -, rfl⟩ := hedge
    exact (h.edge_mem e he).2

/-! ## The traversals

Two lists that grow by appending, each numbered by position when the recursion is over.
-/

/-- The children over which `compute_dominator_traversals` recurses. -/
def Dominators.children (d : Dominators) (a : Node) : List Node :=
  (d.immediatelyDominatedBy a).filter (a ≠ ·)

theorem Dominators.Correct.mem_children {d : Dominators} {g : Graph} {root : Node}
    (h : d.Correct g root) (a b : Node) : b ∈ d.children a ↔
      Reachable root g.Flow b ∧ ImmediatelyDominates root g.Flow a b := by
  rw [Dominators.children, List.mem_filter, decide_eq_true_eq]
  constructor
  · rintro ⟨hb, hne⟩
    exact (h.immediate_iff a b).mp ((h.mem_dominatedBy a b hne.symm).mp hb)
  · intro hb
    have hne : b ≠ a := hb.2.1.symm
    exact ⟨(h.mem_dominatedBy a b hne).mpr ((h.immediate_iff a b).mpr hb), hne.symm⟩

theorem Dominators.Correct.nodup_children {d : Dominators} {g : Graph} {root : Node}
    (h : d.Correct g root) (a : Node) : (d.children a).Nodup := (h.nodup_dominatedBy a).filter _

/-- The traversals that list the given nodes, each numbered by its position. -/
def Traversals.numbered (pre post : List Node) : Traversals where
  preorder := pre
  postorder := post
  preorderMap := pre.zipIdx.reverse
  postorderMap := post.zipIdx.reverse

theorem Traversals.enter_numbered (pre post : List Node) (n : Node) :
    (numbered pre post).enter n = numbered (pre ++ [n]) post := by
  simp [numbered, enter, List.zipIdx_append]

theorem Traversals.leave_numbered (pre post : List Node) (n : Node) :
    (numbered pre post).leave n = numbered pre (post ++ [n]) := by
  simp [numbered, leave, List.zipIdx_append]

theorem lookup_zipIdx_reverse_of_notMem {l : List Node} {a : Node} (ha : a ∉ l) :
    l.zipIdx.reverse.lookup a = none := by
  refine List.lookup_eq_none_iff.mpr fun p hp => bne_iff_ne.mpr ?_
  rintro rfl
  exact ha (List.fst_mem_of_mem_zipIdx (List.mem_reverse.mp hp))

theorem lookup_zipIdx_reverse_of_mem {l : List Node} (h : l.Nodup) {a : Node} (ha : a ∈ l) :
    l.zipIdx.reverse.lookup a = some (l.idxOf a) := by
  induction l using List.reverseRecOn with
  | nil => simp at ha
  | append_singleton l n ih =>
    obtain ⟨hl, -, hdisj⟩ := List.nodup_append.mp h
    have hn : n ∉ l := fun hm => hdisj n hm n (by simp) rfl
    rw [List.zipIdx_append, List.reverse_append]
    simp only [List.zipIdx_singleton, Nat.zero_add, List.reverse_singleton,
      List.singleton_append, List.lookup_cons]
    by_cases han : a = n
    · subst han
      simp [List.idxOf_append_of_notMem hn]
    · have hal : a ∈ l := by simpa [han] using ha
      rw [beq_false_of_ne han, List.idxOf_append_of_mem hal]
      exact ih hl hal

/-- `compute_dominator_traversals` returns once its depth covers the tree, and appends the
two orders of the tree below the node. -/
theorem computeDominatorTraversals_eq {d : Dominators} {depth : Nat} {a : Node}
    (h : Exhausts d.children depth a) (pre post : List Node) :
    computeDominatorTraversals d depth a (.numbered pre post) =
      some (.numbered (pre ++ preOrder d.children depth a)
        (post ++ postOrder d.children depth a)) := by
  induction depth generalizing a pre post with
  | zero => exact h.elim
  | succ depth ih =>
    have hfold (cs : List Node) (hcs : ∀ c ∈ cs, a ≠ c → Exhausts d.children depth c)
        (pre post : List Node) :
        cs.foldlM (fun t child =>
            if a = child then some t else computeDominatorTraversals d depth child t)
            (Traversals.numbered pre post) =
          some (.numbered (pre ++ (cs.filter (a ≠ ·)).flatMap (preOrder d.children depth))
            (post ++ (cs.filter (a ≠ ·)).flatMap (postOrder d.children depth))) := by
      induction cs generalizing pre post with
      | nil => simp
      | cons c cs ihcs =>
        have hrest := ihcs fun c' hc' => hcs c' (List.mem_cons_of_mem _ hc')
        rw [List.foldlM_cons]
        by_cases hac : a = c
        · simpa [hac] using hrest pre post
        · rw [if_neg hac, ih (hcs c List.mem_cons_self hac)]
          simpa [hac] using hrest (pre ++ preOrder d.children depth c)
            (post ++ postOrder d.children depth c)
    rw [computeDominatorTraversals, Traversals.enter_numbered, hfold _ fun c hc hac =>
      h c (List.mem_filter.mpr ⟨hc, by simpa using hac⟩)]
    simp [preOrder, postOrder, Dominators.children, Traversals.leave_numbered]

/-! ## `CFGData`

What is answered for nodes that are not reachable is left open; no pass asks.
-/

/-- What the data of a graph answers: dominance among the reachable nodes. -/
structure CFGData.Answers (c : CFGData) (g : Graph) (d : Dominators) (root : Node) : Prop where
  cfg : c.cfg = g
  dominators : c.dominators = d
  dominates_iff : ∀ a b, c.dominates a b = true ↔
    Reachable root g.Flow b ∧ Dominates root g.Flow a b
  mem_preorder : ∀ a, a ∈ c.traversals.preorder ↔ Reachable root g.Flow a
  nodup_preorder : c.traversals.preorder.Nodup

theorem fromGraph_answers {simpleFast : Graph → Node → Dominators} {g : Graph} {root : Node}
    (hg : g.WellFormed) (hroot : root ∈ g.nodes) (hd : (simpleFast g root).Correct g root) :
    ∃ c, CFGData.fromGraph simpleFast g root = some c ∧
      c.Answers g (simpleFast g root) root := by
  have hrootReach : Reachable root g.Flow root := ⟨[], .start⟩
  have hmem := hd.mem_children
  have hex : Exhausts (simpleFast g root).children g.nodes.length root :=
    exhausts_length hmem (fun b hb => hg.mem_of_reachable hroot hb) hrootReach
  have hnodup := nodup_preOrder hmem hd.nodup_children hrootReach
  have hpre (a : Node) : a ∈ preOrder (simpleFast g root).children g.nodes.length root ↔
      Reachable root g.Flow a := by
    constructor
    · exact fun h => (dominates_of_below hmem hrootReach ⟨_, h⟩).1
    · exact fun h => hex.mem_preOrder (below_of_dominates hmem h (.of_entry a))
  have hpost := (@postOrder_perm _ (simpleFast g root).children g.nodes.length
    root).nodup_iff.mpr (hnodup _)
  have hc : CFGData.fromGraph simpleFast g root = some ⟨g, simpleFast g root,
      .numbered (preOrder (simpleFast g root).children g.nodes.length root)
        (postOrder (simpleFast g root).children g.nodes.length root)⟩ := by
    show (do
      let traversals ← computeDominatorTraversals (simpleFast g root) g.nodes.length root
        (.numbered [] [])
      return (⟨g, simpleFast g root, traversals⟩ : CFGData)) = _
    rw [computeDominatorTraversals_eq hex]
    rfl
  refine ⟨_, hc, rfl, rfl, fun a b => ?_, hpre, hnodup _⟩
  have hpos (x : Node) (hx : Reachable root g.Flow x) :=
    And.intro (lookup_zipIdx_reverse_of_mem (hnodup g.nodes.length) ((hpre x).mpr hx))
      (lookup_zipIdx_reverse_of_mem hpost (mem_postOrder.mpr ((hpre x).mpr hx)))
  have hneg (x : Node) (hx : ¬ Reachable root g.Flow x) :=
    lookup_zipIdx_reverse_of_notMem (fun hm => hx ((hpre x).mp hm))
  by_cases ha : Reachable root g.Flow a
  · by_cases hb : Reachable root g.Flow b
    · simp only [CFGData.dominates, Traversals.numbered, hpos a ha, hpos b hb, Bool.and_eq_true,
        decide_eq_true_eq]
      rw [interval_iff_below hnodup ((hpre a).mpr ha) ((hpre b).mpr hb),
        below_iff_dominates hmem ha]
    · simp [CFGData.dominates, Traversals.numbered, hneg b hb, hb]
  · simp only [CFGData.dominates, Traversals.numbered, hneg a ha, Bool.false_eq_true, false_iff]
    exact fun h => ha (h.2.reachable h.1)

/-! ## The graph of a function

First the invariants of the builder, then the terminators one block after the other.
-/

/-- Control can go from one node to the next: into the entry block, along a terminator, out
of a return. -/
inductive Flows (f : Function) : Node → Node → Prop
  | entry : Flows f .entry (.block f.entryBlock)
  | edge {a b : BlockId} : f.Edge a b → Flows f (.block a) (.block b)
  | return {a : BlockId} {block : Block} {vals : List ValueId} : f.block a = some block →
      block.terminator = some (.return vals) → Flows f (.block a) .return

theorem addBlock_nodes (g : Graph) (b : BlockId) (n : Node) :
    n ∈ (g.addBlock b).nodes ↔ n ∈ g.nodes ∨ n = .block b := by
  unfold Graph.addBlock
  split
  case isTrue h =>
    exact ⟨.inl, fun hn => hn.elim id fun hb => hb ▸ h⟩
  case isFalse h => simp

@[simp] theorem addBlock_edges (g : Graph) (b : BlockId) : (g.addBlock b).edges = g.edges := by
  unfold Graph.addBlock
  split <;> rfl

theorem Graph.WellFormed.addBlock {g : Graph} (h : g.WellFormed) (b : BlockId) :
    (g.addBlock b).WellFormed where
  entry_mem := (addBlock_nodes g b _).mpr (.inl h.entry_mem)
  return_mem := (addBlock_nodes g b _).mpr (.inl h.return_mem)
  edge_mem e he := by
    rw [addBlock_edges] at he
    obtain ⟨hs, ht⟩ := h.edge_mem e he
    exact ⟨(addBlock_nodes g b _).mpr (.inl hs), (addBlock_nodes g b _).mpr (.inl ht)⟩
  nodup := by
    unfold Graph.addBlock
    split
    case isTrue => exact h.nodup
    case isFalse hb =>
      refine List.nodup_append.mpr ⟨h.nodup, by simp, fun x hx y hy hxy => ?_⟩
      exact hb (List.mem_singleton.mp hy ▸ hxy ▸ hx)

theorem Graph.WellFormed.addEdge {g : Graph} (h : g.WellFormed) {e : Edge}
    (hs : e.source ∈ g.nodes) (ht : e.target ∈ g.nodes) : (g.addEdge e).WellFormed where
  entry_mem := h.entry_mem
  return_mem := h.return_mem
  edge_mem e' he' := by
    rcases List.mem_append.mp he' with he' | he'
    · exact h.edge_mem e' he'
    · obtain rfl := List.mem_singleton.mp he'
      exact ⟨hs, ht⟩
  nodup := h.nodup

theorem Graph.WellFormed.addJump {g : Graph} (h : g.WellFormed) (s t : BlockId) (w : JumpType) :
    (g.addJump s t w).WellFormed :=
  ((h.addBlock s).addBlock t).addEdge
    ((addBlock_nodes _ t _).mpr (.inl ((addBlock_nodes g s _).mpr (.inr rfl))))
    ((addBlock_nodes _ t _).mpr (.inr rfl))

theorem Graph.WellFormed.addReturn {g : Graph} (h : g.WellFormed) (b : BlockId) :
    (g.addReturn b).WellFormed :=
  (h.addBlock b).addEdge ((addBlock_nodes g b _).mpr (.inr rfl)) (h.addBlock b).return_mem

theorem Graph.WellFormed.addTerminator {g : Graph} (h : g.WellFormed) (b : BlockId)
    (t : Option Terminator) : (g.addTerminator b t).WellFormed := by
  match t with
  | some (.jmp target _) => exact h.addJump b target .jmp
  | some (.jmpIf _ t1 t2) => exact (h.addJump b t1 .jmpIf).addJump b t2 .jmpIf
  | some (.return _) => exact h.addReturn b
  | none => exact h

theorem foldl_addBlock (bs : List (BlockId × Block)) {g : Graph} (hg : g.WellFormed) :
    (bs.foldl (fun g b => g.addBlock b.1) g).WellFormed ∧
      (bs.foldl (fun g b => g.addBlock b.1) g).edges = g.edges ∧
      ∀ n, n ∈ (bs.foldl (fun g b => g.addBlock b.1) g).nodes ↔
        n ∈ g.nodes ∨ ∃ b ∈ bs, n = .block b.1 := by
  induction bs generalizing g with
  | nil => simp [hg]
  | cons b bs ih =>
    obtain ⟨hwf, hedges, hnodes⟩ := ih (hg.addBlock b.1)
    refine ⟨hwf, hedges.trans (addBlock_edges g b.1), fun n => ?_⟩
    rw [List.foldl_cons, hnodes, addBlock_nodes]
    simp [or_assoc]

/-- The edges a terminator contributes. -/
def terminatorEdges (b : BlockId) : Option Terminator → List Edge
  | some (.jmp target _) => [⟨.block b, .block target, .jmp⟩]
  | some (.jmpIf _ t1 t2) => [⟨.block b, .block t1, .jmpIf⟩, ⟨.block b, .block t2, .jmpIf⟩]
  | some (.return _) => [⟨.block b, .return, .return⟩]
  | none => []

theorem addTerminator_edges (g : Graph) (b : BlockId) (t : Option Terminator) :
    (g.addTerminator b t).edges = g.edges ++ terminatorEdges b t := by
  match t with
  | some (.jmp _ _) | some (.jmpIf _ _ _) | some (.return _) =>
    simp [Graph.addTerminator, Graph.addJump, Graph.addReturn, Graph.addEdge, terminatorEdges]
  | none => simp [Graph.addTerminator, terminatorEdges]

theorem addTerminator_nodes {g : Graph} {n : Node} (b : BlockId) (t : Option Terminator)
    (h : n ∈ g.nodes) : n ∈ (g.addTerminator b t).nodes := by
  match t with
  | some (.jmp _ _) | some (.jmpIf _ _ _) | some (.return _) =>
    simp [Graph.addTerminator, Graph.addJump, Graph.addReturn, Graph.addEdge, addBlock_nodes, h]
  | none => exact h

theorem foldl_addTerminator (bs : List (BlockId × Block)) {g : Graph} (hg : g.WellFormed) :
    (bs.foldl (fun g b => g.addTerminator b.1 b.2.terminator) g).WellFormed ∧
      (bs.foldl (fun g b => g.addTerminator b.1 b.2.terminator) g).edges =
        g.edges ++ bs.flatMap (fun b => terminatorEdges b.1 b.2.terminator) ∧
      ∀ n ∈ g.nodes, n ∈ (bs.foldl (fun g b => g.addTerminator b.1 b.2.terminator) g).nodes := by
  induction bs generalizing g with
  | nil => simp [hg]
  | cons b bs ih =>
    obtain ⟨hwf, hedges, hnodes⟩ := ih (hg.addTerminator b.1 b.2.terminator)
    refine ⟨hwf, ?_, fun n hn => hnodes n (addTerminator_nodes _ _ hn)⟩
    rw [List.foldl_cons, hedges, addTerminator_edges, List.flatMap_cons, List.append_assoc]

theorem flows_of_mem {f : Function} {b : BlockId} {block : Block} (hb : f.block b = some block)
    {e : Edge} (he : e ∈ terminatorEdges b block.terminator) : Flows f e.source e.target := by
  match ht : block.terminator with
  | some (.jmp target _) =>
    rw [ht, terminatorEdges, List.mem_singleton] at he
    exact he ▸ .edge ⟨block, _, hb, ht, by simp [Terminator.targets]⟩
  | some (.jmpIf _ t1 t2) =>
    rw [ht, terminatorEdges, List.mem_cons, List.mem_singleton] at he
    rcases he with rfl | rfl <;> exact .edge ⟨block, _, hb, ht, by simp [Terminator.targets]⟩
  | some (.return _) =>
    rw [ht, terminatorEdges, List.mem_singleton] at he
    exact he ▸ .return hb ht
  | none => simp [ht, terminatorEdges] at he

theorem mem_of_flows {f : Function} {a b : Node} (h : Flows f a b) :
    ∃ e : Edge, (e = ⟨.entry, .block f.entryBlock, .entry⟩ ∨
      ∃ b block, f.block b = some block ∧ e ∈ terminatorEdges b block.terminator) ∧
      e.source = a ∧ e.target = b := by
  cases h with
  | entry => exact ⟨_, .inl rfl, rfl, rfl⟩
  | @edge a b h =>
    obtain ⟨block, t, hb, ht, hmem⟩ := h
    cases t with
    | jmp target args =>
      obtain rfl : b = target := by simpa [Terminator.targets] using hmem
      exact ⟨⟨.block a, .block b, .jmp⟩, .inr ⟨a, block, hb, by simp [ht, terminatorEdges]⟩,
        rfl, rfl⟩
    | jmpIf cond t1 t2 =>
      refine ⟨⟨.block a, .block b, .jmpIf⟩, .inr ⟨a, block, hb, ?_⟩, rfl, rfl⟩
      simpa [ht, terminatorEdges, Terminator.targets] using hmem
    | «return» vals => simp [Terminator.targets] at hmem
  | @«return» a block vals hb ht =>
    exact ⟨⟨.block a, .return, .return⟩, .inr ⟨a, block, hb, by simp [ht, terminatorEdges]⟩,
      rfl, rfl⟩

/-- The graph of a function with its entry block, read back: the edges are the ways control
can go. -/
theorem graphOf_spec {f : Function} (hkeys : (f.blocks.map Prod.fst).Nodup)
    (hentry : f.entryBlock ∈ f.blocks.map Prod.fst) :
    ∃ g, graphOf f = some g ∧ g.WellFormed ∧ g.Flow = Flows f ∧
      ∀ b ∈ f.blocks.map Prod.fst, .block b ∈ g.nodes := by
  have hnew : newGraph.WellFormed := ⟨by simp [newGraph], by simp [newGraph],
    by simp [newGraph], by simp [newGraph]⟩
  obtain ⟨hwf, hedges, hnodes⟩ := foldl_addBlock f.blocks hnew
  have hblock {b : BlockId} (hb : b ∈ f.blocks.map Prod.fst) :
      .block b ∈ (f.blocks.foldl (fun g b => g.addBlock b.1) newGraph).nodes := by
    obtain ⟨e, he, rfl⟩ := List.mem_map.mp hb
    exact (hnodes _).mpr (.inr ⟨e, he, rfl⟩)
  have hset := hwf.addEdge (e := ⟨.entry, .block f.entryBlock, .entry⟩)
    ((hnodes _).mpr (.inl (by simp [newGraph]))) (hblock hentry)
  obtain ⟨hwf', hedges', hnodes'⟩ := foldl_addTerminator f.blocks hset
  refine ⟨_, ?_, hwf', ?_, fun b hb => hnodes' _ (hblock hb)⟩
  · simp [graphOf, Graph.setEntry, hblock hentry]
  · have hmem (e : Edge) : e ∈ (newGraph.edges ++ [⟨.entry, .block f.entryBlock, .entry⟩]) ++
        f.blocks.flatMap (fun b => terminatorEdges b.1 b.2.terminator) ↔
        e = ⟨.entry, .block f.entryBlock, .entry⟩ ∨
          ∃ b ∈ f.blocks, e ∈ terminatorEdges b.1 b.2.terminator := by
      simp [newGraph]
    funext a b
    refine propext ⟨?_, fun h => ?_⟩
    · rintro ⟨e, he, rfl, rfl⟩
      rw [hedges', Graph.addEdge, hedges, hmem] at he
      rcases he with rfl | ⟨⟨b, block⟩, hb, he⟩
      · exact .entry
      · have hlook : f.block b = some block := lookup_of_mem hkeys hb
        exact flows_of_mem hlook he
    · obtain ⟨e, he, hs, ht⟩ := mem_of_flows h
      refine ⟨e, ?_, hs, ht⟩
      rw [hedges', Graph.addEdge, hedges, hmem]
      refine he.imp_right fun ⟨b, block, hlook, he⟩ => ?_
      exact ⟨(b, block), mem_of_lookup_eq_some hlook, he⟩

end Mavros.FlowAnalysis
