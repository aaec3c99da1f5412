/-
# `Mavros.Analysis.DominanceQueries` — what the dominance queries answer

Every query of the analysis is read against the paths of the function's graph.  A
block's frontier never holds the block itself, the merge point of a branch is missing
when only the return is on all its ways, and the body of a branch is exact for regions
entered through the branch and left for good through the merge point.

## What is proved

`queries_exact` has one exact condition for each query, given that `simple_fast` computes
immediate dominators.

| | |
| :-- | :-- |
| `dominates` | always, among the blocks control enters |
| frontier | the block is no loop header |
| post-dominance frontier | the same in the reversed graph |
| merge point | a block other than the return is on all ways from the branch |
| body of a branch | the region is `Enclosed` |

`frontier_misses_loop_header` is the defect: in a loop of one block the frontier of the block
leaves out the block itself.

The answers are also put together as the record that condition propagation expects of an
analysis (`CFG.propagation`), with the record's laws proved (`CFG.Answers.propagation`).
`CFG.Answers.isLoopEntry` says of the loop query that it recognises the loop headers.

## How it goes

Each query is a comprehension over the nodes with tests of dominance in it, and the tests are
exact by `Mavros.Analysis.Dominance`.  The argument that is left is about paths, and it is
longest for the body of a branch, where a region between two nodes is compared with what the
one dominates and the other post-dominates.
-/
import Mavros.Analysis.DominatorSearch
import Mavros.Passes.ConditionPropagation

namespace Mavros.FlowAnalysis

open Hlssa Lib

/-! ## The analysis of a function

The two halves, dominance and post-dominance, are built from one graph.
-/

/-- The edges against their direction: control comes from `b`. -/
abbrev Comes (f : Function) : Node → Node → Prop := Function.swap (Flows f)

/-- Some path from the entry reaches the block. -/
def Entered (f : Function) (b : BlockId) : Prop := Reachable .entry (Flows f) (.block b)

/-- From wherever control gets to from the block, a return is reached. -/
def Leaves (f : Function) (b : BlockId) : Prop :=
  ∀ n, Reachable (.block b) (Flows f) n → Reachable .return (Comes f) n

/-- What the two halves of the analysis answer. -/
structure CFG.Answers (c : CFG) (f : Function) : Prop where
  dominates_iff : ∀ a b, c.cfg.dominates a b = true ↔
    Reachable .entry (Flows f) b ∧ Dominates .entry (Flows f) a b
  postDominates_iff : ∀ a b, c.reverseCfg.dominates a b = true ↔
    Reachable .return (Comes f) b ∧ Dominates .return (Comes f) a b
  incoming_iff : ∀ p b, (∃ e ∈ c.cfg.cfg.incoming b, e.source = p) ↔ Flows f p b
  outgoing_iff : ∀ p b, (∃ e ∈ c.reverseCfg.cfg.incoming b, e.source = p) ↔ Comes f p b
  postDominator_iff : ∀ a b, c.reverseCfg.dominators.immediateDominator b = some a ↔
    Reachable .return (Comes f) b ∧ ImmediatelyDominates .return (Comes f) a b
  mem_nodes : ∀ b, Reachable .entry (Flows f) b → b ∈ c.cfg.cfg.nodes
  mem_nodes_of_flows : ∀ a b, Flows f a b → a ∈ c.cfg.cfg.nodes ∧ b ∈ c.cfg.cfg.nodes
  same_nodes : c.reverseCfg.cfg.nodes = c.cfg.cfg.nodes
  mem_preorder : ∀ a, a ∈ c.cfg.traversals.preorder ↔ Reachable .entry (Flows f) a
  nodup_preorder : c.cfg.traversals.preorder.Nodup

theorem incoming_iff (g : Graph) (p b : Node) :
    (∃ e ∈ g.incoming b, e.source = p) ↔ g.Flow p b := by
  simp only [Graph.incoming, List.mem_filter, decide_eq_true_eq, Graph.Flow]
  constructor
  · rintro ⟨e, ⟨he, ht⟩, hs⟩
    exact ⟨e, he, hs, ht⟩
  · rintro ⟨e, he, hs, ht⟩
    exact ⟨e, ⟨he, ht⟩, hs⟩

theorem graph_of_build {simpleFast : Graph → Node → Dominators} {f : Function} {c : CFG}
    (h : build simpleFast f = some c) : graphOf f = some c.cfg.cfg := by
  unfold build at h
  simp only [Option.bind_eq_bind, Option.bind_eq_some_iff, Option.pure_def, Option.some.injEq,
    CFGData.fromGraph] at h
  obtain ⟨g, hg, _, ⟨_, _, rfl⟩, _, _, rfl⟩ := h
  exact hg

/-- The analysis of a function that has its entry block never fails. -/
theorem build_answers {simpleFast : Graph → Node → Dominators} {f : Function}
    (hkeys : (f.blocks.map Prod.fst).Nodup) (hentry : f.entryBlock ∈ f.blocks.map Prod.fst)
    (hd : ∀ g, graphOf f = some g → (simpleFast g .entry).Correct g .entry ∧
      (simpleFast g.reverse .return).Correct g.reverse .return) :
    ∃ c, build simpleFast f = some c ∧ c.Answers f := by
  obtain ⟨g, hg, hwf, hflow, -⟩ := graphOf_spec hkeys hentry
  obtain ⟨hdf, hdr⟩ := hd g hg
  obtain ⟨fwd, hfwd, ha⟩ := fromGraph_answers hwf hwf.entry_mem hdf
  obtain ⟨rev, hrev, hr⟩ := fromGraph_answers hwf.reverse hwf.reverse.return_mem hdr
  have hswap : g.reverse.Flow = Comes f := by rw [Graph.reverse_flow, hflow]
  refine ⟨⟨fwd, rev⟩, by simp [build, hg, hfwd, hrev], ?_⟩
  exact {
    dominates_iff := hflow ▸ ha.dominates_iff
    postDominates_iff := hswap ▸ hr.dominates_iff
    incoming_iff := fun p b => by rw [ha.cfg, incoming_iff, hflow]
    outgoing_iff := fun p b => by rw [hr.cfg, incoming_iff, hswap]
    postDominator_iff := fun a b => by rw [hr.dominators, hdr.immediate_iff, hswap]
    mem_nodes := fun b hb => ha.cfg ▸ hwf.mem_of_reachable hwf.entry_mem (hflow ▸ hb)
    mem_nodes_of_flows := fun a b h => by
      rw [← hflow] at h
      obtain ⟨e, he, rfl, rfl⟩ := h
      exact ha.cfg ▸ hwf.edge_mem e he
    same_nodes := by rw [hr.cfg, ha.cfg]; rfl
    mem_preorder := fun a => by rw [ha.mem_preorder, hflow]
    nodup_preorder := ha.nodup_preorder }

/-! ## The queries

What each should answer is a predicate on paths, and stands before the query's lemma.
-/

/-- The dominance frontier: a predecessor is dominated, the node is not strictly. -/
def Frontier (root : Node) (edge : Node → Node → Prop) (a b : Node) : Prop :=
  (∃ p, edge p b ∧ Reachable root edge p ∧ Dominates root edge a p) ∧
    ¬ (a ≠ b ∧ Dominates root edge a b)

/-- Some predecessor of the node is dominated by it. -/
def LoopHeader (root : Node) (edge : Node → Node → Prop) (a : Node) : Prop :=
  ∃ p, edge p a ∧ Reachable root edge p ∧ Dominates root edge a p

/-- Control gets from the block `b` to `x`, another block, before it visits `m`. -/
def Between (f : Function) (b : BlockId) (m : Node) (x : BlockId) : Prop :=
  x ≠ b ∧ ReachesAvoiding (Flows f) (.block b) m (.block x)

/-- `CFGData::get_dominance_frontier` leaves out the node itself, and nothing else. -/
theorem mem_getDominanceFrontier {c : CFGData} {root : Node} {edge : Node → Node → Prop}
    (hdom : ∀ a b, c.dominates a b = true ↔ Reachable root edge b ∧ Dominates root edge a b)
    (hin : ∀ p b, (∃ e ∈ c.cfg.incoming b, e.source = p) ↔ edge p b)
    (hnodes : ∀ p b, edge p b → b ∈ c.cfg.nodes) (a b : Node) :
    b ∈ c.getDominanceFrontier a ↔ Frontier root edge a b ∧ a ≠ b := by
  have hany : (c.cfg.incoming b).any (fun e => c.dominates a e.source) = true ↔
      ∃ p, edge p b ∧ Reachable root edge p ∧ Dominates root edge a p := by
    simp only [List.any_eq_true, hdom, ← hin]
    constructor
    · rintro ⟨e, he, h⟩
      exact ⟨_, ⟨e, he, rfl⟩, h⟩
    · rintro ⟨_, ⟨e, he, rfl⟩, h⟩
      exact ⟨e, he, h⟩
  rw [CFGData.getDominanceFrontier, List.mem_filter, Bool.and_eq_true, hany, Bool.not_eq_true',
    ← Bool.not_eq_true, hdom]
  constructor
  · rintro ⟨-, hnot, p, hp, hr, hd⟩
    have hb : Reachable root edge b := by
      obtain ⟨hist, hwalk⟩ := hr
      exact ⟨_, hwalk.step hp⟩
    refine ⟨⟨⟨p, hp, hr, hd⟩, fun h => hnot ⟨hb, h.2⟩⟩, ?_⟩
    rintro rfl
    exact hnot ⟨hb, .refl a⟩
  · rintro ⟨⟨⟨p, hp, hr, hd⟩, hnot⟩, hne⟩
    exact ⟨hnodes p b hp, fun h => hnot ⟨hne, h.2⟩, p, hp, hr, hd⟩

section Queries

variable {c : CFG} {f : Function}

theorem CFG.Answers.node (h : c.Answers f) {b : BlockId} (hb : Entered f b) :
    c.node b = some (.block b) := if_pos (h.mem_nodes _ hb)

theorem mem_filterMap_toBlock {l : List Node} {b : BlockId} :
    b ∈ l.filterMap Node.toBlock? ↔ .block b ∈ l := by
  rw [List.mem_filterMap]
  constructor
  · rintro ⟨n, hn, h⟩
    cases n <;> simp [Node.toBlock?] at h
    exact h ▸ hn
  · exact fun h => ⟨_, h, rfl⟩

/-- `dominates` among the blocks control enters. -/
theorem CFG.Answers.dominates (h : c.Answers f) {a b : BlockId} (ha : Entered f a)
    (hb : Entered f b) : ∃ r, c.dominates a b = some r ∧
      (r = true ↔ Dominates .entry (Flows f) (.block a) (.block b)) := by
  refine ⟨_, by rw [CFG.dominates, h.node ha, h.node hb]; rfl, ?_⟩
  rw [h.dominates_iff]
  exact and_iff_right hb

theorem CFG.Answers.isLoopEntry (h : c.Answers f) {a : BlockId} (ha : Entered f a) :
    ∃ r, c.isLoopEntry a = some r ∧
      (r = true ↔ LoopHeader .entry (Flows f) (.block a)) := by
  refine ⟨_, by rw [CFG.isLoopEntry, h.node ha]; rfl, ?_⟩
  simp only [List.any_eq_true, h.dominates_iff, LoopHeader, ← h.incoming_iff]
  constructor
  · rintro ⟨e, he, hd⟩
    exact ⟨_, ⟨e, he, rfl⟩, hd⟩
  · rintro ⟨_, ⟨e, he, rfl⟩, hd⟩
    exact ⟨e, he, hd⟩

/-- A frontier that leaves out the block itself is exact when the block is no loop header. -/
theorem frontier_exact_iff {root : Node} {edge : Node → Node → Prop} {l : List Node}
    {a : BlockId} (hl : ∀ n, n ∈ l ↔ Frontier root edge (.block a) n ∧ .block a ≠ n) :
    (∀ b, b ∈ l.filterMap Node.toBlock? ↔ Frontier root edge (.block a) (.block b)) ↔
      ¬ LoopHeader root edge (.block a) := by
  simp only [mem_filterMap_toBlock, hl, and_iff_left_iff_imp]
  constructor
  · intro hex hloop
    exact hex a ⟨hloop, fun h => h.1 rfl⟩ rfl
  · rintro hno b ⟨hp, -⟩ hb
    exact hno (hb ▸ hp)

/-- The frontier query is exact. -/
def FrontierExact (c : CFG) (f : Function) (a : BlockId) : Prop :=
  ∃ s, c.getDominanceFrontier a = some s ∧
    ∀ b, b ∈ s ↔ Frontier .entry (Flows f) (.block a) (.block b)

def PostFrontierExact (c : CFG) (f : Function) (a : BlockId) : Prop :=
  ∃ s, c.getPostDominanceFrontier a = some s ∧
    ∀ b, b ∈ s ↔ Frontier .return (Comes f) (.block a) (.block b)

/-- The merge point of a branch is its immediate post-dominator. -/
def MergePointExact (c : CFG) (f : Function) (b : BlockId) : Prop :=
  ∃ m, c.getMergePoint b = some m ∧
    ImmediatelyDominates .return (Comes f) (.block m) (.block b)

/-- The body of a branch is what lies between it and its merge point. -/
def IfBodyExact (c : CFG) (f : Function) (b : BlockId) : Prop :=
  ∃ l, c.getIfBody b = some l ∧
    ∀ m, ImmediatelyDominates .return (Comes f) m (.block b) → ∀ x, x ∈ l ↔ Between f b m x

theorem CFG.Answers.frontierExact_iff (h : c.Answers f) {a : BlockId} (ha : Entered f a) :
    FrontierExact c f a ↔ ¬ LoopHeader .entry (Flows f) (.block a) := by
  have hmem := mem_getDominanceFrontier h.dominates_iff h.incoming_iff
    (fun p b hp => (h.mem_nodes_of_flows p b hp).2) (.block a)
  rw [← frontier_exact_iff hmem]
  unfold FrontierExact CFG.getDominanceFrontier
  rw [h.node ha]
  simp

theorem CFG.Answers.postFrontierExact_iff (h : c.Answers f) {a : BlockId} (ha : Entered f a) :
    PostFrontierExact c f a ↔ ¬ LoopHeader .return (Comes f) (.block a) := by
  have hmem := mem_getDominanceFrontier h.postDominates_iff h.outgoing_iff
    (fun p b hp => h.same_nodes ▸ (h.mem_nodes_of_flows b p hp).1) (.block a)
  rw [← frontier_exact_iff hmem]
  unfold PostFrontierExact CFG.getPostDominanceFrontier
  rw [h.node ha]
  simp

/-- No way to a return comes back to the synthetic entry. -/
theorem entry_notMem_tail {hist : List Node} (h : Walk .return (Comes f) hist) :
    .entry ∉ hist.tail := by
  induction h with
  | start => simp
  | @step a b hist hwalk hedge ih =>
    rw [List.tail_cons, List.mem_cons, not_or]
    refine ⟨?_, ih⟩
    rintro rfl
    cases hedge

/-- The immediate post-dominator of a block that leaves, with what `simple_fast` says of it. -/
theorem CFG.Answers.exists_postDominator (h : c.Answers f) {b : BlockId} (hl : Leaves f b) :
    ∃ m, ImmediatelyDominates .return (Comes f) m (.block b) ∧
      c.reverseCfg.dominators.immediateDominator (.block b) = some m := by
  have hb : Reachable .return (Comes f) (.block b) := hl _ ⟨[], .start⟩
  obtain ⟨m, hm⟩ := exists_immediatelyDominates hb (by simp)
  exact ⟨m, hm, (h.postDominator_iff m _).mpr ⟨hb, hm⟩⟩

theorem CFG.Answers.mergePointExact_iff (h : c.Answers f) {b : BlockId} (hb : Entered f b)
    (hl : Leaves f b) : MergePointExact c f b ↔
      ∃ m, m ≠ b ∧ Dominates .return (Comes f) (.block m) (.block b) := by
  constructor
  · rintro ⟨m, -, hm⟩
    exact ⟨m, fun hmb => hm.1 (hmb ▸ rfl), hm.2.1⟩
  · rintro ⟨d, hdb, hd⟩
    obtain ⟨m, hm, hidom⟩ := h.exists_postDominator hl
    have hmerge : c.getMergePoint b = m.toBlock? := by
      rw [CFG.getMergePoint, h.node hb]
      simp [hidom]
    have hdm := hm.2.2 (.block d) (by simpa using hdb) hd
    match m with
    | .block m => exact ⟨m, hmerge, hm⟩
    | .return =>
      -- only the return itself is on the empty way to it
      simpa using hdm [] .start
    | .entry =>
      obtain ⟨hist, hwalk⟩ := hl _ ⟨[], .start⟩
      have hmem := (List.mem_cons.mp (hm.2.1 hist hwalk)).resolve_left (by simp)
      exact absurd hmem (entry_notMem_tail hwalk)

/-- The blocks between `b` and its merge point are entered through `b`, and no block behind
the merge point is both dominated and post-dominated by it. -/
structure Enclosed (f : Function) (b : BlockId) (m : Node) : Prop where
  entered : ∀ x, Between f b m x → Dominates .entry (Flows f) (.block b) (.block x)
  left : ∀ x, Entered f x → Node.block x ≠ m → Dominates .entry (Flows f) (.block b) m →
    Dominates .entry (Flows f) m (.block x) → ¬ Dominates .return (Comes f) m (.block x)

theorem mapM_toBlock {l : List Node} (h : ∀ n ∈ l, ∃ b, n = .block b) :
    l.mapM Node.toBlock? = some (l.filterMap Node.toBlock?) := by
  induction l with
  | nil => rfl
  | cons n l ih =>
    obtain ⟨b, rfl⟩ := h n List.mem_cons_self
    have hl := ih fun n hn => h n (List.mem_cons_of_mem _ hn)
    rw [List.mapM_cons, hl]
    rfl

/-- `get_if_body`: the blocks the branch dominates and the merge point post-dominates. -/
theorem CFG.Answers.getIfBody (h : c.Answers f) {b : BlockId} (hb : Entered f b) {m : Node}
    (hm : ImmediatelyDominates .return (Comes f) m (.block b)) (hl : Leaves f b) :
    ∃ l, c.getIfBody b = some l ∧ ∀ x, x ∈ l ↔ (x ≠ b ∧ Node.block x ≠ m) ∧
      (Entered f x ∧ Dominates .entry (Flows f) (.block b) (.block x)) ∧
      Reachable .return (Comes f) (.block x) ∧
        Dominates .return (Comes f) m (.block x) := by
  have hidom := (h.postDominator_iff m _).mpr ⟨hl _ ⟨[], .start⟩, hm⟩
  let body := c.cfg.cfg.nodes.filter fun node =>
    node ≠ .block b && node ≠ m &&
      (c.cfg.dominates (.block b) node && c.reverseCfg.dominates m node)
  have hbody (n : Node) : n ∈ body ↔ (n ≠ .block b ∧ n ≠ m) ∧
      (Reachable .entry (Flows f) n ∧ Dominates .entry (Flows f) (.block b) n) ∧
      Reachable .return (Comes f) n ∧ Dominates .return (Comes f) m n := by
    simp only [body, List.mem_filter, Bool.and_eq_true, decide_eq_true_eq, h.dominates_iff,
      h.postDominates_iff]
    exact and_iff_right_of_imp fun hn => h.mem_nodes n hn.2.1.1
  have hblock : ∀ n ∈ body, ∃ x, n = .block x := by
    intro n hn
    obtain ⟨⟨-, hnm⟩, ⟨-, hdom⟩, -, hpdom⟩ := (hbody n).mp hn
    match n with
    | .block x => exact ⟨x, rfl⟩
    | .entry => simpa using hdom [] .start
    | .return =>
      have hmr : m = .return := by simpa using hpdom [] .start
      exact absurd hmr.symm hnm
  refine ⟨body.filterMap Node.toBlock?, ?_, fun x => ?_⟩
  · rw [← mapM_toBlock hblock, CFG.getIfBody, h.node hb]
    simp [hidom, body]
  · rw [mem_filterMap_toBlock, hbody]
    simp [Entered]

theorem CFG.Answers.ifBodyExact_iff (h : c.Answers f) {b : BlockId} (hb : Entered f b)
    (hl : Leaves f b) : IfBodyExact c f b ↔
      ∀ m, ImmediatelyDominates .return (Comes f) m (.block b) → Enclosed f b m := by
  have hbr : Reachable .return (Comes f) (.block b) := hl _ ⟨[], .start⟩
  obtain ⟨m, hm, -⟩ := h.exists_postDominator hl
  have hone (m' : Node) (hm' : ImmediatelyDominates .return (Comes f) m' (.block b)) : m' = m :=
    hm'.unique hbr hm
  obtain ⟨l, hget, hmem⟩ := h.getIfBody hb hm hl
  have hexact : IfBodyExact c f b ↔ ∀ x, x ∈ l ↔ Between f b m x := by
    constructor
    · rintro ⟨l', hl', hx⟩
      obtain rfl := Option.some.inj (hl'.symm.trans hget)
      exact hx m hm
    · exact fun hx => ⟨l, hget, fun m' hm' => hone m' hm' ▸ hx⟩
  rw [hexact]
  constructor
  · intro hx m' hm'
    rw [hone m' hm']
    refine ⟨fun x hbx => ((hmem x).mp ((hx x).mpr hbx)).2.1.2, ?_⟩
    intro x hxr hxm hbm hmx hpd
    have hdx := hbm.trans hmx
    have hne : x ≠ b := by
      rintro rfl
      exact hm.1 (Dominates.antisymm hb hmx hbm)
    have hin : x ∈ l := (hmem x).mpr ⟨⟨hne, hxm⟩, ⟨hxr, hdx⟩, hl _ (hdx.reachable_from hxr), hpd⟩
    exact Dominates.not_reachesAvoiding hxr hbm hm.1.symm hmx ((hx x).mp hin).2
  · intro hen x
    obtain ⟨hent, hleft⟩ := hen m hm
    rw [hmem]
    constructor
    · rintro ⟨⟨hxb, hxm⟩, ⟨hxr, hdx⟩, -, hpd⟩
      refine ⟨hxb, ?_⟩
      by_contra hno
      obtain ⟨hbm, hmx⟩ := hdx.behind hxr hm.1.symm hno
      exact hleft x hxr hxm hbm hmx hpd
    · intro hbx
      have hdx := hent x hbx
      obtain ⟨hxb, recent, hwalk, hnot⟩ := hbx
      have hxm : Node.block x ≠ m := fun he => hnot (he ▸ List.mem_cons_self)
      have hfrom : Reachable (.block b) (Flows f) (.block x) := ⟨recent, hwalk⟩
      exact ⟨⟨hxb, hxm⟩, ⟨hb.trans hfrom, hdx⟩, hl _ hfrom, hm.2.1.of_walk_avoiding hwalk hnot⟩

/-! ## The record a pass assumes

Condition propagation is proved for any analysis with these laws; this is the one that is built.
-/

theorem walk_blocks {hist : List BlockId} (h : Walk f.entryBlock f.Edge hist) :
    Walk .entry (Flows f) (hist.map Node.block ++ [.entry]) := by
  induction h with
  | start => exact .step .start .entry
  | step _ hedge ih => exact ih.step (.edge hedge)

theorem blocks_of_walk {hist : List Node} (h : Walk .entry (Flows f) hist) {b : BlockId}
    {rest : List Node} (hb : hist = .block b :: rest) :
    ∃ hist', Walk f.entryBlock f.Edge (b :: hist') ∧ rest = hist'.map Node.block ++ [.entry] := by
  induction h generalizing b rest with
  | start => simp at hb
  | @step a n hist hwalk hedge ih =>
    obtain ⟨rfl, rfl⟩ := List.cons.inj hb
    cases hedge with
    | entry =>
      -- nothing leads back to the synthetic entry
      cases hwalk with
      | start => exact ⟨[], .start, rfl⟩
      | step _ hback => cases hback
    | edge hedge =>
      obtain ⟨hist', hwalk', rfl⟩ := ih rfl
      exact ⟨_, hwalk'.step hedge, rfl⟩

theorem entered_iff {b : BlockId} : Entered f b ↔ Reachable f.entryBlock f.Edge b := by
  constructor
  · rintro ⟨hist, hwalk⟩
    obtain ⟨hist', hwalk', -⟩ := blocks_of_walk hwalk rfl
    exact ⟨hist', hwalk'⟩
  · rintro ⟨hist, hwalk⟩
    exact ⟨_, walk_blocks hwalk⟩

theorem dominates_blocks_iff {a b : BlockId} :
    Dominates .entry (Flows f) (.block a) (.block b) ↔ Dominates f.entryBlock f.Edge a b := by
  constructor
  · intro h hist hwalk
    simpa using h _ (walk_blocks hwalk)
  · intro h hist hwalk
    obtain ⟨hist', hwalk', rfl⟩ := blocks_of_walk hwalk rfl
    simpa using h hist' hwalk'

/-- What condition propagation asks the analysis. -/
def CFG.propagation (c : CFG) : ConditionPropagation.CFG :=
  ⟨fun a b => c.cfg.dominates (.block a) (.block b), c.getDominationPreOrder⟩

theorem CFG.Answers.propagation (h : c.Answers f) : c.propagation.Correct f where
  dominates_iff a b := by
    rw [← entered_iff, ← dominates_blocks_iff]
    exact h.dominates_iff _ _
  mem_preOrder b := by
    rw [← entered_iff]
    exact mem_filterMap_toBlock.trans (h.mem_preorder _)
  nodup_preOrder := by
    refine h.nodup_preorder.filterMap fun n n' b hn hn' => ?_
    cases n <;> cases n' <;> simp_all [Node.toBlock?]

end Queries

/-- The queries of the analysis, given that `simple_fast` computes immediate dominators.
Dominance is exact.  A frontier is exact for the blocks that are no loop header, in the
graph or in the reversed one; a branch whose ways all lead to a return has its merge point
when some other block is on all of them, and its body when that region is enclosed. -/
theorem queries_exact {simpleFast : Graph → Node → Dominators} {f : Function}
    (hkeys : (f.blocks.map Prod.fst).Nodup) (hentry : f.entryBlock ∈ f.blocks.map Prod.fst)
    (hd : ∀ g, graphOf f = some g → (simpleFast g .entry).Correct g .entry ∧
      (simpleFast g.reverse .return).Correct g.reverse .return) :
    ∃ c, build simpleFast f = some c ∧
      (∀ a b, Entered f a → Entered f b → ∃ r, c.dominates a b = some r ∧
        (r = true ↔ Dominates .entry (Flows f) (.block a) (.block b))) ∧
      (∀ a, Entered f a →
        (FrontierExact c f a ↔ ¬ LoopHeader .entry (Flows f) (.block a)) ∧
        (PostFrontierExact c f a ↔ ¬ LoopHeader .return (Comes f) (.block a))) ∧
      ∀ b, Entered f b → Leaves f b →
        (MergePointExact c f b ↔
          ∃ m, m ≠ b ∧ Dominates .return (Comes f) (.block m) (.block b)) ∧
        (IfBodyExact c f b ↔
          ∀ m, ImmediatelyDominates .return (Comes f) m (.block b) → Enclosed f b m) := by
  obtain ⟨c, hc, h⟩ := build_answers hkeys hentry hd
  exact ⟨c, hc, fun a b ha hb => h.dominates ha hb,
    fun a ha => ⟨h.frontierExact_iff ha, h.postFrontierExact_iff ha⟩,
    fun b hb hl => ⟨h.mergePointExact_iff hb hl, h.ifBodyExact_iff hb hl⟩⟩

/-! ## A loop of one block -/

/-- Block 1 jumps to itself or leaves to the return. -/
def selfLoop : Function where
  entryBlock := 0
  blocks := [(0, { terminator := some (.jmp 1 []) }),
    (1, { parameters := [(0, .u 1)], terminator := some (.jmpIf 0 1 2) }),
    (2, { terminator := some (.return []) })]

theorem selfLoop_edge {a b : BlockId} :
    selfLoop.Edge a b ↔ (a = 0 ∧ b = 1) ∨ (a = 1 ∧ (b = 1 ∨ b = 2)) := by
  constructor
  · rintro ⟨block, t, hb, ht, hmem⟩
    have hblock := mem_of_lookup_eq_some hb
    simp only [selfLoop, List.mem_cons, Prod.mk.injEq, List.not_mem_nil, or_false] at hblock
    rcases hblock with ⟨rfl, rfl⟩ | ⟨rfl, rfl⟩ | ⟨rfl, rfl⟩ <;> obtain rfl := Option.some.inj ht
    · simpa [Terminator.targets] using hmem
    · simpa [Terminator.targets] using hmem
    · simp [Terminator.targets] at hmem
  · rintro (⟨rfl, rfl⟩ | ⟨rfl, rfl | rfl⟩) <;>
      exact ⟨_, _, rfl, rfl, by simp [Terminator.targets]⟩

theorem selfLoop_entered : Entered selfLoop 0 ∧ Entered selfLoop 1 ∧ Entered selfLoop 2 := by
  have h0 : Walk .entry (Flows selfLoop) [.block 0, .entry] := .step .start .entry
  have h1 := h0.step (.edge (selfLoop_edge.mpr (.inl ⟨rfl, rfl⟩)))
  have h2 := h1.step (.edge (selfLoop_edge.mpr (.inr ⟨rfl, .inr rfl⟩)))
  exact ⟨⟨_, h0⟩, ⟨_, h1⟩, ⟨_, h2⟩⟩

/-- In the loop of one block, block 1 dominates block 2 and the frontier of block 0 is exact. -/
theorem queries_exact_selfLoop :
    ∃ c, build searchDominators selfLoop = some c ∧ c.dominates 1 2 = some true ∧
      FrontierExact c selfLoop 0 := by
  obtain ⟨h0, h1, h2⟩ := selfLoop_entered
  obtain ⟨c, hc, hdom, hfrontier, -⟩ := @queries_exact searchDominators selfLoop (by decide)
    (by decide) (searchDominators_correct_of_graphOf (by decide) (by decide))
  refine ⟨c, hc, ?_, (hfrontier 0 h0).1.mpr ?_⟩
  · obtain ⟨r, hr, hiff⟩ := hdom 1 2 h1 h2
    rw [hr, hiff.mpr]
    intro hist hwalk
    -- the only way into block 2 is from block 1
    cases hwalk with
    | step _ hedge =>
      cases hedge with
      | edge h =>
        obtain ⟨-, h⟩ | ⟨rfl, -⟩ := selfLoop_edge.mp h
        · simp at h
        · simp
  · rintro ⟨p, hp, -, hd⟩
    cases hp with
    | entry => simpa using hd [] .start
    | edge h => simp [selfLoop_edge] at h

/-- Block 1 is in its own dominance frontier and not in the one the query returns. -/
theorem frontier_misses_loop_header :
    (∀ g, graphOf selfLoop = some g → (searchDominators g .entry).Correct g .entry ∧
      (searchDominators g.reverse .return).Correct g.reverse .return) ∧
    ∃ c, build searchDominators selfLoop = some c ∧ Entered selfLoop 1 ∧
      ¬ FrontierExact c selfLoop 1 := by
  have hcorrect := @searchDominators_correct_of_graphOf selfLoop (by decide) (by decide)
  obtain ⟨c, hc, h⟩ := @build_answers searchDominators selfLoop (by decide) (by decide) hcorrect
  obtain ⟨-, h1, -⟩ := selfLoop_entered
  refine ⟨hcorrect, c, hc, h1, fun hexact => (h.frontierExact_iff h1).mp hexact ?_⟩
  exact ⟨.block 1, .edge (selfLoop_edge.mpr (.inr ⟨rfl, .inl rfl⟩)), h1, .refl _⟩

end Mavros.FlowAnalysis
