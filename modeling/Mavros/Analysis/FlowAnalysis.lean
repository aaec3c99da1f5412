/-
# `Mavros.Analysis.FlowAnalysis` — control-flow graphs and dominance queries

The graph of a function has a node per block and two synthetic ones, before the entry
block and after every return.  Dominance is answered from the numbers of two walks over
the dominator tree, post-dominance from the same data of the reversed graph.  A node
index of petgraph is only a name, so a node is written as what it stands for;
`block_to_node` and `node_to_block` are then the constructor `Node.block`.  The dominator
algorithm itself is petgraph's and a parameter.

## What is modelled

* `CFGData`: `from_graph` and the queries on one graph, with the recursion over the dominator
  tree bounded by the number of nodes.
* `CFGBuilder`: the graph of a function, node by node and edge by edge in the source's order.
  Edges into a block are listed the latest first, as petgraph does.
* the queries of `CFG`, which translate between blocks and nodes and choose the graph or its
  reversal.

A missing node is a panic, here `none`.

## What it is not

Nothing is proved in this module.  `Mavros.Analysis.Dominance` says what the data are and
`Mavros.Analysis.DominanceQueries` what the queries answer.
-/
import Mavros.Hlssa.Semantics

namespace Mavros.FlowAnalysis

open Hlssa

inductive JumpType where
  | entry | jmp | jmpIf | return
deriving DecidableEq, Repr

inductive Node where
  | entry
  | return
  | block (b : BlockId)
deriving DecidableEq, Repr

def Node.toBlock? : Node → Option BlockId
  | .block b => some b
  | _ => none

structure Edge where
  source : Node
  target : Node
  weight : JumpType
deriving DecidableEq, Repr

/-- `DiGraph<(), JumpType>`: the nodes and the edges in the order they were added. -/
structure Graph where
  nodes : List Node := []
  edges : List Edge := []
deriving DecidableEq, Repr

def Graph.reverse (g : Graph) : Graph :=
  { g with edges := g.edges.map fun e => ⟨e.target, e.source, e.weight⟩ }

/-- `edges_directed(_, Incoming)`. -/
def Graph.incoming (g : Graph) (n : Node) : List Edge := g.edges.filter (·.target = n)

/-- petgraph's `Dominators`. -/
structure Dominators where
  immediateDominator : Node → Option Node
  immediatelyDominatedBy : Node → List Node

/-! ## `CFGData`

One graph with the numbers that answer dominance in it.
-/

structure Traversals where
  preorder : List Node := []
  postorder : List Node := []
  preorderMap : List (Node × Nat) := []
  postorderMap : List (Node × Nat) := []

def Traversals.enter (t : Traversals) (n : Node) : Traversals :=
  { t with preorderMap := (n, t.preorder.length) :: t.preorderMap
           preorder := t.preorder ++ [n] }

def Traversals.leave (t : Traversals) (n : Node) : Traversals :=
  { t with postorderMap := (n, t.postorder.length) :: t.postorderMap
           postorder := t.postorder ++ [n] }

/-- `compute_dominator_traversals`, to a given depth of the recursion. -/
def computeDominatorTraversals (d : Dominators) : Nat → Node → Traversals → Option Traversals
  | 0, _, _ => none
  | depth + 1, root, t => do
    let t ← (d.immediatelyDominatedBy root).foldlM
      (fun t child =>
        if root = child then some t else computeDominatorTraversals d depth child t)
      (t.enter root)
    return t.leave root

structure CFGData where
  cfg : Graph
  dominators : Dominators
  traversals : Traversals

/-- `from_graph`.  The recursion over the dominator tree is no deeper than the graph has
nodes (`computeDominatorTraversals_eq`). -/
def CFGData.fromGraph (simpleFast : Graph → Node → Dominators) (cfg : Graph) (root : Node) :
    Option CFGData := do
  let dominators := simpleFast cfg root
  let traversals ← computeDominatorTraversals dominators cfg.nodes.length root {}
  return { cfg, dominators, traversals }

def CFGData.dominates (c : CFGData) (a b : Node) : Bool :=
  match c.traversals.preorderMap.lookup a, c.traversals.preorderMap.lookup b,
      c.traversals.postorderMap.lookup a, c.traversals.postorderMap.lookup b with
  | some aPre, some bPre, some aPost, some bPost => decide (aPre ≤ bPre) && decide (bPost ≤ aPost)
  | _, _, _, _ => false

/-- `CFGData::get_dominance_frontier`: a candidate the node dominates is skipped, be it the
node itself. -/
def CFGData.getDominanceFrontier (c : CFGData) (node : Node) : List Node :=
  c.cfg.nodes.filter fun candidate =>
    !c.dominates node candidate &&
      (c.cfg.incoming candidate).any fun e => c.dominates node e.source

/-! ## `CFGBuilder`

The blocks get their nodes first, in the order of the map, and then their edges.
-/

/-- `entry(b).or_insert_with(add_node)`. -/
def Graph.addBlock (g : Graph) (b : BlockId) : Graph :=
  if .block b ∈ g.nodes then g else { g with nodes := g.nodes ++ [.block b] }

def Graph.addEdge (g : Graph) (e : Edge) : Graph := { g with edges := g.edges ++ [e] }

/-- `CFGBuilder::new`. -/
def newGraph : Graph := { nodes := [.entry, .return] }

def Graph.addJump (g : Graph) (source target : BlockId) (jumpType : JumpType) : Graph :=
  ((g.addBlock source).addBlock target).addEdge ⟨.block source, .block target, jumpType⟩

/-- `set_entry` fails on an entry block the function does not have. -/
def Graph.setEntry (g : Graph) (b : BlockId) : Option Graph :=
  if .block b ∈ g.nodes then some (g.addEdge ⟨.entry, .block b, .entry⟩) else none

def Graph.addReturn (g : Graph) (b : BlockId) : Graph :=
  (g.addBlock b).addEdge ⟨.block b, .return, .return⟩

def Graph.addTerminator (g : Graph) (b : BlockId) : Option Terminator → Graph
  | some (.jmp target _) => g.addJump b target .jmp
  | some (.jmpIf _ t1 t2) => (g.addJump b t1 .jmpIf).addJump b t2 .jmpIf
  | some (.return _) => g.addReturn b
  | none => g

/-- The graph `FlowAnalysis::run` builds for a function. -/
def graphOf (f : Function) : Option Graph := do
  let g ← (f.blocks.foldl (fun g b => g.addBlock b.1) newGraph).setEntry f.entryBlock
  return f.blocks.foldl (fun g b => g.addTerminator b.1 b.2.terminator) g

structure CFG where
  cfg : CFGData
  reverseCfg : CFGData

/-- `CFGBuilder::build`, on the graph of a function. -/
def build (simpleFast : Graph → Node → Dominators) (f : Function) : Option CFG := do
  let g ← graphOf f
  let cfg ← CFGData.fromGraph simpleFast g .entry
  let reverseCfg ← CFGData.fromGraph simpleFast g.reverse .return
  return { cfg, reverseCfg }

namespace CFG

variable (c : CFG)

/-- `block_to_node.get(&b).unwrap()`. -/
def node (b : BlockId) : Option Node :=
  if .block b ∈ c.cfg.cfg.nodes then some (.block b) else none

def isLoopEntry (b : BlockId) : Option Bool := do
  let node ← c.node b
  return (c.cfg.cfg.incoming node).any fun e => c.cfg.dominates node e.source

def getMergePoint (b : BlockId) : Option BlockId := do
  let node ← c.node b
  let merge ← c.reverseCfg.dominators.immediateDominator node
  merge.toBlock?

def getIfBody (b : BlockId) : Option (List BlockId) := do
  let branch ← c.node b
  let merge ← c.reverseCfg.dominators.immediateDominator branch
  (c.cfg.cfg.nodes.filter fun node =>
    node ≠ branch && node ≠ merge &&
      (c.cfg.dominates branch node && c.reverseCfg.dominates merge node)).mapM Node.toBlock?

/-- `find_redundant_jumps`: an unconditional jump into a block with no other predecessor. -/
def findRedundantJumps : Option (List (BlockId × BlockId)) :=
  (c.cfg.cfg.nodes.filterMap fun node =>
    match c.cfg.cfg.incoming node with
    | [e] => if e.weight = .jmp then some (e.source, node) else none
    | _ => none).mapM fun e => do return (← e.1.toBlock?, ← e.2.toBlock?)

def getDominanceFrontier (b : BlockId) : Option (List BlockId) := do
  return (c.cfg.getDominanceFrontier (← c.node b)).filterMap Node.toBlock?

def getPostDominanceFrontier (b : BlockId) : Option (List BlockId) := do
  return (c.reverseCfg.getDominanceFrontier (← c.node b)).filterMap Node.toBlock?

def getDominationPreOrder : List BlockId :=
  c.cfg.traversals.preorder.filterMap Node.toBlock?

def dominates (a b : BlockId) : Option Bool := do
  return c.cfg.dominates (← c.node a) (← c.node b)

end CFG

end Mavros.FlowAnalysis
