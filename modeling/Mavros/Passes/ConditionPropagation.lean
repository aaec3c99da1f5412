/-
# `Mavros.Passes.ConditionPropagation` — tested conditions as constants

In every block that the target of a branch dominates, the pass replaces the branch's
condition by the bit that leads to the target.  What `FlowAnalysis` says about a
function (dominance and a walk over the dominator tree, from petgraph's dominators) is
the record `CFG`.

## What is modelled

`replaces` collects two facts for each branch, one for each target: there the condition is the
bit.  A block's replacements are those of the facts whose targets dominate it, a later fact over
an earlier one, and `doRun` sweeps them over the block.  The bits are interned constants, added
to the side table as they are needed.

A block without terminator and a cycle of replacements are panics, here `none`.

## What it is not

`CFG.Correct` is what the pass expects of dominance and of the order, and is no more than what
petgraph documents; the record that is built of a function has it
(`Mavros.Analysis.DominanceQueries`).  What the pass does to a run is the subject of
`Mavros.Passes.PropagatedConditions`.
-/
import Mavros.Hlssa.Constants
import Mavros.Hlssa.Replace
import Mavros.Hlssa.Runs

namespace Mavros.ConditionPropagation

open Hlssa

/-! ## Constants -/

/-- The constant for a truth value. -/
def bit (value : Bool) : Constant := .u 1 (if value then 1 else 0)

/-! ## The flow analysis

A record of two queries, so that the pass can be read without the analysis.
-/

structure CFG where
  dominates : BlockId → BlockId → Bool
  dominationPreOrder : List BlockId

/-- The dominators petgraph documents: every path from the entry to the dominated block
visits the dominator; the walk over the tree visits each reachable block once. -/
structure CFG.Correct (cfg : CFG) (f : Function) : Prop where
  dominates_iff : ∀ a b, cfg.dominates a b = true ↔
    Lib.Reachable f.entryBlock f.Edge b ∧ Lib.Dominates f.entryBlock f.Edge a b
  mem_preOrder : ∀ b, b ∈ cfg.dominationPreOrder ↔ Lib.Reachable f.entryBlock f.Edge b
  nodup_preOrder : cfg.dominationPreOrder.Nodup

/-! ## The pass

Bottom up: facts, the replacements of a block, the block, the function, the program.
-/

/-- An entry of `replaces`: at `target` the condition has the value. -/
structure Fact where
  target : BlockId
  cond : ValueId
  value : Bool
deriving DecidableEq

/-- `replaces`: both targets of every branch. -/
def replaces (f : Function) : List Fact :=
  f.blocks.flatMap fun b =>
    match b.2.terminator with
    | some (.jmpIf cond ifT ifF) => [⟨ifT, cond, true⟩, ⟨ifF, cond, false⟩]
    | _ => []

/-- One dominating fact: its condition is mapped to the bit. -/
def insertFact (acc : ValueReplacements × Constants) (fact : Fact) :
    ValueReplacements × Constants :=
  let added := acc.2.addConst (bit fact.value)
  (acc.1.insert fact.cond added.1, added.2)

def blockReplacements (cfg : CFG) (facts : List Fact) (c : Constants) (b : BlockId) :
    ValueReplacements × Constants :=
  (facts.filter fun fact => cfg.dominates fact.target b).foldl insertFact ([], c)

/-- The rewritten block; a block without terminator is a panic. -/
def rewriteBlock (r : ValueReplacements) (block : Block) : Option Block := do
  let instructions ← block.instructions.mapM r.replaceInputs
  let t ← block.terminator
  let t ← r.replaceTerminator t
  return { block with instructions, terminator := some t }

/-- `put_block` for a block that is there. -/
def setBlock (f : Function) (b : BlockId) (block : Block) : Function :=
  { f with blocks := f.blocks.map fun p => if p.1 = b then (b, block) else p }

def processBlock (cfg : CFG) (facts : List Fact) (acc : Function × Constants) (b : BlockId) :
    Option (Function × Constants) := do
  let (r, c) := blockReplacements cfg facts acc.2 b
  let block ← acc.1.block b
  let block ← rewriteBlock r block
  return (setBlock acc.1 b block, c)

/-- The closure given to `modify_function`. -/
def processFunction (cfg : CFG) (f : Function) (c : Constants) : Option (Function × Constants) :=
  cfg.dominationPreOrder.foldlM (processBlock cfg (replaces f)) (f, c)

def processFunctions (cfgs : FunctionId → CFG) :
    List (FunctionId × Function) → Constants → Option (List (FunctionId × Function) × Constants)
  | [], c => some ([], c)
  | (id, f) :: fs, c => do
      let (f, c) ← processFunction (cfgs id) f c
      let (fs, c) ← processFunctions cfgs fs c
      return ((id, f) :: fs, c)

/-- `do_run`. -/
def doRun (cfgs : FunctionId → CFG) (ssa : SSA) : Option SSA := do
  let (functions, c) ← processFunctions cfgs ssa.functions ⟨ssa.constants, ssa.nextValueId⟩
  return { ssa with functions, constants := c.table, nextValueId := c.nextValueId }

end Mavros.ConditionPropagation
