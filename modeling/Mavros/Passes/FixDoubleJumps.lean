/-
# `Mavros.Passes.FixDoubleJumps` — merging a block into its only predecessor

The pass goes over the unconditional jumps into blocks that no other edge enters, a list
computed before the first merge, and appends each target to the block its source has
become part of.  The parameters of the merged blocks are replaced by the arguments of
their jumps, all at the end.

## What is modelled

The loop with its two maps: `replacements` of blocks, through which the block is found that the
source of a jump has become part of, and the value replacements.  `merge` is the body of the
loop, with its panics: a source that does not end in a jump, a block that is not in the map.
`resolve` is the `while let` that follows the chain of merged blocks; it carries fuel, and
running out is `none`, as it would run for ever.

## What it is not

The list of jumps is a parameter of the loop; `Mavros.Passes.JumpThreading` takes it from
`find_redundant_jumps`.  That neither panic can happen and that the chain ends is proved with the
pass, in `Mavros.Passes.ThreadedJumps`.
-/
import Mavros.Analysis.FlowAnalysis
import Mavros.Hlssa.Blocks
import Mavros.Hlssa.Replace

namespace Mavros.FixDoubleJumps

open Hlssa

/-- `while let Some(b') = replacements.get(&b) { b = b' }`, which without fuel would not
end on a cycle. -/
def resolve (replacements : List (BlockId × BlockId)) : Nat → BlockId → Option BlockId
  | 0, _ => none
  | fuel + 1, b =>
    match replacements.lookup b with
    | some b' => resolve replacements fuel b'
    | none => some b

/-- What the loop over the jumps carries. -/
structure Merging where
  function : Function
  replacements : List (BlockId × BlockId) := []
  valueReplacements : ValueReplacements := []

def Merging.resolve (m : Merging) (b : BlockId) : Option BlockId :=
  FixDoubleJumps.resolve m.replacements (m.replacements.length + 1) b

/-- The arguments of the jump; anything else is the panic `CFG says there is a jump here`. -/
def jumpArgs : Option Terminator → Option (List ValueId)
  | some (.jmp _ params) => some params
  | _ => none

/-- The parameters of a target are replaced by the arguments. -/
def insertAll (r : ValueReplacements) (params args : List ValueId) : ValueReplacements :=
  (params.zip args).foldl (fun r p => r.insert p.1 p.2) r

/-- The body of the loop over the jumps. -/
def merge (m : Merging) (jump : BlockId × BlockId) : Option Merging := do
  let source ← m.resolve jump.1
  let target ← m.resolve jump.2
  let (targetBlock, function) ← m.function.takeBlock target
  let sourceBlock ← function.block source
  let args ← jumpArgs sourceBlock.terminator
  let terminator ← targetBlock.terminator
  return {
    function := function.modifyBlock source fun block => { block with
      instructions := block.instructions ++ targetBlock.instructions
      terminator := some terminator }
    replacements := (target, source) :: m.replacements
    valueReplacements :=
      insertAll m.valueReplacements (targetBlock.parameters.map Prod.fst) args }

/-- `apply_to_function` with `ReplaceScope::Operands`. -/
def applyToFunction (r : ValueReplacements) (f : Function) : Option Function := do
  let blocks ← f.blocks.mapM fun p => do
    let instructions ← p.2.instructions.mapM r.replaceInstruction
    let terminator ← p.2.terminator
    let terminator ← r.replaceTerminator terminator
    return (p.1, { p.2 with instructions, terminator := some terminator })
  return { f with blocks }

/-- The loop over the jumps and what follows it. -/
def mergeJumps (jumps : List (BlockId × BlockId)) (f : Function) : Option Function := do
  let m ← jumps.foldlM merge { function := f }
  applyToFunction m.valueReplacements m.function

/-- `do_run` on a function. -/
def fixDoubleJumps (cfg : FlowAnalysis.CFG) (f : Function) : Option Function := do
  mergeJumps (← cfg.findRedundantJumps) f

end Mavros.FixDoubleJumps
