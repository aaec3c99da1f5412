/-
# `Mavros.Codegen.RunFunction` — the bytecode of a function

`CodeGen::run_function` gives every value a place in the frame, in an order in which
dominators come first, emits the blocks in that order, and goes over the blocks once more
to put the jumps into the nops reserved for them: by then every parameter has its place
and every block its entrance.  The arguments of a jump are moved one after the other, and
through a scratch area when the target dominates the jump.

A `panic!`, a failed assertion and an index out of range are `none`.  The bytecode of the
instructions that are no scalar code is a parameter; what they do to the layout is not.

## What is modelled

* The layouter's side of every instruction, scratch words included, with the arms in the source's
  order.
* The emitter: entrances and exits of blocks, and as many nops as a terminator may need.
* The second pass, which writes the jumps, and the choice between the two ways of moving arguments
  by a query of dominance.
* The scratch area of the loops, as large as the parameters of the largest loop entry.

## What it is not

Guards, calls and the bodies of other instructions are not followed; no jump depends on them.
-/
import Mavros.Codegen.Scalar
import Mavros.Passes.ConditionPropagation

namespace Mavros.Codegen

open Hlssa
open ConditionPropagation (CFG)

/-! ## The layout -/

namespace FrameLayouter

/-- `alloc_temp_field` and `alloc_scratch`. -/
def allocScratch (l : FrameLayouter) (count : Nat) : FrameLayouter :=
  { l with nextFree := l.nextFree + count }

def allocTempField (l : FrameLayouter) : FrameLayouter := l.allocScratch 4

def allocPtr (l : FrameLayouter) (v : ValueId) : FrameLayouter := (l.alloc v 1).1

/-- A place for `v` by its type. -/
def allocTyped (types : ValueId → Option TypeExpr) (l : FrameLayouter) (v : ValueId) :
    Option FrameLayouter := do
  some (← l.allocValue v (← types v)).1

end FrameLayouter

/-- A coefficient that is no field element is cast to one. -/
def castTemp (l : FrameLayouter) (t : TypeExpr) : FrameLayouter :=
  if t = .field then l else l.allocTempField

/-- `run_block_body`: what the arm of an instruction does to the layout. -/
def layoutInstruction (types : ValueId → Option TypeExpr) (l : FrameLayouter) :
    Hlssa.OpCode → Option FrameLayouter
  | .binaryArithOp .add r lhs rhs => do
    match ← types r with
    | .witnessOf _ => some (l.allocPtr r)
    | _ => (select types l (.binaryArithOp .add r lhs rhs)).map Prod.fst
  | .cast r v .witnessOf => do some ((castTemp l (← types v)).allocPtr r)
  | .arrayGet r _ _ | .tupleProj r _ _ | .arraySet r _ _ _ | .sliceLen r _ | .mkSeq r _ _ _
  | .mkRepeated r _ _ _ _ | .mkTuple r _ _ | .readGlobal r _ _ => l.allocTyped types r
  | .call rs (.static _) _ _ => do
    allocParameters l (← rs.mapM fun r => do some (r, ← types r))
  | .constrain _ _ _ | .writeWitness none _ _ | .memOp _ _ | .assertCmp .eq _ _ | .bumpD _ _ _
  | .rangecheck _ _ | .initGlobal _ _ | .dropGlobal _ | .store _ _ => some l
  | .assertCmp .lt _ _ => some ((l.allocScratch 1).allocScratch 1)
  | .assert _ => some (l.allocScratch 1)
  | .assertR1C _ _ _ => some (l.allocScratch 4)
  | .nextDCoeff r => some (l.allocField r).1
  | .freshWitness r _ => some (l.allocPtr r)
  | .mulConst r c _ => do some ((castTemp l (← types c)).allocPtr r)
  | .lookup (.rangecheck 8) _ _ | .lookup (.array _) _ _ | .lookup (.spread _) _ _
  | .dlookup (.rangecheck 8) _ _ | .dlookup (.array _) _ _ | .dlookup (.spread _) _ _ => some l
  | .alloc r _ => some (l.allocPtr r)
  | .load r ptr => do
    match ← types ptr with
    | .ref inner => some (← l.allocValue r inner).1
    | _ => none
  | op => (select types l op).map Prod.fst

/-! ## The emitter

The code so far, with the positions that jumps will need.
-/

/-- Opcodes, as far as `run_function` emits them itself. -/
inductive Instr (B : Type) where
  | scalar (op : Bytecode.OpCode)
  | nop
  | jmp (target : Nat)
  | jmpIf (cond ifT ifF : Nat)
  | writePtr (offset src size : Nat)
  | ret
  | other (op : B)
deriving DecidableEq

structure EmitterState (B : Type) where
  code : List (Instr B) := []
  blockEntrances : List (BlockId × Nat) := []
  blockExits : List (BlockId × Nat) := []

namespace EmitterState

variable {B : Type}

def push (e : EmitterState B) (code : List (Instr B)) : EmitterState B :=
  { e with code := e.code ++ code }

def enterBlock (e : EmitterState B) (b : BlockId) : EmitterState B :=
  { e with blockEntrances := (b, e.code.length) :: e.blockEntrances }

def exitBlock (e : EmitterState B) (b : BlockId) : EmitterState B :=
  { e with blockExits := (b, e.code.length) :: e.blockExits }

end EmitterState

structure CodegenState (B : Type) where
  layouter : FrameLayouter := {}
  emitter : EmitterState B := {}

section Function

variable {B : Type} (emit : FrameLayouter → Hlssa.OpCode → Option (List (Instr B)))
  (types : ValueId → Option TypeExpr) (cfg : CFG) (f : Function)

/-- The code of an instruction that takes the layout from `l` to `l'`: scalar code as it is
selected, other code from `emit`. -/
def instructionCode (l l' : FrameLayouter) (op : Hlssa.OpCode) : Option (List (Instr B)) :=
  match select types l op with
  | some (_, code) => some (code.map .scalar)
  | none => emit l' op

def runInstruction (s : CodegenState B) (op : Hlssa.OpCode) : Option (CodegenState B) := do
  let layouter ← layoutInstruction types s.layouter op
  let code ← instructionCode emit types s.layouter layouter op
  return ⟨layouter, s.emitter.push code⟩

/-- The writes of a return. -/
def returnWrites (l : FrameLayouter) : Nat → List ValueId → Option (List (Instr B))
  | _, [] => some []
  | offset, v :: vs => do
    let size ← FrameLayouter.typeSize (← types v)
    let write := .writePtr offset (← l.getValue v) size
    return write :: (← returnWrites l (offset + size) vs)

/-- What `run_block_body` emits for a terminator: nops to be filled in for a jump. -/
def exitCode (l : FrameLayouter) (b : BlockId) : Terminator → Option (List (Instr B))
  | .jmp target params =>
    let nopCount := if cfg.dominates target b then 2 * params.length else params.length
    some (.nop :: List.replicate nopCount .nop)
  | .jmpIf _ _ _ => some [.nop]
  | .return params => do return (← returnWrites types l 0 params) ++ [.ret]

def runBlockBody (s : CodegenState B) (b : BlockId) (block : Block) :
    Option (CodegenState B) := do
  let s : CodegenState B := { s with emitter := s.emitter.enterBlock b }
  let s ← block.instructions.foldlM (runInstruction emit types) s
  let code ← exitCode types cfg s.layouter b (← block.terminator)
  return { s with emitter := (s.emitter.exitBlock b).push code }

/-- The values the function reads. -/
def reads : List ValueId := f.blocks.flatMap fun p => p.2.uses

/-- The constants `materialize_constants` finds, sorted. -/
def referencedConstants (constants : List (ValueId × Constant)) : List (ValueId × Constant) :=
  ((reads f).dedup.insertionSort (· ≤ ·)).filterMap fun v => (constants.lookup v).map (v, ·)

/-- The entry block: its parameters stand first in the frame, the constants next. -/
def runEntry (constants : List (ValueId × Constant)) : Option (CodegenState B) := do
  let entry ← f.block f.entryBlock
  let l ← allocParameters {} entry.parameters
  let (l, code) ← materializeConstants l (referencedConstants f constants)
  runBlockBody emit types cfg ⟨l, { code := code.map .scalar }⟩ f.entryBlock entry

/-- A block other than the entry. -/
def runBlock (s : CodegenState B) (b : BlockId) : Option (CodegenState B) := do
  let block ← f.block b
  let l ← allocParameters s.layouter block.parameters
  runBlockBody emit types cfg { s with layouter := l } b block

def runBlocks (constants : List (ValueId × Constant)) : Option (CodegenState B) := do
  let s ← runEntry emit types cfg f constants
  (cfg.dominationPreOrder.filter (· ≠ f.entryBlock)).foldlM (runBlock emit types cfg f) s

/-! ## Jumps -/

/-- `CFG::is_loop_entry`: some predecessor is dominated. -/
def isLoopEntry (b : BlockId) : Bool :=
  f.blocks.any fun p =>
    p.2.terminator.any fun t => decide (b ∈ t.targets) && cfg.dominates b p.1

def parametersSize (params : List (ValueId × TypeExpr)) : Option Nat := do
  return (← params.mapM fun p => FrameLayouter.typeSize p.2).sum

/-- `max_loop_scratch`. -/
def maxLoopScratch : Option Nat := do
  let sizes ← (f.blocks.filter fun p => isLoopEntry cfg f p.1).mapM fun p =>
    parametersSize p.2.parameters
  return sizes.foldl max 0

/-- The moves of a forward edge. -/
def forwardMoves (l : FrameLayouter) :
    List (ValueId × ValueId × TypeExpr) → Option (List Bytecode.OpCode)
  | [] => some []
  | (arg, param, tp) :: rest => do
    let size ← FrameLayouter.typeSize tp
    let move := .movFrame size (← l.getValue param) (← l.getValue arg)
    return move :: (← forwardMoves l rest)

/-- The moves of a back-edge into the scratch area from `scratch` on. -/
def scratchMoves (l : FrameLayouter) :
    Nat → List (ValueId × ValueId × TypeExpr) → Option (List Bytecode.OpCode)
  | _, [] => some []
  | scratch, (arg, _, tp) :: rest => do
    let size ← FrameLayouter.typeSize tp
    let move := .movFrame size scratch (← l.getValue arg)
    return move :: (← scratchMoves l (scratch + size) rest)

/-- The moves of a back-edge out of the scratch area. -/
def parameterMoves (l : FrameLayouter) :
    Nat → List (ValueId × ValueId × TypeExpr) → Option (List Bytecode.OpCode)
  | _, [] => some []
  | scratch, (_, param, tp) :: rest => do
    let size ← FrameLayouter.typeSize tp
    let move := .movFrame size (← l.getValue param) scratch
    return move :: (← parameterMoves l (scratch + size) rest)

/-- The moves of a jump. -/
def jumpMoves (l : FrameLayouter) (scratchBase : Nat) (b target : BlockId)
    (pairs : List (ValueId × ValueId × TypeExpr)) : Option (List Bytecode.OpCode) :=
  if cfg.dominates target b then do
    return (← scratchMoves l scratchBase pairs) ++ (← parameterMoves l scratchBase pairs)
  else forwardMoves l pairs

/-- What is put into the nops of a terminator. -/
def terminatorCode (s : CodegenState B) (scratchBase : Nat) (b : BlockId) :
    Terminator → Option (List (Instr B))
  | .jmp target args => do
    let targetBlock ← f.block target
    let moves ← jumpMoves cfg s.layouter scratchBase b target (args.zip targetBlock.parameters)
    return moves.map .scalar ++ [.jmp (← s.emitter.blockEntrances.lookup target)]
  | .jmpIf cond ifT ifF => do
    return [.jmpIf (← s.layouter.getValue cond) (← s.emitter.blockEntrances.lookup ifT)
      (← s.emitter.blockEntrances.lookup ifF)]
  | .return _ => some []

/-- Writes to the code from a cursor on. -/
def writeAt {α : Type} : List α → Nat → List α → Option (List α)
  | code, _, [] => some code
  | code, cursor, x :: xs =>
    if cursor < code.length then writeAt (code.set cursor x) (cursor + 1) xs else none

def patchBlock (s : CodegenState B) (scratchBase : Nat) (code : List (Instr B))
    (p : BlockId × Block) : Option (List (Instr B)) := do
  let cursor ← s.emitter.blockExits.lookup p.1
  let t ← p.2.terminator
  writeAt code cursor (← terminatorCode cfg f s scratchBase p.1 t)

/-- `bytecode::Function`, with what it was made from. -/
structure Compiled (B : Type) where
  state : CodegenState B
  frameSize : Nat
  code : List (Instr B)

/-- `CodeGen::run_function`. -/
def runFunction (constants : List (ValueId × Constant)) : Option (Compiled B) := do
  let s ← runBlocks emit types cfg f constants
  let scratchBase := s.layouter.nextFree
  let layouter := s.layouter.allocScratch (← maxLoopScratch cfg f)
  let code ← f.blocks.foldlM (patchBlock cfg f s scratchBase) s.emitter.code
  return ⟨s, layouter.nextFree, code⟩

end Function

end Mavros.Codegen
