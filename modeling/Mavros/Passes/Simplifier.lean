/-
# `Mavros.Passes.Simplifier` — the algebraic simplifier

Walks over all instructions; one that an identity applies to is dropped, its result an
alias of another value, or replaced.  Operands are brought up to date with the aliases
found so far, definitions and types are those of the start of the walk, constants are
looked up live.  A type lookup that misses and a cycle of aliases are panics, `none`.

## What is modelled

`tryArith` and `tryAlgebraic` have the source's arms in the source's order, for the first that
applies is taken.  An arm looks at constants, at definitions or at both, and its result is a
`Rewrite`: nothing, an alias, or another instruction.  Constants an arm needs are interned on the
way, so both return the table.

`processInstruction` is one step of the walk and `runFunction` a walk with its sweep.  `iterate`
walks until nothing changes or the limit of the pass is reached, with types computed anew each
time, and the hash map of the blocks in any order each time.

## What it is not

Which of the identities hold is in `Mavros.Passes.SimplifierRules`, and under which condition the
pass may use them in `Mavros.Passes.SimplifierSound`.
-/
import Mavros.Hlssa.Constants
import Mavros.Hlssa.Replace
import Mavros.Hlssa.Typing

namespace Mavros.Simplifier

open Hlssa

/-- What to do with a single instruction. -/
inductive Rewrite where
  | alias (result target : ValueId)
  | replace (ops : List OpCode)
deriving DecidableEq

/-! ## Constants

What the arms ask of a constant, and how one is made in the type of a value.
-/

def isZero (c : Constants) (v : ValueId) : Bool :=
  match c.table.lookup v with
  | some (.u _ 0) | some (.i _ 0) => true
  | some (.field x) => x = 0
  | _ => false

def isOne (c : Constants) (v : ValueId) : Bool :=
  match c.table.lookup v with
  | some (.u _ 1) | some (.i _ 1) => true
  | some (.field x) => x = 1
  | _ => false

/-- `bit_mask`; `1u128 << bits` takes `bits` modulo 128. -/
def bitMask (bits : Nat) : Nat :=
  if bits = 0 then 0 else if bits = 128 then 2 ^ 128 - 1 else 2 ^ (bits % 128) - 1

def isAllOnes (c : Constants) (v : ValueId) : Bool :=
  match c.table.lookup v with
  | some (.u bits value) | some (.i bits value) => value = bitMask bits
  | _ => false

def constAsUsize (c : Constants) (v : ValueId) : Option Nat :=
  match c.table.lookup v with
  | some (.u _ value) | some (.i _ value) => if value < 2 ^ 64 then some value else none
  | _ => none

/-- `FunctionValueDefinitions::get_definition`, where it is an instruction. -/
def definition (f : Function) (v : ValueId) : Option OpCode :=
  (f.blocks.flatMap fun b => b.2.instructions).find? fun op => v ∈ op.results

section Rules

variable (types : ValueId → Option TypeExpr) (defs : ValueId → Option OpCode)

/-- The constant of a scalar type with a small value. -/
def scalarConst (value : Nat) : TypeExpr → Option Constant
  | .u s => some (.u s value)
  | .i s => some (.i s value)
  | .field => some (.field value)
  | _ => none

def materializeConst (c : Constants) (result : ValueId)
    (pureValue : TypeExpr → Option Constant) : Option (Option Rewrite × Constants) := do
  let ty ← types result
  match pureValue ty.stripWitness with
  | none => some (none, c)
  | some value =>
    let added := c.addConst value
    if ty.isWitnessOf then some (some (.replace [.cast result added.1 .witnessOf]), added.2)
    else some (some (.alias result added.1), added.2)

def materializeZero (c : Constants) (result : ValueId) : Option (Option Rewrite × Constants) :=
  materializeConst types c result (scalarConst 0)

def materializeOne (c : Constants) (result : ValueId) : Option (Option Rewrite × Constants) :=
  materializeConst types c result (scalarConst 1)

/-- `x >> k` by a constant below the width of an unsigned `x`. -/
def shrToBitRange (c : Constants) (result lhs rhs : ValueId) :
    Option (Option Rewrite × Constants) :=
  match constAsUsize c rhs with
  | none => some (none, c)
  | some offset => do
    let t ← types lhs
    match t.stripWitness with
    | .u bits =>
      if offset < bits then
        some (some (.replace [.bitRange result lhs offset (bits - offset)]), c)
      else some (none, c)
    | _ => some (none, c)

/-- The arms for `BinaryArithOp`. -/
def tryArith (c : Constants) (kind : BinaryArithOpKind) (result lhs rhs : ValueId) :
    Option (Option Rewrite × Constants) :=
  let aliasTo (target : ValueId) := some (some (Rewrite.alias result target), c)
  match kind with
  | .add =>
    if isZero c lhs then aliasTo rhs
    else if isZero c rhs then aliasTo lhs
    else some (none, c)
  | .sub =>
    if isZero c rhs then aliasTo lhs
    else if lhs = rhs then materializeZero types c result
    else some (none, c)
  | .mul =>
    if isZero c lhs then aliasTo lhs
    else if isZero c rhs then aliasTo rhs
    else if isOne c lhs then aliasTo rhs
    else if isOne c rhs then aliasTo lhs
    else some (none, c)
  | .div => if isOne c rhs then aliasTo lhs else some (none, c)
  | .and =>
    if isZero c lhs then aliasTo lhs
    else if isZero c rhs then aliasTo rhs
    else if lhs = rhs then aliasTo lhs
    else if isAllOnes c lhs then aliasTo rhs
    else if isAllOnes c rhs then aliasTo lhs
    else some (none, c)
  | .or =>
    if isZero c lhs then aliasTo rhs
    else if isZero c rhs then aliasTo lhs
    else if lhs = rhs then aliasTo lhs
    else some (none, c)
  | .xor =>
    if isZero c lhs then aliasTo rhs
    else if isZero c rhs then aliasTo lhs
    else if lhs = rhs then materializeZero types c result
    else some (none, c)
  | .shl => if isZero c rhs then aliasTo lhs else some (none, c)
  | .shr => if isZero c rhs then aliasTo lhs else shrToBitRange types c result lhs rhs
  | .mod => some (none, c)

/-- `try_algebraic`. -/
def tryAlgebraic (c : Constants) (op : OpCode) : Option (Option Rewrite × Constants) :=
  match op with
  | .binaryArithOp kind result lhs rhs => tryArith types c kind result lhs rhs
  | .mulConst result constVal var =>
    if isZero c constVal then some (some (.alias result constVal), c)
    else if isOne c constVal then some (some (.alias result var), c)
    else some (none, c)
  | .cast result value target =>
    if target = .nop then some (some (.alias result value), c)
    else
      match defs value with
      | some (.cast _ _ innerTarget) =>
        if innerTarget = target then some (some (.alias result value), c) else some (none, c)
      | _ => some (none, c)
  | .not result value =>
    match defs value with
    | some (.not _ inner) => some (some (.alias result inner), c)
    | _ => some (none, c)
  | .select result _ ifT ifF =>
    if ifT = ifF then some (some (.alias result ifT), c) else some (none, c)
  | .bitRange result value offset width =>
    if offset = 0 then do
      let t ← types value
      let bits ← t.bitSize
      if width = bits then some (some (.alias result value), c) else some (none, c)
    else some (none, c)
  | .cmp .eq result lhs rhs =>
    if lhs = rhs then materializeOne types c result else some (none, c)
  | .valueOf result value =>
    match defs value with
    | some (.valueOf _ _) => some (some (.alias result value), c)
    | some (.writeWitness _ hint _) => some (some (.alias result hint), c)
    | _ => some (none, c)
  | .writeWitness (some result) value false =>
    match defs value with
    | some (.valueOf _ inner) => some (some (.alias result inner), c)
    | _ => some (none, c)
  | _ => some (none, c)

end Rules

/-! ## One walk over a function

The state carries the aliases, the constants and whether anything has changed.
-/

structure WalkState where
  aliases : ValueReplacements
  constants : Constants
  newInstructions : List OpCode
  changed : Bool

section Walk

variable (types : ValueId → Option TypeExpr) (defs : ValueId → Option OpCode)

def processInstruction (s : WalkState) (op : OpCode) : Option WalkState := do
  let op ← s.aliases.replaceInputs op
  let (rewrite, constants) ← tryAlgebraic types defs s.constants op
  match rewrite with
  | some (.alias result target) =>
    some { s with constants, aliases := s.aliases.insert result target, changed := true }
  | some (.replace ops) =>
    some { s with constants, newInstructions := s.newInstructions ++ ops, changed := true }
  | none => some { s with constants, newInstructions := s.newInstructions ++ [op] }

def processBlocks :
    List (BlockId × Block) → WalkState → Option (List (BlockId × Block) × WalkState)
  | [], s => some ([], s)
  | (b, block) :: blocks, s => do
      let s ← block.instructions.foldlM (processInstruction types defs)
        { s with newInstructions := [] }
      let (blocks, s') ← processBlocks blocks s
      return ((b, { block with instructions := s.newInstructions }) :: blocks, s')

end Walk

/-- `apply_to_function` on the inputs of one block. -/
def sweepBlock (aliases : ValueReplacements) (block : Block) : Option Block := do
  let instructions ← block.instructions.mapM aliases.replaceInputs
  let t ← block.terminator
  let t ← aliases.replaceTerminator t
  return { block with instructions, terminator := some t }

/-- `run_function`: the new function, the constants, and whether anything changed. -/
def runFunction (types : ValueId → Option TypeExpr) (f : Function) (c : Constants) :
    Option (Function × Constants × Bool) := do
  let (blocks, s) ← processBlocks types (definition f) f.blocks ⟨[], c, [], false⟩
  let blocks ← blocks.mapM fun p => do return (p.1, ← sweepBlock s.aliases p.2)
  return ({ f with blocks }, s.constants, s.changed)

/-! ## The pass

`order` is the domination pre-order of the analysis; the order of the hash map is a parameter of
each iteration.
-/

/-- `get_param_types`. -/
def paramTypes (f : Function) : List TypeExpr :=
  (f.block f.entryBlock).elim [] fun b => b.parameters.map Prod.snd

/-- `owned_sigs`. -/
def signatures (functions : List (FunctionId × Function)) (id : FunctionId) :
    Option (List TypeExpr × List TypeExpr) :=
  (functions.lookup id).map fun f => (paramTypes f, f.returns)

/-- The iterations over one function.  `order` is the domination pre-order; the hash map of
the blocks is walked in any order, `shuffle`. -/
def iterate (signatures : FunctionId → Option (List TypeExpr × List TypeExpr))
    (order : List BlockId) (shuffle : Nat → List (BlockId × Block) → List (BlockId × Block)) :
    Nat → Function → Constants → Option (Function × Constants)
  | 0, f, c => some (f, c)
  | n + 1, f, c => do
      let types ← f.types signatures c.table order
      let (f, c, changed) ← runFunction types { f with blocks := shuffle n f.blocks } c
      if changed then iterate signatures order shuffle n f c else some (f, c)

def simplifyFunctions (signatures : FunctionId → Option (List TypeExpr × List TypeExpr))
    (orders : FunctionId → List BlockId)
    (shuffle : FunctionId → Nat → List (BlockId × Block) → List (BlockId × Block))
    (maxIterations : Nat) :
    List (FunctionId × Function) → Constants → Option (List (FunctionId × Function) × Constants)
  | [], c => some ([], c)
  | (id, f) :: fs, c => do
      let (f, c) ← iterate signatures (orders id) (shuffle id) maxIterations f c
      let (fs, c) ← simplifyFunctions signatures orders shuffle maxIterations fs c
      return ((id, f) :: fs, c)

/-- `do_run`. -/
def doRun (maxIterations : Nat) (orders : FunctionId → List BlockId)
    (shuffle : FunctionId → Nat → List (BlockId × Block) → List (BlockId × Block)) (ssa : SSA) :
    Option SSA := do
  let (functions, c) ← simplifyFunctions (signatures ssa.functions) orders shuffle maxIterations
    ssa.functions ⟨ssa.constants, ssa.nextValueId⟩
  return { ssa with functions, constants := c.table, nextValueId := c.nextValueId }

end Mavros.Simplifier
