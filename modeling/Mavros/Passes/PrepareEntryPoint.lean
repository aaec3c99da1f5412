/-
# `Mavros.Passes.PrepareEntryPoint` — unconstrained results enter the witness

The last step of `PrepareEntryPoint` walks every block once and puts, behind each
unconstrained call, one call of a prepare function for each result; the prepare
function writes the leaves of the raw result to the witness, checks the range of
the integers among them and builds the value again.  Within the block the result is
then replaced by the prepared value.

The functions the pass adds are kept beside the program, by the type they prepare.

## What is modelled

* The body of a prepare function, as a program of `Mavros.Hlssa.Emitter`: default values, the
  check of a written integer, arrays filled in a loop, tuples element by element.  Types the
  source does not know are a `todo!`, here a failed run.
* The table of prepare functions, with the entry of a type made before those of its children.
* The walk over a block with its replacement map, which is fresh in every block, and the loops
  over blocks and functions.

A call under a guard is not looked into, as in the source.

## What it is not

What a finished prepare body guarantees is in `Mavros.Passes.PreparedRanges`, and which
uses of a raw result see the prepared one in `Mavros.Passes.PreparedResults`.
-/
import Mavros.Hlssa.Emitter
import Mavros.Hlssa.Replace

namespace Mavros.PrepareEntryPoint

open Hlssa Hlssa.Emit

/-! ## The prepare functions

One definition for each emitter of the source, recursive in the type.
-/

section Bodies

variable {σ : Type} (prover : Prover σ)

mutual

/-- `emit_default_value`; the types it does not know are a `todo!`. -/
def emitDefaultValue : TypeExpr → Emit σ Val
  | .field => fieldConst 0
  | .u size => uConst size 0
  | .i size => iConst size 0
  | .array inner size =>
      if size = 0 then mkSeq [] else do mkRepeated (← emitDefaultValue inner) size
  | .witnessOf _ => do castTo .witnessOf (← fieldConst 0)
  | .tuple elementTypes => do mkTuple (← emitDefaultValues elementTypes)
  | .slice _ | .ref _ | .function => fail

def emitDefaultValues : List TypeExpr → Emit σ (List Val)
  | [] => pure []
  | t :: ts => do
    let v ← emitDefaultValue t
    let vs ← emitDefaultValues ts
    pure (v :: vs)

end

def emitDefaultArray (inner : TypeExpr) (size : Nat) : Emit σ Val :=
  emitDefaultValue (.array inner size)

/-- The check of a written integer: a single bit by its polynomial, else a rangecheck. -/
def emitIntCheck (size : Nat) (witness : Val) : Emit σ Unit :=
  if size = 1 then do
    let zero ← fieldConst 0
    let one ← fieldConst 1
    let xSub1 ← sub witness one
    let xTimesXSub1 ← mul witness xSub1
    assertEq xTimesXSub1 zero
  else rangecheck size witness

/-- The arm of `emit_prepare_body` for the integer types. -/
def emitPrepareInt (castBack : CastTarget) (size : Nat) (value : Val) : Emit σ Val := do
  let asField ← castToField value
  let witness ← writeWitness prover asField
  emitIntCheck size witness
  castTo castBack witness

mutual

/-- `emit_prepare_body`, the child functions being the bodies for the child types. -/
def emitPrepareBody : TypeExpr → Val → Emit σ Val
  | .field, value => writeWitness prover value
  | .u size, value => emitPrepareInt prover (.u size) size value
  | .i size, value => emitPrepareInt prover (.i size) size value
  | .array inner size, value => do
    let initialArray ← emitDefaultArray inner size
    countedLoop initialArray (fun index currentArray => do
      let elem ← arrayGet index value
      let prepared ← emitPrepareBody inner elem
      arraySet index prepared currentArray) size
  | .tuple elementTypes, value => do
    mkTuple (← emitPrepareElements elementTypes 0 value)
  | .witnessOf _, value => pure value
  | .slice _, value | .ref _, value | .function, value => writeWitness prover value

/-- The loop over the elements of a tuple, from element `i` on. -/
def emitPrepareElements : List TypeExpr → Nat → Val → Emit σ (List Val)
  | [], _, _ => pure []
  | t :: ts, i, value => do
    let elem ← tupleProj i value
    let prepared ← emitPrepareBody t elem
    let rest ← emitPrepareElements ts (i + 1) value
    pure (prepared :: rest)

end

end Bodies

/-! ## The pass

The states carried by the loops are records, so that each loop is a fold.
-/

structure PrepareFnEntry where
  hlssaType : TypeExpr
  fnId : FunctionId
deriving DecidableEq

/-- What running a prepare function on a raw value does. -/
def PrepareFnEntry.run {σ : Type} (entry : PrepareFnEntry) (prover : Prover σ) (raw : Val) :
    Emit σ Val := emitPrepareBody prover entry.hlssaType raw

/-- The prepare functions made so far. -/
structure PrepareFns where
  entries : List PrepareFnEntry := []
  nextFunctionId : Nat

/-- `find_prepare_fn`. -/
def findPrepareFn (t : TypeExpr) (fns : List PrepareFnEntry) : Option FunctionId :=
  (fns.find? fun entry => entry.hlssaType = t).map (·.fnId)

def PrepareFns.add (fns : PrepareFns) (t : TypeExpr) : PrepareFns :=
  ⟨fns.entries ++ [⟨t, fns.nextFunctionId⟩], fns.nextFunctionId + 1⟩

mutual

/-- `get_or_create_prepare_fn`: the entry is there before those of the children. -/
def getOrCreatePrepareFn (t : TypeExpr) (fns : PrepareFns) : PrepareFns :=
  if (findPrepareFn t fns.entries).isSome then fns
  else match t with
    | .array inner _ => getOrCreatePrepareFn inner (fns.add t)
    | .tuple elementTypes => getOrCreatePrepareFns elementTypes (fns.add t)
    | _ => fns.add t

def getOrCreatePrepareFns : List TypeExpr → PrepareFns → PrepareFns
  | [], fns => fns
  | t :: ts, fns => getOrCreatePrepareFns ts (getOrCreatePrepareFn t fns)

end

/-- The results of an unconstrained call with their declared types; a guarded call is
not looked into. -/
def callResults (returnsOf : FunctionId → List TypeExpr) :
    OpCode → List (ValueId × TypeExpr)
  | .call results (.static callee) _ true => results.zip (returnsOf callee)
  | _ => []

/-- What the walk over a block carries. -/
structure BlockState where
  nextValueId : Nat
  replacements : ValueReplacements := []
  newInstructions : List OpCode := []

def prepareCall (prepareFn : FunctionId) (reconstructed result : ValueId) : OpCode :=
  .call [reconstructed] (.static prepareFn) [result] false

/-- One round of the loop over the results of a call. -/
def processResult (fns : List PrepareFnEntry) (s : BlockState) (p : ValueId × TypeExpr) :
    Option BlockState := do
  let prepareFn ← findPrepareFn p.2 fns
  some {
    nextValueId := s.nextValueId + 1
    replacements := s.replacements.insert p.1 s.nextValueId
    newInstructions := s.newInstructions ++ [prepareCall prepareFn s.nextValueId p.1] }

def processInstruction (returnsOf : FunctionId → List TypeExpr) (fns : List PrepareFnEntry)
    (s : BlockState) (instr : OpCode) : Option BlockState := do
  let instr ← s.replacements.replaceInstruction instr
  (callResults returnsOf instr).foldlM (processResult fns)
    { s with newInstructions := s.newInstructions ++ [instr] }

/-- The replacements start afresh in every block. -/
def processBlock (returnsOf : FunctionId → List TypeExpr) (fns : List PrepareFnEntry)
    (nextValueId : Nat) (block : Block) : Option (Nat × Block) := do
  let s ← block.instructions.foldlM (processInstruction returnsOf fns) { nextValueId }
  let terminator ← s.replacements.replaceTerminator (← block.terminator)
  some (s.nextValueId,
    { block with instructions := s.newInstructions, terminator := some terminator })

/-- The loop over the blocks of a function. -/
def processBlocks (returnsOf : FunctionId → List TypeExpr) (fns : List PrepareFnEntry) :
    Nat → List (BlockId × Block) → Option (Nat × List (BlockId × Block))
  | nextValueId, [] => some (nextValueId, [])
  | nextValueId, (id, block) :: blocks => do
    let (nextValueId, block) ← processBlock returnsOf fns nextValueId block
    let (nextValueId, blocks) ← processBlocks returnsOf fns nextValueId blocks
    some (nextValueId, (id, block) :: blocks)

/-- The loop over the functions. -/
def processFunctions (returnsOf : FunctionId → List TypeExpr) (fns : List PrepareFnEntry) :
    Nat → List (FunctionId × Function) → Option (Nat × List (FunctionId × Function))
  | nextValueId, [] => some (nextValueId, [])
  | nextValueId, (id, f) :: functions => do
    let (nextValueId, blocks) ← processBlocks returnsOf fns nextValueId f.blocks
    let (nextValueId, functions) ← processFunctions returnsOf fns nextValueId functions
    some (nextValueId, (id, { f with blocks }) :: functions)

/-- The callees of the unconstrained calls of a block. -/
def unconstrainedCallee : OpCode → Option FunctionId
  | .call _ (.static callee) _ true => some callee
  | _ => none

def unconstrainedCallees (ssa : SSA) : List FunctionId :=
  ssa.functions.flatMap fun f => f.2.blocks.flatMap fun b =>
    b.2.instructions.filterMap unconstrainedCallee

/-- `process_unconstrained_calls`.  The return types of the callees are walked in the
order of a hash map, here `walk`; the bodies of the prepare functions take `bodyValues`
values of their own. -/
def processUnconstrainedCalls (walk : List FunctionId) (bodyValues : Nat) (ssa : SSA) :
    Option (SSA × List PrepareFnEntry) := do
  if ¬ ∀ callee ∈ unconstrainedCallees ssa, (ssa.function callee).isSome then none
  else
    let returnsOf callee := ((ssa.function callee).map (·.returns)).getD []
    let fns := getOrCreatePrepareFns (walk.flatMap returnsOf)
      { nextFunctionId := ssa.nextFunctionId }
    let (nextValueId, functions) ← processFunctions returnsOf fns.entries
      (ssa.nextValueId + bodyValues) ssa.functions
    some ({ ssa with functions, nextValueId, nextFunctionId := fns.nextFunctionId },
      fns.entries)

end Mavros.PrepareEntryPoint
