/-
# `Mavros.Passes.ReconstructParams` — `main` takes fields

`rebuild_main_params`: every parameter of `main` that is not a field is replaced by as many
fields as its type flattens to; a call of the reconstruct function of the type, on the array
of these fields, gives the parameter back.  Each reconstruct function cuts the array up for
its children, with index arithmetic on 32 bits, and checks the integer leaves.

## What is modelled

Three recursions over a type, apart from each other in the source: `flattened_field_count`, the
body of the reconstruct function, and the making of the functions of the children before the
function itself.  The body is a program of `Mavros.Hlssa.Emitter` in which the index of an element's
first field is computed by the emitted code, in a `u32`, so that it wraps.

`reconstructParam` is one parameter of the entry block, `rebuildMainParams` all of them, and
`entrySem` the meaning under which the rebuilt entry is run.

## What it is not

That the three recursions agree, and on which types the indices do not wrap, is in
`Mavros.Passes.ReconstructedFields`; what it means for the arguments of `main` in
`Mavros.Passes.ReconstructedParams`.
-/
import Mavros.Hlssa.Semantics
import Mavros.Passes.PrepareEntryPoint

namespace Mavros.PrepareEntryPoint

open Hlssa Hlssa.Emit

mutual

/-- `flattened_field_count`; the types it does not know are a `todo!`. -/
def flattenedFieldCount : TypeExpr → Option Nat
  | .field | .u _ | .i _ => some 1
  | .array inner size => (flattenedFieldCount inner).map (· * size)
  | .tuple elementTypes => flattenedFieldCounts elementTypes
  | .witnessOf inner => flattenedFieldCount inner
  | .slice _ | .ref _ | .function => none

/-- The sum over the elements of a tuple. -/
def flattenedFieldCounts : List TypeExpr → Option Nat
  | [] => some 0
  | t :: ts => (flattenedFieldCount t).bind fun m => (flattenedFieldCounts ts).map (m + ·)

end

section Bodies

variable {σ : Type}

/-- `todo!` where there is no count. -/
def fieldCount (t : TypeExpr) : Emit σ Nat :=
  match flattenedFieldCount t with
  | some n => pure n
  | none => fail

/-- `emit_reconstruct_child_input_array`. -/
def emitReconstructChildInputArray (inputArray : Val) (start len : Nat) : Emit σ Val := do
  let fields ← (List.range len).mapM fun i => do
    let index ← uConst 32 (start + i)
    arrayGetAt inputArray index
  mkSeq fields

/-- Where the fields of the child at `index` start. -/
def emitChildStart (index : Val) (width : Nat) : Emit σ Val :=
  if width = 1 then pure index else do mulInt 32 index (← uConst 32 width)

def emitFieldIndex (start : Val) (i : Nat) : Emit σ Val :=
  if i = 0 then pure start else do addInt 32 start (← uConst 32 i)

/-- `emit_reconstruct_child_input_array_at_index`. -/
def emitReconstructChildInputArrayAtIndex (inputArray index : Val) (width : Nat) :
    Emit σ Val := do
  let start ← emitChildStart index width
  let fields ← (List.range width).mapM fun i => do
    let fieldIndex ← emitFieldIndex start i
    arrayGetAt inputArray fieldIndex
  mkSeq fields

/-- The arm of `emit_reconstruct_body` for the integer types. -/
def emitReconstructInt (castBack : CastTarget) (size : Nat) (inputArray : Val) : Emit σ Val := do
  let zero ← uConst 32 0
  let fieldParam ← arrayGetAt inputArray zero
  emitIntCheck size fieldParam
  castTo castBack fieldParam

mutual

/-- `emit_reconstruct_body`, the child functions being the bodies for the child types.  The
index of the loop counts to a length below `2 ^ 32`. -/
def emitReconstructBody : TypeExpr → Val → Emit σ Val
  | .field, inputArray => do
    let zero ← uConst 32 0
    arrayGetAt inputArray zero
  | .u size, inputArray => emitReconstructInt (.u size) size inputArray
  | .i size, inputArray => emitReconstructInt (.i size) size inputArray
  | .array inner size, inputArray => do
    let childWidth ← fieldCount inner
    let initialArray ← emitDefaultArray inner size
    countedLoop initialArray (fun i currentArray => do
      let index ← uConst 32 i
      let childInput ← emitReconstructChildInputArrayAtIndex inputArray index childWidth
      let reconstructed ← emitReconstructBody inner childInput
      arraySet i reconstructed currentArray) size
  | .tuple elementTypes, inputArray => do
    mkTuple (← emitReconstructElements elementTypes inputArray 0)
  | .witnessOf inner, inputArray => do
    castTo .witnessOf (← emitReconstructBody inner inputArray)
  | .slice _, _ | .ref _, _ | .function, _ => fail

/-- The loop over the elements of a tuple. -/
def emitReconstructElements : List TypeExpr → Val → Nat → Emit σ (List Val)
  | [], _, _ => pure []
  | t :: ts, inputArray, fieldOffset => do
    let childWidth ← fieldCount t
    let childInput ← emitReconstructChildInputArray inputArray fieldOffset childWidth
    let reconstructed ← emitReconstructBody t childInput
    let rest ← emitReconstructElements ts inputArray (fieldOffset + childWidth)
    pure (reconstructed :: rest)

end

end Bodies

/-! ## The pass

The table of reconstruct functions and the entry block.
-/

structure ReconstructFnEntry where
  hlssaType : TypeExpr
  fnId : FunctionId
deriving DecidableEq

/-- The reconstruct functions made so far. -/
structure ReconstructFns where
  entries : List ReconstructFnEntry := []
  nextFunctionId : Nat

def findReconstructFn (t : TypeExpr) (fns : List ReconstructFnEntry) : Option FunctionId :=
  (fns.find? fun entry => entry.hlssaType = t).map (·.fnId)

def ReconstructFns.add (fns : ReconstructFns) (t : TypeExpr) : ReconstructFns :=
  ⟨fns.entries ++ [⟨t, fns.nextFunctionId⟩], fns.nextFunctionId + 1⟩

mutual

/-- `get_or_create_reconstruct_fn`: the children's entries are there before its own. -/
def getOrCreateReconstructFn : TypeExpr → ReconstructFns → ReconstructFns
  | .array inner size, fns =>
    if (findReconstructFn (.array inner size) fns.entries).isSome then fns
    else (getOrCreateReconstructFn inner fns).add (.array inner size)
  | .witnessOf inner, fns =>
    if (findReconstructFn (.witnessOf inner) fns.entries).isSome then fns
    else (getOrCreateReconstructFn inner fns).add (.witnessOf inner)
  | .tuple elementTypes, fns =>
    if (findReconstructFn (.tuple elementTypes) fns.entries).isSome then fns
    else (getOrCreateReconstructFns elementTypes fns).add (.tuple elementTypes)
  | t, fns => if (findReconstructFn t fns.entries).isSome then fns else fns.add t

def getOrCreateReconstructFns : List TypeExpr → ReconstructFns → ReconstructFns
  | [], fns => fns
  | t :: ts, fns => getOrCreateReconstructFns ts (getOrCreateReconstructFn t fns)

end

/-- What is collected for the parameters: new parameters and new instructions. -/
structure RebuiltParams where
  nextValueId : Nat
  parameters : List (ValueId × TypeExpr) := []
  instructions : List OpCode := []

/-- `reconstruct_param` of a parameter of `main`: the fields, their array and the call. -/
def reconstructParam (fns : List ReconstructFnEntry) (s : RebuiltParams)
    (param : ValueId × TypeExpr) : Option RebuiltParams :=
  match param.2 with
  | .field => some { s with parameters := s.parameters ++ [param] }
  | .u _ | .i _ | .array _ _ | .tuple _ => do
    let inputLen ← flattenedFieldCount param.2
    let fields := List.range' s.nextValueId inputLen
    let inputArray := s.nextValueId + inputLen
    let fnId ← findReconstructFn param.2 fns
    return {
      nextValueId := inputArray + 1
      parameters := s.parameters ++ fields.map fun field => (field, .field)
      instructions := s.instructions ++ [.mkSeq inputArray fields (.array inputLen) .field,
        .call [param.1] (.static fnId) [inputArray] false] }
  | _ => none

/-- `rebuild_main_params`. -/
def rebuildMainParams (ssa : SSA) : Option (SSA × List ReconstructFnEntry) := do
  let main ← ssa.function ssa.mainId
  let entry ← main.block main.entryBlock
  let fns := getOrCreateReconstructFns (entry.parameters.map Prod.snd)
    { nextFunctionId := ssa.nextFunctionId }
  let s ← entry.parameters.foldlM (reconstructParam fns.entries)
    { nextValueId := ssa.nextValueId }
  let entry' := { entry with
    parameters := s.parameters, instructions := s.instructions ++ entry.instructions }
  let main' := { main with blocks := main.blocks.map fun b =>
    if b.1 = main.entryBlock then (b.1, entry') else b }
  let functions := ssa.functions.map fun f => if f.1 = ssa.mainId then (f.1, main') else f
  return ({ ssa with
    functions, nextValueId := s.nextValueId, nextFunctionId := fns.nextFunctionId }, fns.entries)

/-! ## Running the rebuilt entry

Only the instructions the pass emits have a meaning here.
-/

/-- What a call of a reconstruct function gives on an array. -/
def ReconstructFnEntry.run (entry : ReconstructFnEntry) (inputArray : Val) : Option Val :=
  ((emitReconstructBody entry.hlssaType inputArray : Emit Unit Val) ()).map Prod.fst

/-- The meaning of the instructions that rebuild the parameters. -/
def entrySem (fns : List ReconstructFnEntry) : Sem Val Unit where
  const
    | .u _ value | .i _ value => .scalar value
    | .field value => .scalar value
    | .fnPtr _ => .seq []
  op shape xs w := (w, match shape, xs with
    | .mkSeq _ _ _ _, elems => some [.seq elems]
    | .call _ (.static fn) _ false, [inputArray] =>
      ((fns.find? fun entry => entry.fnId = fn).bind fun entry => entry.run inputArray).map
        fun v => [v]
    | _, _ => none)

end Mavros.PrepareEntryPoint
