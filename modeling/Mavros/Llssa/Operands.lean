/-
# `Mavros.Llssa.Operands` — the operand traversals of the low-level SSA

The instructions of the low-level SSA and their five traversals.  The results come first in
each `get_operands_mut`.

## What is modelled

`LLOp` has every opcode of the second backend with its operands and types, and the traversals are
written opcode by opcode as in the source: two that read, three that lend.

## What is proved

`operandTraversals_agree`: for both instruction sets, the high-level one and this one, the
traversals agree in the sense of `TraversalsAgree`, and renaming all operands renames what the two
readers see.

There are no guards here, so that all opcodes are a case distinction and `splits_of_append` closes
each of them.
-/
import Mavros.Hlssa.Operands

namespace Mavros.Llssa

open Lib Lib.MutRefs Hlssa

/-! ## Instructions -/

mutual

inductive LLFieldType where
  | int (bits : Nat)
  | ptr
  | inline (s : LLStruct)
  | inlineArray (s : LLStruct) (count : Nat)
  | flexArray (s : LLStruct)

inductive LLStruct where
  | mk (fields : List LLFieldType)

end

/-- `llssa::Type`. -/
inductive LLType where
  | int (bits : Nat)
  | ptr
  | struct (s : LLStruct)

inductive IntArithOp where
  | add | sub | mul | udiv | urem | and | or | xor | shl | ushr
deriving DecidableEq, Repr

inductive IntCmpOp where
  | eq | ult | slt
deriving DecidableEq, Repr

inductive FieldArithOp where
  | add | sub | mul | div
deriving DecidableEq, Repr

inductive LLOp where
  | intArith (kind : IntArithOp) (result a b : ValueId)
  | not (result value : ValueId)
  | spread (result value : ValueId) (bits resultBits : Nat)
  | unspread (resultOdd resultEven value : ValueId) (bits oddBits evenBits : Nat)
  | intCmp (kind : IntCmpOp) (result a b : ValueId)
  | truncate (result value : ValueId) (toBits : Nat)
  | zext (result value : ValueId) (toBits : Nat)
  | fieldArith (kind : FieldArithOp) (result a b : ValueId)
  | fieldNeg (result src : ValueId)
  | fieldEq (result a b : ValueId)
  | fieldToLimbs (result src : ValueId)
  | fieldFromLimbs (result limbs : ValueId)
  | mkStruct (result : ValueId) (structType : LLStruct) (fields : List ValueId)
  | extractField (result value : ValueId) (structType : LLStruct) (field : Nat)
  | heapAlloc (result : ValueId) (structType : LLStruct) (flexCount : Option ValueId)
  | free (ptr : ValueId)
  | load (result ptr : ValueId) (ty : LLType)
  | store (ptr value : ValueId)
  | structFieldPtr (result ptr : ValueId) (structType : LLStruct) (field : Nat)
  | arrayElemPtr (result ptr : ValueId) (elemType : LLStruct) (index : ValueId)
  | memcpy (dst src : ValueId) (structType : LLStruct) (count : Option ValueId)
  | select (result cond ifT ifF : ValueId)
  | call (results : List ValueId) (func : FunctionId) (args : List ValueId)
  | globalAddr (result : ValueId) (globalId : Nat)
  | trap

namespace LLOp

/-! ## Operands -/

/-- `get_inputs`. -/
def inputs : LLOp → List ValueId
  | globalAddr _ _ | trap => []
  | not _ value | fieldNeg _ value | fieldToLimbs _ value | fieldFromLimbs _ value
  | spread _ value _ _ | unspread _ _ value _ _ _ => [value]
  | truncate _ value _ | zext _ value _ => [value]
  | free ptr => [ptr]
  | intArith _ _ a b | intCmp _ _ a b | fieldArith _ _ a b | fieldEq _ a b => [a, b]
  | store ptr value => [ptr, value]
  | load _ ptr _ => [ptr]
  | select _ cond ifT ifF => [cond, ifT, ifF]
  | mkStruct _ _ fields => fields
  | extractField _ value _ _ => [value]
  | heapAlloc _ _ flexCount => flexCount.toList
  | structFieldPtr _ ptr _ _ => [ptr]
  | arrayElemPtr _ ptr _ index => [ptr, index]
  | memcpy dst src _ count => [dst, src] ++ count.toList
  | call _ _ args => args

/-- `get_results`. -/
def results : LLOp → List ValueId
  | intArith _ result _ _ | not result _ | spread result _ _ _ | intCmp _ result _ _
  | truncate result _ _ | zext result _ _ | fieldArith _ result _ _ | fieldNeg result _
  | fieldEq result _ _ | fieldToLimbs result _ | fieldFromLimbs result _
  | mkStruct result _ _ | extractField result _ _ _ | heapAlloc result _ _
  | load result _ _ | structFieldPtr result _ _ _ | arrayElemPtr result _ _ _
  | select result _ _ _ | globalAddr result _ => [result]
  | call results _ _ => results
  | unspread resultOdd resultEven _ _ _ _ => [resultOdd, resultEven]
  | free _ | store _ _ | memcpy _ _ _ _ | trap => []

/-- `get_results_mut`. -/
def resultsMut : LLOp → MutRefs ValueId LLOp
  | intArith kind result a b => (intArith kind · a b) <$> ref result
  | not result value => (not · value) <$> ref result
  | spread result value bits resultBits => (spread · value bits resultBits) <$> ref result
  | intCmp kind result a b => (intCmp kind · a b) <$> ref result
  | truncate result value toBits => (truncate · value toBits) <$> ref result
  | zext result value toBits => (zext · value toBits) <$> ref result
  | fieldArith kind result a b => (fieldArith kind · a b) <$> ref result
  | fieldNeg result src => (fieldNeg · src) <$> ref result
  | fieldEq result a b => (fieldEq · a b) <$> ref result
  | fieldToLimbs result src => (fieldToLimbs · src) <$> ref result
  | fieldFromLimbs result limbs => (fieldFromLimbs · limbs) <$> ref result
  | mkStruct result structType fields => (mkStruct · structType fields) <$> ref result
  | extractField result value structType field =>
      (extractField · value structType field) <$> ref result
  | heapAlloc result structType flexCount => (heapAlloc · structType flexCount) <$> ref result
  | load result ptr ty => (load · ptr ty) <$> ref result
  | structFieldPtr result ptr structType field =>
      (structFieldPtr · ptr structType field) <$> ref result
  | arrayElemPtr result ptr elemType index => (arrayElemPtr · ptr elemType index) <$> ref result
  | select result cond ifT ifF => (select · cond ifT ifF) <$> ref result
  | globalAddr result globalId => (globalAddr · globalId) <$> ref result
  | call results func args => (call · func args) <$> iter results
  | unspread resultOdd resultEven value bits oddBits evenBits =>
      (unspread · · value bits oddBits evenBits) <$> ref resultOdd <*> ref resultEven
  | free ptr => pure (free ptr)
  | store ptr value => pure (store ptr value)
  | memcpy dst src structType count => pure (memcpy dst src structType count)
  | trap => pure trap

/-- `get_inputs_mut`. -/
def inputsMut : LLOp → MutRefs ValueId LLOp
  | globalAddr result globalId => pure (globalAddr result globalId)
  | trap => pure trap
  | not result value => not result <$> ref value
  | fieldNeg result value => fieldNeg result <$> ref value
  | fieldToLimbs result value => fieldToLimbs result <$> ref value
  | fieldFromLimbs result value => fieldFromLimbs result <$> ref value
  | spread result value bits resultBits => (spread result · bits resultBits) <$> ref value
  | unspread resultOdd resultEven value bits oddBits evenBits =>
      (unspread resultOdd resultEven · bits oddBits evenBits) <$> ref value
  | truncate result value toBits => (truncate result · toBits) <$> ref value
  | zext result value toBits => (zext result · toBits) <$> ref value
  | free ptr => free <$> ref ptr
  | intArith kind result a b => intArith kind result <$> ref a <*> ref b
  | intCmp kind result a b => intCmp kind result <$> ref a <*> ref b
  | fieldArith kind result a b => fieldArith kind result <$> ref a <*> ref b
  | fieldEq result a b => fieldEq result <$> ref a <*> ref b
  | store ptr value => store <$> ref ptr <*> ref value
  | load result ptr ty => (load result · ty) <$> ref ptr
  | select result cond ifT ifF => select result <$> ref cond <*> ref ifT <*> ref ifF
  | mkStruct result structType fields => mkStruct result structType <$> iter fields
  | extractField result value structType field =>
      (extractField result · structType field) <$> ref value
  | heapAlloc result structType flexCount => heapAlloc result structType <$> opt flexCount
  | structFieldPtr result ptr structType field =>
      (structFieldPtr result · structType field) <$> ref ptr
  | arrayElemPtr result ptr elemType index =>
      (arrayElemPtr result · elemType ·) <$> ref ptr <*> ref index
  | memcpy dst src structType count =>
      (memcpy · · structType ·) <$> ref dst <*> ref src <*> opt count
  | call results func args => call results func <$> iter args

/-- `get_operands_mut`. -/
def operandsMut : LLOp → MutRefs ValueId LLOp
  | globalAddr result globalId => (globalAddr · globalId) <$> ref result
  | trap => pure trap
  | not result value => not <$> ref result <*> ref value
  | spread result value bits resultBits =>
      (spread · · bits resultBits) <$> ref result <*> ref value
  | fieldNeg result value => fieldNeg <$> ref result <*> ref value
  | fieldToLimbs result value => fieldToLimbs <$> ref result <*> ref value
  | fieldFromLimbs result value => fieldFromLimbs <$> ref result <*> ref value
  | truncate result value toBits => (truncate · · toBits) <$> ref result <*> ref value
  | zext result value toBits => (zext · · toBits) <$> ref result <*> ref value
  | intArith kind result a b => intArith kind <$> ref result <*> ref a <*> ref b
  | intCmp kind result a b => intCmp kind <$> ref result <*> ref a <*> ref b
  | fieldArith kind result a b => fieldArith kind <$> ref result <*> ref a <*> ref b
  | fieldEq result a b => fieldEq <$> ref result <*> ref a <*> ref b
  | select result cond ifT ifF => select <$> ref result <*> ref cond <*> ref ifT <*> ref ifF
  | unspread resultOdd resultEven value bits oddBits evenBits =>
      (unspread · · · bits oddBits evenBits)
        <$> ref resultOdd <*> ref resultEven <*> ref value
  | free ptr => free <$> ref ptr
  | store ptr value => store <$> ref ptr <*> ref value
  | load result ptr ty => (load · · ty) <$> ref result <*> ref ptr
  | mkStruct result structType fields =>
      (mkStruct · structType ·) <$> ref result <*> iter fields
  | extractField result value structType field =>
      (extractField · · structType field) <$> ref result <*> ref value
  | heapAlloc result structType flexCount =>
      (heapAlloc · structType ·) <$> ref result <*> opt flexCount
  | structFieldPtr result ptr structType field =>
      (structFieldPtr · · structType field) <$> ref result <*> ref ptr
  | arrayElemPtr result ptr elemType index =>
      (arrayElemPtr · · elemType ·) <$> ref result <*> ref ptr <*> ref index
  | memcpy dst src structType count =>
      (memcpy · · structType ·) <$> ref dst <*> ref src <*> opt count
  | call results func args => (call · func ·) <$> iter results <*> iter args

instance : Instruction LLOp :=
  { inputs := inputs
    results := results
    inputsMut := inputsMut
    resultsMut := resultsMut
    operandsMut := operandsMut }

/-! ## They agree

The instance for this instruction set, and both of them.
-/

theorem visit_inputs : Visit LLOp.inputsMut LLOp.inputs where
  read op := by
    cases op with
    | heapAlloc result structType flexCount => cases flexCount <;> rfl
    | memcpy dst src structType count => cases count <;> rfl
    | _ => rfl
  get_write op := by
    cases op with
    | heapAlloc result structType flexCount =>
      cases flexCount <;> simp [inputsMut, inputs, opt, forall_length_succ]
    | memcpy dst src structType count =>
      cases count <;> simp [inputsMut, inputs, opt, forall_length_succ]
    | call | mkStruct => exact fun ws _ => rfl
    | _ =>
      -- as many places as the instruction has inputs
      repeat refine forall_length_succ.mpr fun _ => ?_
      exact forall_length_zero.mpr rfl
  write_get op := by
    cases op with
    | heapAlloc result structType flexCount => cases flexCount <;> rfl
    | memcpy dst src structType count => cases count <;> rfl
    | _ => rfl

theorem results_inputsMut (op : LLOp) (ws : List ValueId) :
    (op.inputsMut.write ws).results = op.results := by
  cases op <;> rfl

theorem visit_results : Visit LLOp.resultsMut LLOp.results where
  read op := by cases op <;> rfl
  get_write op := by
    cases op with
    | call => exact fun ws _ => rfl
    | _ =>
      repeat refine forall_length_succ.mpr fun _ => ?_
      exact forall_length_zero.mpr rfl
  write_get op := by cases op <;> rfl

theorem inputs_resultsMut (op : LLOp) (ws : List ValueId) :
    (op.resultsMut.write ws).inputs = op.inputs := by
  cases op <;> rfl

theorem splits_of_append {op : LLOp}
    (hread : op.operandsMut.read = op.results ++ op.inputs)
    (hwrite : ∀ rs, rs.length = op.results.length → ∀ ws, ws.length = op.inputs.length →
      op.operandsMut.write (rs ++ ws) = (op.resultsMut.write rs).inputsMut.write ws) :
    ∃ kinds, Instruction.Splits op kinds :=
  Instruction.splits_of_append hread hwrite

theorem operands_split (op : LLOp) : ∃ kinds, Instruction.Splits op kinds := by
  cases op with
  | call rs func args =>
    refine splits_of_append (by simp [operandsMut, results, inputs]) ?_
    intro rs' hrs ws _
    rw [results] at hrs
    simp [operandsMut, inputsMut, resultsMut, ← hrs]
  | heapAlloc result structType flexCount =>
    cases flexCount <;>
      exact splits_of_append rfl (forall_length_succ.mpr fun _ => forall_length_zero.mpr
        fun _ _ => rfl)
  | memcpy dst src structType count =>
    cases count <;> exact splits_of_append rfl (forall_length_zero.mpr fun _ _ => rfl)
  | _ =>
    refine splits_of_append rfl ?_
    repeat refine forall_length_succ.mpr fun _ => ?_
    exact forall_length_zero.mpr fun _ _ => rfl

theorem traversalsAgree : Instruction.TraversalsAgree LLOp where
  inputs := visit_inputs
  inputs_results := results_inputsMut
  results := visit_results
  results_inputs := inputs_resultsMut
  operands := operands_split

end LLOp

/-- The traversals of both instruction sets agree, and renaming all operands renames what
the readers see. -/
theorem operandTraversals_agree :
    Instruction.TraversalsAgree OpCode ∧ Instruction.TraversalsAgree LLOp ∧
      ∀ f : ValueId → ValueId,
        (∀ op : OpCode, (op.operandsMut.modify f).inputs = op.inputs.map f ∧
          (op.operandsMut.modify f).results = op.results.map f) ∧
        ∀ op : LLOp, (op.operandsMut.modify f).inputs = op.inputs.map f ∧
          (op.operandsMut.modify f).results = op.results.map f :=
  ⟨OpCode.traversalsAgree, LLOp.traversalsAgree, fun f =>
    ⟨OpCode.traversalsAgree.modify_operands f, LLOp.traversalsAgree.modify_operands f⟩⟩

end Mavros.Llssa
