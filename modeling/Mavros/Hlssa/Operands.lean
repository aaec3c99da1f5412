/-
# `Mavros.Hlssa.Operands` — the operand traversals of the high-level SSA

The trait `Instruction` asks each instruction set for five traversals of its operands: two
read, three lend the operands out to be rewritten.  They are written opcode by opcode,
apart from each other.  They agree when the two that read tell what the other three lend.

## What is modelled

`inputsMut`, `resultsMut` and `operandsMut` follow the three traversals that lend, one case for
each opcode with the operands in the source's order; the two that read are those of
`Mavros.Hlssa.Syntax`.  `Instruction` is the trait, and `TraversalsAgree` what is asked of an
instance of it.

## What is proved

`traversalsAgree`: `get_inputs_mut` and `get_results_mut` lend the places the other two read,
each once and in their order; `get_operands_mut` lends both kinds and nothing else, each once.
`modify_operandsMut` says that the renaming the passes do by way of `get_operands_mut` is
`mapOperands`.

## How it goes

Places are of two kinds, and `operands_split` says of each opcode how the two kinds are mixed.
The results come first in all opcodes but guards, whose condition comes before the operands of
the guarded instruction; so the guard is an induction and the rest one lemma
(`splits_of_append`).
-/
import Mavros.Hlssa.Syntax
import Mavros.Lib.MutRefs

namespace Mavros

open Lib Lib.MutRefs Hlssa

/-! ## The trait

Generic in the instruction set; the low-level SSA is the other instance.
-/

/-- The traversals of `Instruction`. -/
class Instruction (Op : Type) where
  inputs : Op → List ValueId
  results : Op → List ValueId
  inputsMut : Op → MutRefs ValueId Op
  resultsMut : Op → MutRefs ValueId Op
  operandsMut : Op → MutRefs ValueId Op

namespace Instruction

variable {Op : Type} [Instruction Op]

/-- The places `get_operands_mut` lends are those of the inputs and of the results, each
once, of the kinds given (an input is `true`): what is written to them is written to the
inputs and to the results, in the order of each. -/
structure Splits (op : Op) (kinds : List Bool) : Prop where
  length : (operandsMut op).read.length = kinds.length
  inputs : pick true kinds (operandsMut op).read = inputs op
  results : pick false kinds (operandsMut op).read = results op
  write : ∀ ws, ws.length = kinds.length → (operandsMut op).write ws
    = (inputsMut ((resultsMut op).write (pick false kinds ws))).write (pick true kinds ws)

/-- Where the results come first. -/
theorem splits_of_append {op : Op} (hread : (operandsMut op).read = results op ++ inputs op)
    (hwrite : ∀ rs, rs.length = (results op).length → ∀ ws, ws.length = (inputs op).length →
      (operandsMut op).write (rs ++ ws) = (inputsMut ((resultsMut op).write rs)).write ws) :
    ∃ kinds, Splits op kinds := by
  obtain ⟨hresults, hinputs⟩ :=
    @pick_replicate_append ValueId _ _ (results op) (inputs op) rfl rfl
  refine ⟨List.replicate (results op).length false ++ List.replicate (inputs op).length true,
    by simp [hread], by rw [hread, hinputs], by rw [hread, hresults], ?_⟩
  intro ws hlen
  rw [List.length_append, List.length_replicate, List.length_replicate] at hlen
  have hrs : (ws.take (results op).length).length = (results op).length :=
    List.length_take_of_le (hlen ▸ Nat.le_add_right _ _)
  have hws : (ws.drop (results op).length).length = (inputs op).length := by
    rw [List.length_drop, hlen, Nat.add_sub_cancel_left]
  obtain ⟨hfalse, htrue⟩ := pick_replicate_append hrs hws
  have hsplit := hwrite _ hrs _ hws
  rw [List.take_append_drop] at hfalse htrue hsplit
  rw [hfalse, htrue, hsplit]

variable (Op) in
/-- The five traversals go through the same operands. -/
structure TraversalsAgree : Prop where
  inputs : Visit (@inputsMut Op _) inputs
  inputs_results : ∀ (op : Op) ws, results ((inputsMut op).write ws) = results op
  results : Visit (@resultsMut Op _) results
  results_inputs : ∀ (op : Op) ws, Instruction.inputs ((resultsMut op).write ws)
    = Instruction.inputs op
  operands : ∀ op : Op, ∃ kinds, Splits op kinds

/-- Renaming all operands renames the inputs and the results. -/
theorem TraversalsAgree.modify_operands (h : TraversalsAgree Op) (f : ValueId → ValueId)
    (op : Op) :
    Instruction.inputs ((operandsMut op).modify f) = (Instruction.inputs op).map f ∧
      Instruction.results ((operandsMut op).modify f) = (Instruction.results op).map f := by
  obtain ⟨kinds, hsplit⟩ := h.operands op
  have hlen : ((operandsMut op).read.map f).length = kinds.length := by
    rw [List.length_map, hsplit.length]
  rw [MutRefs.modify, hsplit.write _ hlen, pick_map, pick_map, hsplit.inputs, hsplit.results]
  constructor
  · refine h.inputs.get_write _ _ ?_
    rw [h.results_inputs, List.length_map]
  · rw [h.inputs_results]
    exact h.results.get_write _ _ (List.length_map f)

end Instruction

/-! ## The opcodes

Targets with operands of their own are enumerated first.
-/

namespace Hlssa

def LookupTarget.inputsMut : LookupTarget → MutRefs ValueId LookupTarget
  | rangecheck bits => pure (rangecheck bits)
  | spread bits => pure (spread bits)
  | dynRangecheck v => dynRangecheck <$> ref v
  | array arr => array <$> ref arr

def Radix.inputsMut : Radix → MutRefs ValueId Radix
  | bytes => pure bytes
  | dyn radix => dyn <$> ref radix

def CallTarget.inputsMut : CallTarget → MutRefs ValueId CallTarget
  | static fn => pure (static fn)
  | dynamic fnPtr => dynamic <$> ref fnPtr

@[simp]
theorem LookupTarget.read_inputsMut (target : LookupTarget) :
    target.inputsMut.read = target.inputs := by
  cases target <;> rfl

@[simp]
theorem Radix.read_inputsMut (radix : Radix) : radix.inputsMut.read = radix.inputs := by
  cases radix <;> rfl

@[simp]
theorem CallTarget.read_inputsMut (target : CallTarget) :
    target.inputsMut.read = target.inputs := by
  cases target <;> rfl

section Modify

variable (f : ValueId → ValueId)

@[simp]
theorem LookupTarget.modify_inputsMut (target : LookupTarget) :
    target.inputsMut.modify f = target.map f := by
  cases target <;> rfl

@[simp]
theorem Radix.modify_inputsMut (radix : Radix) : radix.inputsMut.modify f = radix.map f := by
  cases radix <;> rfl

@[simp]
theorem CallTarget.modify_inputsMut (target : CallTarget) :
    target.inputsMut.modify f = target.map f := by
  cases target <;> rfl

end Modify

namespace OpCode

/-- `get_inputs_mut`. -/
def inputsMut : OpCode → MutRefs ValueId OpCode
  | alloc r t => pure (alloc r t)
  | freshWitness r t => pure (freshWitness r t)
  | nextDCoeff r => pure (nextDCoeff r)
  | cmp kind r b c => cmp kind r <$> ref b <*> ref c
  | binaryArithOp kind r b c => binaryArithOp kind r <$> ref b <*> ref c
  | arrayGet r b c => arrayGet r <$> ref b <*> ref c
  | mulConst r b c => mulConst r <$> ref b <*> ref c
  | spread r v bits => (spread r · bits) <$> ref v
  | unspread odd even v bits => (unspread odd even · bits) <$> ref v
  | arraySet r b c d => arraySet r <$> ref b <*> ref c <*> ref d
  | slicePush dir r b c => slicePush dir r <$> ref b <*> iter c
  | sliceLen r b => sliceLen r <$> ref b
  | assertCmp kind b c => assertCmp kind <$> ref b <*> ref c
  | store b c => store <$> ref b <*> ref c
  | bumpD mat b c => bumpD mat <$> ref b <*> ref c
  | assert c => assert <$> ref c
  | load r c => load r <$> ref c
  | writeWitness r c pinned => (writeWitness r · pinned) <$> ref c
  | cast r c target => (cast r · target) <$> ref c
  | sext r c m n => (sext r · m n) <$> ref c
  | bitRange r c offset width => (bitRange r · offset width) <$> ref c
  | call rs function args unconstrained =>
      (call rs · · unconstrained) <$> function.inputsMut <*> iter args
  | mkSeq r elems seqType t => (mkSeq r · seqType t) <$> iter elems
  | mkRepeated r element seqType count t => (mkRepeated r · seqType count t) <$> ref element
  | mkTuple r elems ts => (mkTuple r · ts) <$> iter elems
  | select r b c d => select r <$> ref b <*> ref c <*> ref d
  | assertR1C b c d => assertR1C <$> ref b <*> ref c <*> ref d
  | constrain b c d => constrain <$> ref b <*> ref c <*> ref d
  | not r v => not r <$> ref v
  | valueOf r v => valueOf r <$> ref v
  | toBits r v endianness count => (toBits r · endianness count) <$> ref v
  | toRadix r v radix endianness count =>
      (toRadix r · · endianness count) <$> ref v <*> radix.inputsMut
  | memOp kind v => memOp kind <$> ref v
  | rangecheck v maxBits => (rangecheck · maxBits) <$> ref v
  | readGlobal r offset t => pure (readGlobal r offset t)
  | lookup target args flag => lookup <$> target.inputsMut <*> iter args <*> ref flag
  | dlookup target args flag => dlookup <$> target.inputsMut <*> iter args <*> ref flag
  | tupleProj r tuple idx => (tupleProj r · idx) <$> ref tuple
  | todo rs ts => pure (todo rs ts)
  | initGlobal global v => initGlobal global <$> ref v
  | dropGlobal global => pure (dropGlobal global)
  | guard condition inner => guard <$> ref condition <*> inner.inputsMut

/-- `get_results_mut`. -/
def resultsMut : OpCode → MutRefs ValueId OpCode
  | alloc r t => (alloc · t) <$> ref r
  | freshWitness r t => (freshWitness · t) <$> ref r
  | cmp kind r b c => (cmp kind · b c) <$> ref r
  | binaryArithOp kind r b c => (binaryArithOp kind · b c) <$> ref r
  | arrayGet r b c => (arrayGet · b c) <$> ref r
  | arraySet r b c d => (arraySet · b c d) <$> ref r
  | slicePush dir r b c => (slicePush dir · b c) <$> ref r
  | sliceLen r b => (sliceLen · b) <$> ref r
  | load r c => (load · c) <$> ref r
  | mkSeq r elems seqType t => (mkSeq · elems seqType t) <$> ref r
  | mkRepeated r element seqType count t => (mkRepeated · element seqType count t) <$> ref r
  | select r b c d => (select · b c d) <$> ref r
  | cast r c target => (cast · c target) <$> ref r
  | sext r c m n => (sext · c m n) <$> ref r
  | bitRange r c offset width => (bitRange · c offset width) <$> ref r
  | mulConst r b c => (mulConst · b c) <$> ref r
  | nextDCoeff r => nextDCoeff <$> ref r
  | tupleProj r tuple idx => (tupleProj · tuple idx) <$> ref r
  | mkTuple r elems ts => (mkTuple · elems ts) <$> ref r
  | writeWitness r c pinned => (writeWitness · c pinned) <$> opt r
  | call rs function args unconstrained => (call · function args unconstrained) <$> iter rs
  | constrain b c d => pure (constrain b c d)
  | bumpD mat b c => pure (bumpD mat b c)
  | memOp kind v => pure (memOp kind v)
  | store b c => pure (store b c)
  | assert c => pure (assert c)
  | assertCmp kind b c => pure (assertCmp kind b c)
  | assertR1C b c d => pure (assertR1C b c d)
  | rangecheck v maxBits => pure (rangecheck v maxBits)
  | not r v => (not · v) <$> ref r
  | valueOf r v => (valueOf · v) <$> ref r
  | spread r v bits => (spread · v bits) <$> ref r
  | unspread odd even v bits => (unspread · · v bits) <$> ref odd <*> ref even
  | toBits r v endianness count => (toBits · v endianness count) <$> ref r
  | toRadix r v radix endianness count => (toRadix · v radix endianness count) <$> ref r
  | readGlobal r offset t => (readGlobal · offset t) <$> ref r
  | lookup target args flag => pure (lookup target args flag)
  | dlookup target args flag => pure (dlookup target args flag)
  | todo rs ts => (todo · ts) <$> iter rs
  | initGlobal global v => pure (initGlobal global v)
  | dropGlobal global => pure (dropGlobal global)
  | guard condition inner => guard condition <$> inner.resultsMut

/-- `get_operands_mut`. -/
def operandsMut : OpCode → MutRefs ValueId OpCode
  | alloc r t => (alloc · t) <$> ref r
  | memOp kind v => memOp kind <$> ref v
  | freshWitness r t => (freshWitness · t) <$> ref r
  | nextDCoeff r => nextDCoeff <$> ref r
  | cmp kind a b c => cmp kind <$> ref a <*> ref b <*> ref c
  | binaryArithOp kind a b c => binaryArithOp kind <$> ref a <*> ref b <*> ref c
  | arrayGet a b c => arrayGet <$> ref a <*> ref b <*> ref c
  | mulConst a b c => mulConst <$> ref a <*> ref b <*> ref c
  | cast a b target => (cast · · target) <$> ref a <*> ref b
  | sext a b m n => (sext · · m n) <$> ref a <*> ref b
  | bitRange a b offset width => (bitRange · · offset width) <$> ref a <*> ref b
  | arraySet a b c d => arraySet <$> ref a <*> ref b <*> ref c <*> ref d
  | slicePush dir a b c => slicePush dir <$> ref a <*> ref b <*> iter c
  | sliceLen a b => sliceLen <$> ref a <*> ref b
  | assertR1C a b c => assertR1C <$> ref a <*> ref b <*> ref c
  | constrain a b c => constrain <$> ref a <*> ref b <*> ref c
  | store a b => store <$> ref a <*> ref b
  | load a b => load <$> ref a <*> ref b
  | assertCmp kind a b => assertCmp kind <$> ref a <*> ref b
  | bumpD mat a b => bumpD mat <$> ref a <*> ref b
  | assert a => assert <$> ref a
  | writeWitness a b pinned => (writeWitness · · pinned) <$> opt a <*> ref b
  | call r function a unconstrained =>
      (call · · · unconstrained) <$> iter r <*> function.inputsMut <*> iter a
  | lookup target args flag => lookup <$> target.inputsMut <*> iter args <*> ref flag
  | dlookup target args flag => dlookup <$> target.inputsMut <*> iter args <*> ref flag
  | mkSeq r elems seqType t => (mkSeq · · seqType t) <$> ref r <*> iter elems
  | mkRepeated r element seqType count t =>
      (mkRepeated · · seqType count t) <$> ref r <*> ref element
  | select a b c d => select <$> ref a <*> ref b <*> ref c <*> ref d
  | not r v => not <$> ref r <*> ref v
  | valueOf r v => valueOf <$> ref r <*> ref v
  | spread r v bits => (spread · · bits) <$> ref r <*> ref v
  | unspread a b v bits => (unspread · · · bits) <$> ref a <*> ref b <*> ref v
  | toBits r v endianness count => (toBits · · endianness count) <$> ref r <*> ref v
  | toRadix r v radix endianness count =>
      (toRadix · · · endianness count) <$> ref r <*> ref v <*> radix.inputsMut
  | rangecheck v maxBits => (rangecheck · maxBits) <$> ref v
  | readGlobal r offset t => (readGlobal · offset t) <$> ref r
  | tupleProj r tuple idx => (tupleProj · · idx) <$> ref r <*> ref tuple
  | mkTuple r elems ts => (mkTuple · · ts) <$> ref r <*> iter elems
  | todo rs ts => (todo · ts) <$> iter rs
  | initGlobal global v => initGlobal global <$> ref v
  | dropGlobal global => pure (dropGlobal global)
  | guard condition inner => guard <$> ref condition <*> inner.operandsMut

instance : Instruction OpCode :=
  { inputs := inputs
    results := results
    inputsMut := inputsMut
    resultsMut := resultsMut
    operandsMut := operandsMut }

/-! ## They agree -/

theorem visit_inputs : Visit OpCode.inputsMut OpCode.inputs where
  read op := by
    induction op with
    | guard condition inner ih => exact congrArg (condition :: ·) ih
    | call | toRadix | lookup | dlookup => simp [inputsMut, inputs]
    | _ => rfl
  get_write op := by
    induction op with
    | guard condition inner ih =>
      rw [inputs, List.length_cons, forall_length_succ]
      intro w ws hlen
      exact congrArg (w :: ·) (ih ws hlen)
    | call rs function args unconstrained =>
      cases function <;>
        simp [inputsMut, inputs, CallTarget.inputsMut, CallTarget.inputs, forall_length_succ]
    | toRadix r v radix endianness count =>
      cases radix <;>
        simp [inputsMut, inputs, Radix.inputsMut, Radix.inputs, forall_length_succ]
    | lookup target args flag | dlookup target args flag =>
      rw [inputs, List.length_append, List.length_singleton, forall_length_snoc]
      intro ws w hlen
      cases target with
      | rangecheck bits | spread bits =>
        have hargs : ws.length = args.length := hlen
        simp [inputsMut, inputs, LookupTarget.inputsMut, LookupTarget.inputs, ← hargs]
      | dynRangecheck v | array v =>
        obtain ⟨v', ws, rfl⟩ := List.exists_cons_of_length_eq_add_one hlen
        have hargs : ws.length = args.length := by
          simpa [LookupTarget.inputs] using hlen
        simp [inputsMut, inputs, LookupTarget.inputsMut, LookupTarget.inputs, ← hargs]
    | slicePush => exact forall_length_succ.mpr fun _ _ _ => rfl
    | mkSeq | mkTuple => exact fun ws _ => rfl
    | _ =>
      -- as many places as the instruction has inputs
      repeat refine forall_length_succ.mpr fun _ => ?_
      exact forall_length_zero.mpr rfl
  write_get op := by
    induction op with
    | guard condition inner ih => exact congrArg (guard condition) ih
    | call rs function args unconstrained => cases function <;> rfl
    | toRadix r v radix endianness count => cases radix <;> rfl
    | lookup target args flag | dlookup target args flag =>
      cases target <;> simp [inputsMut, inputs, LookupTarget.inputsMut, LookupTarget.inputs]
    | _ => rfl

theorem results_inputsMut (op : OpCode) (ws : List ValueId) :
    (op.inputsMut.write ws).results = op.results := by
  induction op generalizing ws with
  | guard condition inner ih => exact ih _
  | _ => rfl

theorem visit_results : Visit OpCode.resultsMut OpCode.results where
  read op := by
    induction op with
    | guard condition inner ih => exact ih
    | writeWitness r v pinned => cases r <;> rfl
    | _ => rfl
  get_write op := by
    induction op with
    | guard condition inner ih => exact ih
    | writeWitness r v pinned =>
      cases r <;> simp [resultsMut, results, opt, forall_length_succ]
    | call | todo => exact fun ws _ => rfl
    | _ =>
      repeat refine forall_length_succ.mpr fun _ => ?_
      exact forall_length_zero.mpr rfl
  write_get op := by
    induction op with
    | guard condition inner ih => exact congrArg (guard condition) ih
    | writeWitness r v pinned => cases r <;> rfl
    | _ => rfl

theorem inputs_resultsMut (op : OpCode) (ws : List ValueId) :
    (op.resultsMut.write ws).inputs = op.inputs := by
  induction op with
  | guard condition inner ih => exact congrArg (condition :: ·) ih
  | _ => rfl

theorem splits_guard {condition : ValueId} {inner : OpCode} {kinds : List Bool}
    (h : Instruction.Splits inner kinds) :
    Instruction.Splits (guard condition inner) (true :: kinds) where
  length := congrArg (· + 1) h.length
  inputs := congrArg (condition :: ·) h.inputs
  results := h.results
  write := by
    rw [List.length_cons, forall_length_succ]
    intro w ws hlen
    exact congrArg (guard w) (h.write ws hlen)

theorem splits_of_append {op : OpCode}
    (hread : op.operandsMut.read = op.results ++ op.inputs)
    (hwrite : ∀ rs, rs.length = op.results.length → ∀ ws, ws.length = op.inputs.length →
      op.operandsMut.write (rs ++ ws) = (op.resultsMut.write rs).inputsMut.write ws) :
    ∃ kinds, Instruction.Splits op kinds :=
  Instruction.splits_of_append hread hwrite

/-- The results come first but for a guard, whose condition comes before its instruction's. -/
theorem operands_split (op : OpCode) : ∃ kinds, Instruction.Splits op kinds := by
  induction op with
  | guard condition inner ih =>
    obtain ⟨kinds, h⟩ := ih
    exact ⟨true :: kinds, splits_guard h⟩
  | call rs function args unconstrained =>
    refine splits_of_append (by simp [operandsMut, results, inputs]) ?_
    intro rs' hrs ws _
    rw [results] at hrs
    simp [operandsMut, inputsMut, resultsMut, ← hrs, List.take_length_add_append]
  | writeWitness r v pinned =>
    cases r <;> refine splits_of_append rfl ?_ <;>
      simp [operandsMut, inputsMut, resultsMut, results, inputs, opt, forall_length_succ]
  | toRadix r v radix endianness count =>
    cases radix <;> exact splits_of_append rfl (forall_length_succ.mpr fun _ =>
      forall_length_zero.mpr fun _ _ => rfl)
  | lookup target args flag | dlookup target args flag =>
    exact splits_of_append (by simp [operandsMut, results, inputs])
      (forall_length_zero.mpr fun _ _ => rfl)
  | todo rs ts =>
    refine splits_of_append (List.append_nil rs).symm fun rs' _ => forall_length_zero.mpr ?_
    simp [operandsMut, inputsMut, resultsMut]
  | _ =>
    refine splits_of_append rfl ?_
    repeat refine forall_length_succ.mpr fun _ => ?_
    exact forall_length_zero.mpr fun _ _ => rfl

theorem traversalsAgree : Instruction.TraversalsAgree OpCode where
  inputs := visit_inputs
  inputs_results := results_inputsMut
  results := visit_results
  results_inputs := inputs_resultsMut
  operands := operands_split

/-- The renaming of the passes goes through `get_operands_mut`. -/
theorem modify_operandsMut (f : ValueId → ValueId) (op : OpCode) :
    op.operandsMut.modify f = op.mapOperands f := by
  induction op with
  | guard condition inner ih =>
    rw [operandsMut, modify_seq, ih]
    rfl
  | _ => simp [mapOperands, mapInputs, mapResults, operandsMut]

end OpCode

end Hlssa

end Mavros
