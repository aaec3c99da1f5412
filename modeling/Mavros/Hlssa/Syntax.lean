/-
# `Mavros.Hlssa.Syntax` — the high-level SSA

The intermediate representation the compiler's passes rewrite: functions are
control-flow graphs of blocks, a block has parameters, instructions and a
terminator, and every value is named by a `ValueId` that is assigned in one place.
A hash map of the source is the list of its entries in the order the map is
walked; nothing below fixes that order.

## What is modelled

The types, the opcodes with all their operands, terminators, blocks, functions and programs,
under the names of the source.  `inputs` and `results` are the two traversals that read an
opcode's operands; `mapInputs`, `mapResults` and `mapOperands` are what rewriting all places of a
kind comes to.

## What is proved

The laws of the rewritings: what is read after one, that two of them compose
(`mapInputs_mapInputs`), that a rewriting depends on its values at what is read only
(`mapInputs_congr`), and that it shows there what they are (`mapInputs_inj`).  The first of them
are inductions over the opcode, in which a guard is the one recursive case.

## What it is not

What only printing reads is left out.
-/
import Mavros.Field

namespace Mavros.Hlssa

abbrev ValueId := Nat
abbrev BlockId := Nat
abbrev FunctionId := Nat

/-! ## Types

`WitnessOf` marks a type whose values are only known to the prover.
-/

inductive TypeExpr where
  | field
  | u (size : Nat)
  | i (size : Nat)
  | witnessOf (inner : TypeExpr)
  | array (inner : TypeExpr) (size : Nat)
  | slice (inner : TypeExpr)
  | ref (inner : TypeExpr)
  | tuple (elements : List TypeExpr)
  | function
deriving Repr

namespace TypeExpr

mutual

def decEq : (a b : TypeExpr) → Decidable (a = b)
  | field, field => isTrue rfl
  | u m, u n => decidable_of_iff (m = n) (by simp)
  | i m, i n => decidable_of_iff (m = n) (by simp)
  | witnessOf a, witnessOf b => @decidable_of_iff _ (a = b) (by simp) (decEq a b)
  | array a m, array b n =>
      @decidable_of_iff _ (a = b ∧ m = n) (by simp) (@instDecidableAnd _ _ (decEq a b) _)
  | slice a, slice b => @decidable_of_iff _ (a = b) (by simp) (decEq a b)
  | ref a, ref b => @decidable_of_iff _ (a = b) (by simp) (decEq a b)
  | tuple as, tuple bs => @decidable_of_iff _ (as = bs) (by simp) (decEqs as bs)
  | function, function => isTrue rfl
  | field, u _ | field, i _ | field, witnessOf _ | field, array _ _ | field, slice _
  | field, ref _ | field, tuple _ | field, function
  | u _, field | u _, i _ | u _, witnessOf _ | u _, array _ _ | u _, slice _
  | u _, ref _ | u _, tuple _ | u _, function
  | i _, field | i _, u _ | i _, witnessOf _ | i _, array _ _ | i _, slice _
  | i _, ref _ | i _, tuple _ | i _, function
  | witnessOf _, field | witnessOf _, u _ | witnessOf _, i _ | witnessOf _, array _ _
  | witnessOf _, slice _ | witnessOf _, ref _ | witnessOf _, tuple _ | witnessOf _, function
  | array _ _, field | array _ _, u _ | array _ _, i _ | array _ _, witnessOf _
  | array _ _, slice _ | array _ _, ref _ | array _ _, tuple _ | array _ _, function
  | slice _, field | slice _, u _ | slice _, i _ | slice _, witnessOf _ | slice _, array _ _
  | slice _, ref _ | slice _, tuple _ | slice _, function
  | ref _, field | ref _, u _ | ref _, i _ | ref _, witnessOf _ | ref _, array _ _
  | ref _, slice _ | ref _, tuple _ | ref _, function
  | tuple _, field | tuple _, u _ | tuple _, i _ | tuple _, witnessOf _ | tuple _, array _ _
  | tuple _, slice _ | tuple _, ref _ | tuple _, function
  | function, field | function, u _ | function, i _ | function, witnessOf _
  | function, array _ _ | function, slice _ | function, ref _ | function, tuple _ =>
      isFalse (by simp)

def decEqs : (as bs : List TypeExpr) → Decidable (as = bs)
  | [], [] => isTrue rfl
  | a :: as, b :: bs =>
      @decidable_of_iff _ (a = b ∧ as = bs) (by simp)
        (@instDecidableAnd _ _ (decEq a b) (decEqs as bs))
  | [], _ :: _ | _ :: _, [] => isFalse (by simp)

end

instance : DecidableEq TypeExpr := decEq

def isWitnessOf : TypeExpr → Bool
  | witnessOf _ => true
  | _ => false

/-- Strip one level of `WitnessOf`. -/
def stripWitness : TypeExpr → TypeExpr
  | witnessOf inner => inner
  | t => t

end TypeExpr

/-! ## Instructions

The opcode enumeration is one inductive type.  A guard contains an opcode, so the type is
recursive.
-/

inductive CallTarget where
  | static (f : FunctionId)
  | dynamic (fnPtr : ValueId)
deriving DecidableEq, Repr

inductive BinaryArithOpKind where
  | add | mul | div | sub | and | or | xor | shl | shr | mod
deriving DecidableEq, Repr

inductive CmpKind where
  | lt | eq
deriving DecidableEq, Repr

inductive SequenceTargetType where
  | array (len : Nat)
  | slice
  | tuple
deriving DecidableEq, Repr

inductive CastTarget where
  | field
  | u (size : Nat)
  | i (size : Nat)
  | witnessOf
  | nop
  | arrayToSlice
deriving DecidableEq, Repr

inductive Endianness where
  | big | little
deriving DecidableEq, Repr

inductive SliceOpDir where
  | front | back
deriving DecidableEq, Repr

/-- The values of the constants side table. -/
inductive Constant where
  | u (size : Nat) (value : Nat)
  | i (size : Nat) (value : Nat)
  | field (value : Fr)
  | fnPtr (f : FunctionId)
deriving DecidableEq

inductive RefCountOp where
  | bump (n : Nat)
  | drop
deriving DecidableEq, Repr

inductive DMatrix where
  | a | b | c
deriving DecidableEq, Repr

inductive LookupTarget where
  | rangecheck (bits : Nat)
  | dynRangecheck (bound : ValueId)
  | array (arr : ValueId)
  | spread (bits : Nat)
deriving DecidableEq, Repr

inductive Radix where
  | bytes
  | dyn (radix : ValueId)
deriving DecidableEq, Repr

inductive OpCode where
  | cmp (kind : CmpKind) (result lhs rhs : ValueId)
  | binaryArithOp (kind : BinaryArithOpKind) (result lhs rhs : ValueId)
  | cast (result value : ValueId) (target : CastTarget)
  | sext (result value : ValueId) (fromBits toBits : Nat)
  | bitRange (result value : ValueId) (offset width : Nat)
  | not (result value : ValueId)
  | mkSeq (result : ValueId) (elems : List ValueId) (seqType : SequenceTargetType)
      (elemType : TypeExpr)
  | mkRepeated (result element : ValueId) (seqType : SequenceTargetType) (count : Nat)
      (elemType : TypeExpr)
  | alloc (result : ValueId) (elemType : TypeExpr)
  | store (ptr value : ValueId)
  | load (result ptr : ValueId)
  | assert (value : ValueId)
  | assertCmp (kind : CmpKind) (lhs rhs : ValueId)
  | assertR1C (a b c : ValueId)
  | call (results : List ValueId) (function : CallTarget) (args : List ValueId)
      (unconstrained : Bool)
  | arrayGet (result array index : ValueId)
  | arraySet (result array index value : ValueId)
  | slicePush (dir : SliceOpDir) (result slice : ValueId) (values : List ValueId)
  | sliceLen (result slice : ValueId)
  | select (result cond ifT ifF : ValueId)
  | toBits (result value : ValueId) (endianness : Endianness) (count : Nat)
  | toRadix (result value : ValueId) (radix : Radix) (endianness : Endianness) (count : Nat)
  | memOp (kind : RefCountOp) (value : ValueId)
  | valueOf (result value : ValueId)
  | writeWitness (result : Option ValueId) (value : ValueId) (pinned : Bool)
  | freshWitness (result : ValueId) (resultType : TypeExpr)
  | nextDCoeff (result : ValueId)
  | bumpD (mat : DMatrix) (var sensitivity : ValueId)
  | constrain (a b c : ValueId)
  | lookup (target : LookupTarget) (args : List ValueId) (flag : ValueId)
  | dlookup (target : LookupTarget) (args : List ValueId) (flag : ValueId)
  | mulConst (result constVal var : ValueId)
  | rangecheck (value : ValueId) (maxBits : Nat)
  | readGlobal (result : ValueId) (offset : Nat) (resultType : TypeExpr)
  | tupleProj (result tuple : ValueId) (idx : Nat)
  | mkTuple (result : ValueId) (elems : List ValueId) (elementTypes : List TypeExpr)
  | todo (results : List ValueId) (resultTypes : List TypeExpr)
  | initGlobal (global : Nat) (value : ValueId)
  | dropGlobal (global : Nat)
  | spread (result value : ValueId) (bits : Nat)
  | unspread (resultOdd resultEven value : ValueId) (bits : Nat)
  | guard (condition : ValueId) (inner : OpCode)
deriving DecidableEq

/-! ## Operands

In the order the source enumerates them, which `Mavros.Hlssa.Operands` compares with the
traversals that lend.
-/

def LookupTarget.inputs : LookupTarget → List ValueId
  | rangecheck _ | spread _ => []
  | dynRangecheck v | array v => [v]

def LookupTarget.map (f : ValueId → ValueId) : LookupTarget → LookupTarget
  | rangecheck bits => rangecheck bits
  | spread bits => spread bits
  | dynRangecheck v => dynRangecheck (f v)
  | array v => array (f v)

def Radix.inputs : Radix → List ValueId
  | bytes => []
  | dyn v => [v]

def Radix.map (f : ValueId → ValueId) : Radix → Radix
  | bytes => bytes
  | dyn v => dyn (f v)

def CallTarget.inputs : CallTarget → List ValueId
  | static _ => []
  | dynamic v => [v]

def CallTarget.map (f : ValueId → ValueId) : CallTarget → CallTarget
  | static fn => static fn
  | dynamic v => dynamic (f v)

namespace OpCode

/-- `get_inputs`. -/
def inputs : OpCode → List ValueId
  | alloc _ _ | freshWitness _ _ | nextDCoeff _ | readGlobal _ _ _ | todo _ _
  | dropGlobal _ => []
  | cmp _ _ b c | binaryArithOp _ _ b c | arrayGet _ b c | assertCmp _ b c | store b c
  | bumpD _ b c | mulConst _ b c => [b, c]
  | spread _ v _ | unspread _ _ v _ | sliceLen _ v | assert v | load _ v
  | writeWitness _ v _ | cast _ v _ | sext _ v _ _ | bitRange _ v _ _ | not _ v
  | valueOf _ v | toBits _ v _ _ | memOp _ v | rangecheck v _ | tupleProj _ v _
  | initGlobal _ v | mkRepeated _ v _ _ _ => [v]
  | arraySet _ b c d | select _ b c d | assertR1C b c d | constrain b c d => [b, c, d]
  | slicePush _ _ b vs => b :: vs
  | call _ target args _ => target.inputs ++ args
  | mkSeq _ vs _ _ | mkTuple _ vs _ => vs
  | toRadix _ v radix _ _ => v :: radix.inputs
  | lookup target args flag | dlookup target args flag => target.inputs ++ args ++ [flag]
  | guard condition inner => condition :: inner.inputs

/-- `get_results`. -/
def results : OpCode → List ValueId
  | alloc r _ | freshWitness r _ | cmp _ r _ _ | binaryArithOp _ r _ _ | arrayGet r _ _
  | arraySet r _ _ _ | slicePush _ r _ _ | sliceLen r _ | load r _ | mkSeq r _ _ _
  | mkRepeated r _ _ _ _ | select r _ _ _ | cast r _ _ | sext r _ _ _ | bitRange r _ _ _
  | mulConst r _ _ | nextDCoeff r | tupleProj r _ _ | mkTuple r _ _ | not r _ | valueOf r _
  | spread r _ _ | toBits r _ _ _ | toRadix r _ _ _ _ | readGlobal r _ _ => [r]
  | unspread odd even _ _ => [odd, even]
  | writeWitness r _ _ => r.toList
  | call rs _ _ _ | todo rs _ => rs
  | constrain _ _ _ | bumpD _ _ _ | memOp _ _ | store _ _ | assert _ | assertCmp _ _ _
  | assertR1C _ _ _ | rangecheck _ _ | lookup _ _ _ | dlookup _ _ _ | initGlobal _ _
  | dropGlobal _ => []
  | guard _ inner => inner.results

/-- Rewrites the values that `get_inputs_mut` visits. -/
def mapInputs (f : ValueId → ValueId) : OpCode → OpCode
  | cmp kind r b c => cmp kind r (f b) (f c)
  | binaryArithOp kind r b c => binaryArithOp kind r (f b) (f c)
  | cast r v target => cast r (f v) target
  | sext r v m n => sext r (f v) m n
  | bitRange r v offset width => bitRange r (f v) offset width
  | not r v => not r (f v)
  | mkSeq r vs seq t => mkSeq r (vs.map f) seq t
  | mkRepeated r v seq n t => mkRepeated r (f v) seq n t
  | alloc r t => alloc r t
  | store b c => store (f b) (f c)
  | load r v => load r (f v)
  | assert v => assert (f v)
  | assertCmp kind b c => assertCmp kind (f b) (f c)
  | assertR1C b c d => assertR1C (f b) (f c) (f d)
  | call rs target args uncon => call rs (target.map f) (args.map f) uncon
  | arrayGet r b c => arrayGet r (f b) (f c)
  | arraySet r b c d => arraySet r (f b) (f c) (f d)
  | slicePush dir r b vs => slicePush dir r (f b) (vs.map f)
  | sliceLen r v => sliceLen r (f v)
  | select r b c d => select r (f b) (f c) (f d)
  | toBits r v e n => toBits r (f v) e n
  | toRadix r v radix e n => toRadix r (f v) (radix.map f) e n
  | memOp kind v => memOp kind (f v)
  | valueOf r v => valueOf r (f v)
  | writeWitness r v pinned => writeWitness r (f v) pinned
  | freshWitness r t => freshWitness r t
  | nextDCoeff r => nextDCoeff r
  | bumpD m b c => bumpD m (f b) (f c)
  | constrain b c d => constrain (f b) (f c) (f d)
  | lookup target args flag => lookup (target.map f) (args.map f) (f flag)
  | dlookup target args flag => dlookup (target.map f) (args.map f) (f flag)
  | mulConst r b c => mulConst r (f b) (f c)
  | rangecheck v n => rangecheck (f v) n
  | readGlobal r n t => readGlobal r n t
  | tupleProj r v n => tupleProj r (f v) n
  | mkTuple r vs ts => mkTuple r (vs.map f) ts
  | todo rs ts => todo rs ts
  | initGlobal g v => initGlobal g (f v)
  | dropGlobal g => dropGlobal g
  | spread r v n => spread r (f v) n
  | unspread odd even v n => unspread odd even (f v) n
  | guard condition inner => guard (f condition) (inner.mapInputs f)

/-- Rewrites the values that `get_results_mut` visits. -/
def mapResults (f : ValueId → ValueId) : OpCode → OpCode
  | cmp kind r b c => cmp kind (f r) b c
  | binaryArithOp kind r b c => binaryArithOp kind (f r) b c
  | cast r v target => cast (f r) v target
  | sext r v m n => sext (f r) v m n
  | bitRange r v offset width => bitRange (f r) v offset width
  | not r v => not (f r) v
  | mkSeq r vs seq t => mkSeq (f r) vs seq t
  | mkRepeated r v seq n t => mkRepeated (f r) v seq n t
  | alloc r t => alloc (f r) t
  | store b c => store b c
  | load r v => load (f r) v
  | assert v => assert v
  | assertCmp kind b c => assertCmp kind b c
  | assertR1C b c d => assertR1C b c d
  | call rs target args uncon => call (rs.map f) target args uncon
  | arrayGet r b c => arrayGet (f r) b c
  | arraySet r b c d => arraySet (f r) b c d
  | slicePush dir r b vs => slicePush dir (f r) b vs
  | sliceLen r v => sliceLen (f r) v
  | select r b c d => select (f r) b c d
  | toBits r v e n => toBits (f r) v e n
  | toRadix r v radix e n => toRadix (f r) v radix e n
  | memOp kind v => memOp kind v
  | valueOf r v => valueOf (f r) v
  | writeWitness r v pinned => writeWitness (r.map f) v pinned
  | freshWitness r t => freshWitness (f r) t
  | nextDCoeff r => nextDCoeff (f r)
  | bumpD m b c => bumpD m b c
  | constrain b c d => constrain b c d
  | lookup target args flag => lookup target args flag
  | dlookup target args flag => dlookup target args flag
  | mulConst r b c => mulConst (f r) b c
  | rangecheck v n => rangecheck v n
  | readGlobal r n t => readGlobal (f r) n t
  | tupleProj r v n => tupleProj (f r) v n
  | mkTuple r vs ts => mkTuple (f r) vs ts
  | todo rs ts => todo (rs.map f) ts
  | initGlobal g v => initGlobal g v
  | dropGlobal g => dropGlobal g
  | spread r v n => spread (f r) v n
  | unspread odd even v n => unspread (f odd) (f even) v n
  | guard condition inner => guard condition (inner.mapResults f)

/-- Rewrites the values that `get_operands_mut` visits, inputs and results alike. -/
def mapOperands (f : ValueId → ValueId) (op : OpCode) : OpCode :=
  (op.mapInputs f).mapResults f

@[simp]
theorem inputs_mapInputs (f : ValueId → ValueId) (op : OpCode) :
    (op.mapInputs f).inputs = op.inputs.map f := by
  induction op with
  | guard condition inner ih => exact congrArg (f condition :: ·) ih
  | call rs target args uncon => cases target <;> rfl
  | lookup target args flag | dlookup target args flag =>
    cases target <;> simp [mapInputs, inputs, LookupTarget.map, LookupTarget.inputs]
  | toRadix r v radix e n => cases radix <;> rfl
  | _ => rfl

@[simp]
theorem results_mapInputs (f : ValueId → ValueId) (op : OpCode) :
    (op.mapInputs f).results = op.results := by
  induction op with
  | guard condition inner ih => exact ih
  | _ => rfl

@[simp]
theorem results_mapResults (f : ValueId → ValueId) (op : OpCode) :
    (op.mapResults f).results = op.results.map f := by
  induction op with
  | guard condition inner ih => exact ih
  | writeWitness r v pinned => cases r <;> rfl
  | _ => rfl

@[simp]
theorem inputs_mapResults (f : ValueId → ValueId) (op : OpCode) :
    (op.mapResults f).inputs = op.inputs := by
  induction op with
  | guard condition inner ih => exact congrArg (condition :: ·) ih
  | _ => rfl

@[simp]
theorem inputs_mapOperands (f : ValueId → ValueId) (op : OpCode) :
    (op.mapOperands f).inputs = op.inputs.map f := by
  simp [mapOperands]

@[simp]
theorem results_mapOperands (f : ValueId → ValueId) (op : OpCode) :
    (op.mapOperands f).results = op.results.map f := by
  simp [mapOperands]

/-- A rewriting depends on what it does to the values that are read. -/
theorem mapInputs_congr {f g : ValueId → ValueId} {op : OpCode}
    (h : ∀ v ∈ op.inputs, f v = g v) : op.mapInputs f = op.mapInputs g := by
  induction op with
  | guard condition inner ih =>
    simp only [inputs, List.forall_mem_cons] at h
    simp [mapInputs, h.1, ih h.2]
  | call rs target args uncon =>
    cases target <;> simp_all [mapInputs, inputs, CallTarget.map, CallTarget.inputs]
  | lookup target args flag =>
    cases target <;> simp_all [mapInputs, inputs, LookupTarget.map, LookupTarget.inputs, or_imp]
  | dlookup target args flag =>
    cases target <;> simp_all [mapInputs, inputs, LookupTarget.map, LookupTarget.inputs, or_imp]
  | toRadix r v radix e n =>
    cases radix <;> simp_all [mapInputs, inputs, Radix.map, Radix.inputs]
  | _ => simp_all [mapInputs, inputs]

theorem mapInputs_mapInputs (f g : ValueId → ValueId) (op : OpCode) :
    (op.mapInputs f).mapInputs g = op.mapInputs (g ∘ f) := by
  induction op with
  | guard condition inner ih => exact congrArg (guard (g (f condition))) ih
  | call rs target args uncon => cases target <;> simp [mapInputs, CallTarget.map]
  | lookup target args flag | dlookup target args flag =>
    cases target <;> simp [mapInputs, LookupTarget.map]
  | toRadix r v radix e n => cases radix <;> rfl
  | mkSeq | mkTuple | slicePush => simp [mapInputs]
  | _ => rfl

theorem mapInputs_inj {f g : ValueId → ValueId} {op : OpCode}
    (h : op.mapInputs f = op.mapInputs g) : ∀ v ∈ op.inputs, f v = g v := by
  have hmap : op.inputs.map f = op.inputs.map g := by
    rw [← inputs_mapInputs, ← inputs_mapInputs, h]
  exact List.map_inj_left.mp hmap

theorem mapResults_eq_self {f : ValueId → ValueId} {op : OpCode}
    (h : ∀ v ∈ op.results, f v = v) : op.mapResults f = op := by
  induction op with
  | guard condition inner ih => simp [mapResults, ih h]
  | writeWitness r v pinned => cases r <;> simp_all [mapResults, results]
  | call rs target args uncon => simpa [mapResults, results] using List.map_congr_left h
  | todo rs ts => simpa [mapResults, results] using List.map_congr_left h
  | _ => simp_all [mapResults, results]

end OpCode

/-! ## Control flow

A block without a terminator is under construction, and running into one is a panic.
-/

inductive Terminator where
  | jmp (target : BlockId) (args : List ValueId)
  | jmpIf (cond : ValueId) (ifT ifF : BlockId)
  | return (vals : List ValueId)
deriving DecidableEq, Repr

/-- The values a terminator reads. -/
def Terminator.inputs : Terminator → List ValueId
  | jmp _ args => args
  | jmpIf cond _ _ => [cond]
  | .return vals => vals

def Terminator.map (f : ValueId → ValueId) : Terminator → Terminator
  | jmp target args => jmp target (args.map f)
  | jmpIf cond ifT ifF => jmpIf (f cond) ifT ifF
  | .return vals => .return (vals.map f)

@[simp]
theorem Terminator.inputs_map (f : ValueId → ValueId) (t : Terminator) :
    (t.map f).inputs = t.inputs.map f := by
  cases t <;> simp [map, inputs]

theorem Terminator.map_map (f g : ValueId → ValueId) (t : Terminator) :
    (t.map f).map g = t.map (g ∘ f) := by
  cases t <;> simp [map]

theorem Terminator.map_congr {f g : ValueId → ValueId} {t : Terminator}
    (h : ∀ v ∈ t.inputs, f v = g v) : t.map f = t.map g := by
  cases t <;> simp_all [map, inputs]

theorem Terminator.map_inj {f g : ValueId → ValueId} {t : Terminator}
    (h : t.map f = t.map g) : ∀ v ∈ t.inputs, f v = g v := by
  have hmap : t.inputs.map f = t.inputs.map g := by
    rw [← inputs_map, ← inputs_map, h]
  exact List.map_inj_left.mp hmap

structure Block where
  parameters : List (ValueId × TypeExpr) := []
  instructions : List OpCode := []
  terminator : Option Terminator := none
deriving DecidableEq

structure Function where
  entryBlock : BlockId := 0
  blocks : List (BlockId × Block) := [(0, {})]
  returns : List TypeExpr := []
  nextBlock : Nat := 1
deriving DecidableEq

/-- `get_block`. -/
def Function.block (f : Function) (b : BlockId) : Option Block := f.blocks.lookup b

structure SSA where
  functions : List (FunctionId × Function)
  mainId : FunctionId
  nextFunctionId : Nat
  nextValueId : Nat
  constants : List (ValueId × Constant) := []
  globalsInitFn : Option FunctionId := none
  globalsDeinitFn : Option FunctionId := none
deriving DecidableEq

/-- `get_function`. -/
def SSA.function (ssa : SSA) (f : FunctionId) : Option Function := ssa.functions.lookup f

end Mavros.Hlssa
