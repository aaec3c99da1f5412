/-
# `Mavros.Codegen.Scalar` — instruction selection for pure scalar code

`CodeGen::run_block_body` on the opcodes of pure scalar code.  Every value gets the next
free place of the frame when it is defined, before its operands are looked up; a cast
that changes nothing lets its result share the operand's place.  An assertion, a `panic!`
and an instruction codegen does not know are `none`.

## What is modelled

The layouter, and one definition for each arm of the selection: arithmetic by kind and type,
comparisons, casts, complements, byte decompositions and the two spread instructions.  An arm gives
the layout afterwards and the opcodes it emits.

The parameters of the entry block stand first in the frame, the constants the function reads next.

## What it is not

Nothing is proved here.  What the selected opcodes compute is in `Mavros.Codegen.ScalarAgree`, where
the values share words in `Mavros.Codegen.FrameLayout`.
-/
import Mavros.Hlssa.Types
import Mavros.VM.Scalar

namespace Mavros.Codegen

open Hlssa Bytecode

/-! ## Frame layout -/

structure FrameLayouter where
  nextFree : Nat := 2
  vars : List (ValueId × Nat) := []
deriving DecidableEq

namespace FrameLayouter

/-- `type_size`, in words. -/
def typeSize : TypeExpr → Option Nat
  | .field => some 4
  | .u bits | .i bits => if bits ≤ 64 then some 1 else none
  | .array _ _ | .slice _ | .witnessOf _ | .tuple _ | .ref _ => some 1
  | .function => none

def getValue (l : FrameLayouter) (v : ValueId) : Option Nat := l.vars.lookup v

/-- The next `size` words for `v`. -/
def alloc (l : FrameLayouter) (v : ValueId) (size : Nat) : FrameLayouter × Nat :=
  (⟨l.nextFree + size, (v, l.nextFree) :: l.vars⟩, l.nextFree)

def allocValue (l : FrameLayouter) (v : ValueId) (t : TypeExpr) :
    Option (FrameLayouter × Nat) := do some (l.alloc v (← typeSize t))

def allocU64 (l : FrameLayouter) (v : ValueId) (size : Nat) : Option (FrameLayouter × Nat) :=
  if size ≤ 64 then some (l.alloc v 1) else none

def allocField (l : FrameLayouter) (v : ValueId) : FrameLayouter × Nat := l.alloc v 4

/-- `v` shares the place `p`. -/
def share (l : FrameLayouter) (v : ValueId) (p : Nat) : FrameLayouter :=
  { l with vars := (v, p) :: l.vars }

end FrameLayouter

/-! ## Instructions -/

/-- A layout and the code emitted for one instruction. -/
abbrev Emitted := FrameLayouter × List Bytecode.OpCode

/-- The opcode of an arithmetic instruction on field elements. -/
def fieldOp (res a b : Nat) : BinaryArithOpKind → Option Bytecode.OpCode
  | .add => some (.addField res a b)
  | .sub => some (.subField res a b)
  | .mul => some (.mulField res a b)
  | .div => some (.divField res a b)
  | .and | .or | .xor | .shl | .shr | .mod => none

/-- The opcode of an arithmetic instruction on integers of `bits` bits. -/
def intOp (signed : Bool) (bits res a b : Nat) : BinaryArithOpKind → Option Bytecode.OpCode
  | .add => some (.addInt res a b bits)
  | .sub => some (.subInt res a b bits)
  | .mul => some (.mulInt res a b bits)
  | .div => if signed then none else some (.divU64 res a b)
  | .mod => if signed then none else some (.modU64 res a b)
  | .and => some (.andU64 res a b)
  | .or => some (.orU64 res a b)
  | .xor => some (.xorU64 res a b)
  | .shl => some (.shlU64 res a b bits)
  | .shr => some (.ushrU64 res a b)

/-- The arms for `BinaryArithOp`. -/
def binaryArithOp (types : ValueId → Option TypeExpr) (l : FrameLayouter)
    (kind : BinaryArithOpKind) (r lhs rhs : ValueId) : Option Emitted := do
  match ← types r with
  | .field =>
    let (l, res) := l.allocField r
    let op ← fieldOp res (← l.getValue lhs) (← l.getValue rhs) kind
    some (l, [op])
  | .u bits =>
    let (l, res) ← l.allocU64 r bits
    let op ← intOp false bits res (← l.getValue lhs) (← l.getValue rhs) kind
    some (l, [op])
  | .i bits =>
    let (l, res) ← l.allocU64 r bits
    let op ← intOp true bits res (← l.getValue lhs) (← l.getValue rhs) kind
    some (l, [op])
  | _ => none

/-- The width of an integer type. -/
def intBits : TypeExpr → Option Nat
  | .u bits | .i bits => some bits
  | _ => none

theorem intBits_eq_some {t : TypeExpr} {bits : Nat} (h : intBits t = some bits) :
    t = .u bits ∨ t = .i bits := by
  cases t with
  | u _ => exact .inl (congrArg _ (Option.some.inj h))
  | i _ => exact .inr (congrArg _ (Option.some.inj h))
  | field | witnessOf _ | array _ _ | slice _ | ref _ | tuple _ | function => exact nomatch h

/-- The arms for `Cmp`: the result has an integer type, and a less-than looks at the type of
its left operand. -/
def cmp (types : ValueId → Option TypeExpr) (l : FrameLayouter) (kind : CmpKind)
    (r lhs rhs : ValueId) : Option Emitted := do
  let resultBits ← intBits (← types r)
  let (l, res) ← l.allocU64 r resultBits
  let a ← l.getValue lhs
  let b ← l.getValue rhs
  match kind with
  | .eq => some (l, [.eqU64 res a b])
  | .lt => match ← types lhs with
    | .i bits => some (l, [.ltS64 res a b bits])
    | _ => some (l, [.ltU64 res a b])

/-- The opcode of a cast between two types. -/
def castOp (res a : Nat) : TypeExpr → TypeExpr → Option Bytecode.OpCode
  | .u n, .u _ | .u n, .i _ => do some (.movFrame (← FrameLayouter.typeSize (.u n)) res a)
  | .i n, .u _ | .i n, .i _ => do some (.movFrame (← FrameLayouter.typeSize (.i n)) res a)
  | .field, .u _ | .field, .i _ => some (.castFieldToU64 res a)
  | .u _, .field | .i _, .field => some (.castU64ToField res a)
  | _, _ => none

/-- The arm for `Cast`; a cast to a witness does not belong to pure code. -/
def cast (types : ValueId → Option TypeExpr) (l : FrameLayouter) (r v : ValueId)
    (target : CastTarget) : Option Emitted := do
  let lType ← types v
  let rType ← types r
  if target = .witnessOf then none
  else if target = .nop ∨ target = .arrayToSlice ∨ lType = rType ∨
      (lType.isWitnessOf ∧ rType.isWitnessOf) then
    some (l.share r (← l.getValue v), [])
  else
    let (l, res) ← l.allocValue r rType
    let op ← castOp res (← l.getValue v) lType rType
    some (l, [op])

/-- A place for a result of an integer or field type. -/
def allocScalar (l : FrameLayouter) (v : ValueId) : TypeExpr → Option (FrameLayouter × Nat)
  | .u bits | .i bits => l.allocU64 v bits
  | .field => some (l.allocField v)
  | _ => none

/-- The arm for `Spread`; wider operands are a `todo!`. -/
def spread (types : ValueId → Option TypeExpr) (l : FrameLayouter) (r v : ValueId) :
    Option Emitted := do
  let valueBits ← intBits (← types v)
  if 32 < valueBits then none
  else
    let (l, res) ← allocScalar l r (← types r).stripWitness
    some (l, [.spreadU32 res (← l.getValue v)])

/-- The arm for `Unspread`. -/
def unspread (types : ValueId → Option TypeExpr) (l : FrameLayouter) (odd even v : ValueId) :
    Option Emitted := do
  let (l, resAnd) ← allocScalar l odd (← types odd).stripWitness
  let (l, resXor) ← allocScalar l even (← types even).stripWitness
  some (l, [.unspreadU64 resAnd resXor (← l.getValue v)])

/-- `run_block_body` on one instruction of pure scalar code. -/
def select (types : ValueId → Option TypeExpr) (l : FrameLayouter) :
    Hlssa.OpCode → Option Emitted
  | .binaryArithOp kind r lhs rhs => binaryArithOp types l kind r lhs rhs
  | .cmp kind r lhs rhs => cmp types l kind r lhs rhs
  | .cast r v target => cast types l r v target
  | .not r v => do
    let (l, res) ← l.allocValue r (← types r)
    some (l, [.notU64 res (← l.getValue v)])
  | .toBits r v .little count => do
    let (l, res) ← l.allocValue r (← types r)
    some (l, [.toBitsLe res (← l.getValue v) count])
  | .toRadix r v .bytes .big count => do
    if (← types v).isField ∧ count ≤ 32 then
      let val ← l.getValue v
      let (l, res) ← l.allocValue r (← types r)
      some (l, [.toBytesBe val count res])
    else none
  | .spread r v _ => spread types l r v
  | .unspread odd even v _ => unspread types l odd even v
  | _ => none

/-- The instructions of a block, one after the other. -/
def selectAll (types : ValueId → Option TypeExpr) :
    FrameLayouter → List Hlssa.OpCode → Option Emitted
  | l, [] => some (l, [])
  | l, op :: ops => do
    let (l, code) ← select types l op
    let (l, rest) ← selectAll types l ops
    some (l, code ++ rest)

/-! ## Parameters and constants -/

/-- The places of the entry block's parameters. -/
def allocParameters : FrameLayouter → List (ValueId × TypeExpr) → Option FrameLayouter
  | l, [] => some l
  | l, (v, t) :: params => do allocParameters (← l.allocValue v t).1 params

/-- The code of `materialize_constants` for one constant. -/
def materializeConstant (l : FrameLayouter) (v : ValueId) : Constant → Option Emitted
  | .u size val | .i size val => do
    let (l, res) ← l.allocU64 v size
    some (l, [.movConst res (val % 2 ^ 64)])
  | .field val =>
    let (l, start) := l.allocField v
    some (l, (List.range 4).map fun i => .movConst (start + i) (limb val i))
  | .fnPtr _ => none

/-- `materialize_constants`, the constants sorted already. -/
def materializeConstants : FrameLayouter → List (ValueId × Constant) → Option Emitted
  | l, [] => some (l, [])
  | l, (v, c) :: constants => do
    let (l, code) ← materializeConstant l v c
    let (l, rest) ← materializeConstants l constants
    some (l, code ++ rest)

end Mavros.Codegen
