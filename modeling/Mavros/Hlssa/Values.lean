/-
# `Mavros.Hlssa.Values` — typed values and what instructions compute

A value carries its type: an integer is a bit pattern of its width, and any scalar may
wear the witness wrapper, so an ill-typed value cannot be built.  The scalar
instructions are given on these values.  What depends on the execution (whether an
overflow wraps or fails, what a cast to another type does, aggregates, memory, calls)
is a parameter, the `Completion`.

## What is modelled

`valueSem` is the meaning of a program under an execution: the scalar instructions on raw values,
each with the wrapper of its result, and everything else as the completion has it.  Integer
arithmetic is exact wherever the exact result fits its width (`fit`); only what does not fit is
free.

## Why a completion

The passes that are verified over this meaning run before it is decided how an overflow or a
cast is executed: lowerings that come later and the machines below settle it, each in its own
way.  A theorem about every completion is one about each of them.
-/
import Mavros.Hlssa.Runs
import Mavros.Hlssa.Types

namespace Mavros.Hlssa

/-- Neither a scalar type nor a witness wrapper. -/
def TypeExpr.Opaque : TypeExpr → Prop
  | field | u _ | i _ | witnessOf _ => False
  | _ => True

/-- A value without its wrapper. -/
inductive Raw (A : Type) where
  | int (signed : Bool) (bits : Nat) (x : BitVec bits)
  | field (x : Fr)
  | other (t : TypeExpr) (h : t.Opaque) (a : A)

structure Value (A : Type) where
  witness : Bool
  raw : Raw A

section Values

variable {A W : Type}

def Raw.type : Raw A → TypeExpr
  | int false bits _ => .u bits
  | int true bits _ => .i bits
  | field _ => .field
  | other t _ _ => t

def Value.type (v : Value A) : TypeExpr := if v.witness then .witnessOf v.raw.type else v.raw.type

/-- The number a bit pattern stands for. -/
def intVal (signed : Bool) {bits : Nat} (x : BitVec bits) : Int :=
  if signed then x.toInt else x.toNat

/-- The bit pattern of a number that has one. -/
def ofExact (signed : Bool) (bits : Nat) (e : Int) : Option (BitVec bits) :=
  if intVal signed (BitVec.ofInt bits e) = e then some (BitVec.ofInt bits e) else none

/-- What executions are free to do. -/
structure Completion (A W : Type) where
  fnPtr : FunctionId → A
  overflow : BinaryArithOpKind → Bool → (bits : Nat) → Int → Option (BitVec bits)
  shift : BinaryArithOpKind → Bool → (bits : Nat) → BitVec bits → Nat → Option (BitVec bits)
  cast : CastTarget → Value A → Option (Value A)
  pinnedWrite : Value A → W → W
  op : OpCode → List (Value A) → W → W × Option (List (Value A))

variable (C : Completion A W)

/-- An exact result, or what the execution does when it does not fit. -/
def fit (kind : BinaryArithOpKind) (signed : Bool) (bits : Nat) (e : Int) :
    Option (BitVec bits) :=
  match ofExact signed bits e with
  | some r => some r
  | none => C.overflow kind signed bits e

/-- `BinaryArithOp` on integers; `bits` is the width of the result. -/
def intArith (kind : BinaryArithOpKind) (signed : Bool) {m n : Nat} (bits : Nat) (x : BitVec m)
    (y : BitVec n) : Option (BitVec bits) :=
  match kind with
  | .add => fit C kind signed bits (intVal signed x + intVal signed y)
  | .sub => fit C kind signed bits (intVal signed x - intVal signed y)
  | .mul => fit C kind signed bits (intVal signed x * intVal signed y)
  | .div =>
    if intVal signed y = 0 then none
    else fit C kind signed bits ((intVal signed x).tdiv (intVal signed y))
  | .mod =>
    if intVal signed y = 0 then none
    else fit C kind signed bits ((intVal signed x).tmod (intVal signed y))
  | .and => some (x.setWidth bits &&& y.setWidth bits)
  | .or => some (x.setWidth bits ||| y.setWidth bits)
  | .xor => some (x.setWidth bits ^^^ y.setWidth bits)
  | .shl =>
    if y.toNat < bits then some (x.setWidth bits <<< y.toNat)
    else C.shift kind signed bits (x.setWidth bits) y.toNat
  | .shr =>
    if y.toNat < bits then some (x.setWidth bits >>> y.toNat)
    else C.shift kind signed bits (x.setWidth bits) y.toNat

/-- `BinaryArithOp` on field elements. -/
def fieldArith (kind : BinaryArithOpKind) (x y : Fr) : Option Fr :=
  match kind with
  | .add => some (x + y)
  | .sub => some (x - y)
  | .mul => some (x * y)
  | .div => if y = 0 then none else some (x / y)
  | _ => none

/-- An integer next to a field element counts as one. -/
def arithRaw (kind : BinaryArithOpKind) : Raw A → Raw A → Option (Raw A)
  | .int s m x, .int s' n y =>
    if s = s' then (intArith C kind s (max m n) x y).map (.int s (max m n)) else none
  | .field x, .field y => (fieldArith kind x y).map .field
  | .field x, .int s _ y => (fieldArith kind x (intVal s y : Int)).map .field
  | .int s _ x, .field y => (fieldArith kind (intVal s x : Int) y).map .field
  | _, _ => none

/-- `MulConst`: the result has the type of the variable. -/
def mulConstRaw : Raw A → Raw A → Option (Raw A)
  | .int s _ c, .int s' n x =>
    if s = s' then (fit C .mul s' n (intVal s c * intVal s' x)).map (.int s' n) else none
  | .field c, .field x => some (.field (c * x))
  | .int s _ c, .field x => some (.field ((intVal s c : Int) * x))
  | _, _ => none

def boolRaw (b : Bool) : Raw A := .int false 1 (BitVec.ofBool b)

def cmpRaw (kind : CmpKind) : Raw A → Raw A → Option (Raw A)
  | .int s _ x, .int s' _ y =>
    if s = s' then
      some (boolRaw (match kind with
        | .eq => intVal s x = intVal s' y
        | .lt => intVal s x < intVal s' y))
    else none
  | .field x, .field y =>
    some (boolRaw (match kind with
      | .eq => x = y
      | .lt => x.val < y.val))
  | _, _ => none

/-- `Not`: all bits of the type; a field element has 254. -/
def notRaw : Raw A → Option (Raw A)
  | .int s n x => some (.int s n (~~~x))
  | .field x =>
    if 2 ^ 254 - 1 - x.val < modulus then some (.field ((2 ^ 254 - 1 - x.val : Nat) : Fr))
    else none
  | .other _ _ _ => none

/-- `BitRange`: the bits from `offset` on, in the type of the operand. -/
def bitRangeRaw (offset width : Nat) : Raw A → Option (Raw A)
  | .int s n x => some (.int s n (BitVec.ofNat n (x.toNat / 2 ^ offset % 2 ^ width)))
  | .field x => some (.field ((x.val / 2 ^ offset % 2 ^ width : Nat) : Fr))
  | .other _ _ _ => none

/-- `Select`: arms of two widths are brought to the wider. -/
def selectRaw (cond : Bool) : Raw A → Raw A → Option (Raw A)
  | .int s m x, .int s' n y =>
    if s = s' then
      some (.int s (max m n) (if cond then x.setWidth (max m n) else y.setWidth (max m n)))
    else none
  | .field x, .field y => some (.field (if cond then x else y))
  | _, _ => none

/-- The scalar instructions on raw values, each with the wrapper of its result. -/
def castVal (target : CastTarget) (v : Value A) : Option (Value A) :=
  match target, v.raw with
  | .nop, _ => some v
  | .witnessOf, raw => if v.witness then none else some ⟨true, raw⟩
  | .field, .field _ => some v
  | .u n, .int false m _ => if m = n then some v else C.cast target v
  | .i n, .int true m _ => if m = n then some v else C.cast target v
  | _, _ => C.cast target v

def selectVal (cond ifT ifF : Value A) : Option (Value A) := do
  let .int false 1 c := cond.raw | none
  let raw ← selectRaw (c = 1#1) ifT.raw ifF.raw
  return ⟨cond.witness || ifT.witness || ifF.witness, raw⟩

def constVal : Constant → Value A
  | .u size value => ⟨false, .int false size (BitVec.ofNat size value)⟩
  | .i size value => ⟨false, .int true size (BitVec.ofNat size value)⟩
  | .field value => ⟨false, .field value⟩
  | .fnPtr f => ⟨false, .other .function trivial (C.fnPtr f)⟩

/-- The meaning of a program under an execution. -/
def valueSem : Sem (Value A) W where
  const := constVal C
  op shape xs w :=
    match shape, xs with
    | .binaryArithOp kind _ _ _, [a, b] =>
      (w, (arithRaw C kind a.raw b.raw).map fun raw => [⟨a.witness || b.witness, raw⟩])
    | .mulConst _ _ _, [c, v] => (w, (mulConstRaw C c.raw v.raw).map fun raw => [⟨v.witness, raw⟩])
    | .cmp kind _ _ _, [a, b] =>
      (w, (cmpRaw kind a.raw b.raw).map fun raw => [⟨a.witness || b.witness, raw⟩])
    | .cast _ _ target, [v] => (w, (castVal C target v).map fun v => [v])
    | .not _ _, [v] => (w, (notRaw v.raw).map fun raw => [⟨v.witness, raw⟩])
    | .bitRange _ _ offset width, [v] =>
      (w, (bitRangeRaw offset width v.raw).map fun raw => [⟨v.witness, raw⟩])
    | .select _ _ _ _, [cond, ifT, ifF] => (w, (selectVal cond ifT ifF).map fun v => [v])
    | .valueOf _ _, [v] => (w, if v.witness then some [⟨false, v.raw⟩] else none)
    | .writeWitness r _ pinned, [v] =>
      (if pinned then C.pinnedWrite v w else w,
        if v.witness then none else some (r.elim [] fun _ => [⟨true, v.raw⟩]))
    | _, _ => C.op shape xs w

end Values

end Mavros.Hlssa
