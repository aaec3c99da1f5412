/-
# `Mavros.R1CGen.Scalar` — the generator's arithmetic on constants

A pure scalar of any type reaches the constraint generator as a field element: an
unsigned integer as itself, a signed one as its two's complement encoding.  These
are the `Value::Const` arms of `symbolic_executor::Value` for `R1CGen`; whatever
panics is `none`.

## What is modelled

One definition for each method, under its name, on the element a constant holds.  Arithmetic at an
integer type decodes, computes in 128 bits, where what does not fit wraps, and encodes again.  A
division by zero is a panic, and so is every division of signed integers.

`execScalar` runs straight-line code of pure scalars, `Scope` being the values bound so far.

## What it is not

Nothing is proved here, and arms that meet a linear combination are not modelled: an instruction on
a witness that is not linear has been lowered before the generator sees it.
-/
import Mavros.Hlssa.Types
import Mavros.Spread

namespace Mavros.R1CGen

open Hlssa

/-! ## Integers inside field elements -/

/-- `wrap_unsigned`: `v & bit_mask(bits)`. -/
def wrapUnsigned (v bits : Nat) : Nat := v % 2 ^ bits

/-- `decode_signed`. -/
def decodeSigned (v bits : Nat) : Int :=
  let masked := wrapUnsigned v bits
  if masked < 2 ^ (bits - 1) then masked else (masked : Int) - 2 ^ bits

/-- `v as u128`, for any integer. -/
def asU128 (v : Int) : Nat := (v % 2 ^ 128).toNat

/-- `encode_signed`. -/
def encodeSigned (v : Int) (bits : Nat) : Nat := wrapUnsigned (asU128 v) bits

/-- `expect_u128`. -/
def expectU128 (x : Fr) : Option Nat := if x.val < 2 ^ 128 then some x.val else none

/-- `bool` as a field element. -/
def ofBool (b : Bool) : Fr := if b then 1 else 0

/-! ## Operations -/

/-- The arm of `arith` for `U(bits)`, on the wrapped operands. -/
def arithU (kind : BinaryArithOpKind) (a b : Nat) : Option Nat :=
  let shift := b % 2 ^ 32
  match kind with
  | .add => some ((a + b) % 2 ^ 128)
  | .sub => some ((a + 2 ^ 128 - b) % 2 ^ 128)
  | .mul => some (a * b % 2 ^ 128)
  | .div => if b = 0 then none else some (a / b)
  | .mod => if b = 0 then none else some (a % b)
  | .and => some (a &&& b)
  | .or => some (a ||| b)
  | .xor => some (a ^^^ b)
  | .shl => some (a <<< (shift % 128) % 2 ^ 128)
  | .shr => some (a >>> (shift % 128))

/-- The arm of `arith` for `I(bits)`, on the decoded operands.  The `i128`
operations wrap, which the encoding that follows does again. -/
def arithI (kind : BinaryArithOpKind) (bits : Nat) (a b : Int) : Option Nat :=
  let aRaw := wrapUnsigned (asU128 a) bits
  let bRaw := wrapUnsigned (asU128 b) bits
  let bBits := bRaw % 2 ^ 32
  match kind with
  | .add => some (encodeSigned (a + b) bits)
  | .sub => some (encodeSigned (a - b) bits)
  | .mul => some (encodeSigned (a * b) bits)
  | .and => some (aRaw &&& bRaw)
  | .or => some (aRaw ||| bRaw)
  | .xor => some (aRaw ^^^ bRaw)
  | .shl => some (wrapUnsigned (aRaw <<< (bBits % 128) % 2 ^ 128) bits)
  | .shr => some (aRaw >>> (bBits % 128))
  | .div | .mod => none

/-- `arith`. -/
def arith (kind : BinaryArithOpKind) (outType : TypeExpr) (a b : Fr) : Option Fr :=
  match outType.stripWitness with
  | .u bits => do
    if bits = 0 ∨ 128 < bits then none
    else
      let a ← expectU128 a
      let b ← expectU128 b
      let r ← arithU kind (wrapUnsigned a bits) (wrapUnsigned b bits)
      some (wrapUnsigned r bits : Nat)
  | .i bits => do
    if bits = 0 ∨ 128 < bits then none
    else
      let a ← expectU128 a
      let b ← expectU128 b
      let r ← arithI kind bits (decodeSigned a bits) (decodeSigned b bits)
      some (r : Nat)
  | .field | .witnessOf _ =>
    match kind with
    | .add => some (a + b)
    | .sub => some (a - b)
    | .mul => some (a * b)
    | .div => if b = 0 then none else some (a / b)
    | _ => none
  | _ => none

/-- `ult`. -/
def ult (a b : Fr) : Fr := ofBool (a.val < b.val)

/-- `slt`. -/
def slt (bits : Nat) (a b : Fr) : Option Fr := do
  let a ← expectU128 a
  let b ← expectU128 b
  if bits = 0 ∨ 128 < bits then none
  else some (ofBool (decodeSigned a bits < decodeSigned b bits))

/-- `Cmp`: the executor looks at the type of the left operand. -/
def cmp (kind : CmpKind) (lhsType : TypeExpr) (a b : Fr) : Option Fr :=
  match kind with
  | .eq => some (ofBool (a = b))
  | .lt => match lhsType.stripWitness with
    | .i bits => slt bits a b
    | _ => some (ult a b)

/-- `bit_range`. -/
def bitRange (offset width : Nat) (a : Fr) : Fr := (a.val / 2 ^ offset % 2 ^ width : Nat)

/-- `sext`; `1u128 << n` takes `n` modulo 128. -/
def sext (fromBits toBits : Nat) (a : Fr) : Fr :=
  if 0 < fromBits ∧ fromBits ≤ 256 ∧ a.val.testBit (fromBits - 1) then
    a + (((2 ^ (toBits % 128) : Nat) : Fr) - ((2 ^ (fromBits % 128) : Nat) : Fr))
  else a

/-- `not`: the low bits negated, if the result is below the modulus. -/
def not (outType : TypeExpr) (a : Fr) : Option Fr := do
  let bits ← outType.bitSize
  let r := 2 ^ bits - 1 - a.val % 2 ^ bits
  if r < modulus then some (r : Nat) else none

/-- `select`, on constants. -/
def select (cond ifT ifF : Fr) : Fr := cond * ifT + (1 - cond) * ifF

/-- The `size` low digits of a field element in base `base`, least significant
first. -/
def digits (base size : Nat) (a : Fr) : List Fr :=
  (List.range size).map fun k => ((a.val / base ^ k % base : Nat) : Fr)

def orient (endianness : Endianness) (digits : List Fr) : List Fr :=
  match endianness with
  | .little => digits
  | .big => digits.reverse

/-- `to_bits`. -/
def toBits (endianness : Endianness) (size : Nat) (a : Fr) : List Fr :=
  orient endianness (digits 2 size a)

/-- `to_radix`: a dynamic radix is a `todo!`. -/
def toRadix (radix : Radix) (endianness : Endianness) (size : Nat) (a : Fr) : Option (List Fr) :=
  match radix with
  | .bytes => some (orient endianness (digits 256 size a))
  | .dyn _ => none

/-- `spread`. -/
def spread (bits : Nat) (a : Fr) : Option Fr :=
  if bits ≤ 64 then some (spreadBits (a.val % 2 ^ 64) : Nat) else none

/-- `unspread`; the width it is called with is even. -/
def unspread (bits : Nat) (a : Fr) : Option (Fr × Fr) :=
  if bits * 2 ≤ 128 then
    let (odd, even) := unspreadBits (a.val % 2 ^ 64)
    some ((odd : Nat), (even : Nat))
  else none

/-- `rangecheck`: no bit from `maxBits` on is set. -/
def rangecheck (maxBits : Nat) (a : Fr) : Bool := a.val < 2 ^ maxBits

/-! ## Pure scalar code

The arms of `SymbolicExecutor::run_fn` for it.  A value without witnesses is a constant or
an array of constants. -/

inductive ScalarValue where
  | const (x : Fr)
  | array (elems : List Fr)
deriving DecidableEq

/-- `Scope`: the values of the locals, layered over the constants. -/
abbrev Scope := List (ValueId × ScalarValue)

/-- `expect_constant` of a value in scope. -/
def Scope.constant (scope : Scope) (v : ValueId) : Option Fr :=
  match scope.lookup v with
  | some (.const x) => some x
  | _ => none

def execScalar (types : ValueId → Option TypeExpr) (scope : Scope) :
    Hlssa.OpCode → Option Scope
  | .cmp kind r lhs rhs => do
    let x ← cmp kind (← types lhs) (← scope.constant lhs) (← scope.constant rhs)
    some ((r, .const x) :: scope)
  | .binaryArithOp kind r lhs rhs => do
    let x ← arith kind (← types r) (← scope.constant lhs) (← scope.constant rhs)
    some ((r, .const x) :: scope)
  | .cast r v _ => do some ((r, ← scope.lookup v) :: scope)
  | .sext r v fromBits toBits => do
    some ((r, .const (sext fromBits toBits (← scope.constant v))) :: scope)
  | .bitRange r v offset width => do
    some ((r, .const (bitRange offset width (← scope.constant v))) :: scope)
  | .not r v => do some ((r, .const (← not (← types r) (← scope.constant v))) :: scope)
  | .select r cond ifT ifF => do
    some ((r, .const (select (← scope.constant cond) (← scope.constant ifT)
      (← scope.constant ifF))) :: scope)
  | .toBits r v endianness count => do
    some ((r, .array (toBits endianness count (← scope.constant v))) :: scope)
  | .toRadix r v radix endianness count => do
    some ((r, .array (← toRadix radix endianness count (← scope.constant v))) :: scope)
  | .spread r v bits => do
    some ((r, .const (← spread bits (← scope.constant v))) :: scope)
  | .unspread odd even v bits => do
    let (x, y) ← unspread bits (← scope.constant v)
    some ((even, .const y) :: (odd, .const x) :: scope)
  | _ => none

/-- `materialize_constants`: what a constant of the program is to the generator. -/
def constantValue : Constant → Option Fr
  | .u _ v | .i _ v => some (v : Nat)
  | .field x => some x
  | .fnPtr _ => none

end Mavros.R1CGen
