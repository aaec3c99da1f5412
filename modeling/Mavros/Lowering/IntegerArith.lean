/-
# `Mavros.Lowering.IntegerArith` — integer arithmetic on witnesses

`LowerWitnessIntegerArithOps`.  Operands are decoded to field elements, the operation is
done in the field, and range checks make sure that the result is one of the type.  What
the value-range analysis knows narrows the checks or leaves them out.  An assertion that
fails while lowering is `none`; those on the widths of the checks hold at every call.

## What is modelled

* What the intervals decide: the width of a check, whether a sign is known, whether an
  interval stands for itself in the field.
* Addition, subtraction and multiplication, unsigned with one check of the result and signed with
  the encoding of a result whose sign is written.
* Division and remainder, unsigned with a written quotient, and signed on the absolute values.
* `processArith`, which dispatches on kind, type and guard.

The hints are written where the source computes them, from values and under the guard.

## What it is not

Nothing is proved here.  What the gadgets accept is in `Mavros.Lowering.UnsignedArith`,
`Mavros.Lowering.SignedArith`, `Mavros.Lowering.UnsignedDivision` and
`Mavros.Lowering.SignedDivision`.
-/
import Mavros.Lowering.BitRange

namespace Mavros.Lowering

open Lib Lib.Circuit
open Hlssa (IntInterval BinaryArithOpKind)

/-! ## What the intervals decide -/

def unsignedBitWidth (range : IntInterval) : Option Nat := do
  let lo ← range.lo
  let hi ← range.hi
  if lo < 0 then none else some (Nat.size hi.natAbs)

def narrowRangecheckWidth (range : IntInterval) (defaultBits : Nat) : Nat :=
  match unsignedBitWidth range with
  | none => defaultBits
  | some width => min (max width 1) defaultBits

def rangeFitsFieldInjectively (range : IntInterval) : Bool :=
  match range.lo, range.hi with
  | some lo, some hi => hi - lo < modulus
  | _, _ => false

def isStrictlyNegative (range : IntInterval) : Bool := range.hi.any (· < 0)

def knownSign (range : IntInterval) (bits : Nat) : Option Bool :=
  if range.isNonNegativeInSigned bits then some false
  else if isStrictlyNegative range then some true
  else none

def quotientBound (a b : IntInterval) : IntInterval :=
  match a.hi, b.lo with
  | some aHi, some bLo =>
    if !a.isNonNegative || !decide (0 < bLo) then .top else .closed 0 (aHi.tdiv bLo)
  | _, _ => .top

def remainderBound (b : IntInterval) : IntInterval :=
  match b.hi with
  | some bHi => if 0 < bHi then .closed 0 (bHi - 1) else .top
  | none => .top

def absBound (range : IntInterval) : IntInterval :=
  match range.lo, range.hi with
  | some lo, some hi =>
    if lo ≤ 0 ∧ 0 ≤ hi then .closed 0 (max |lo| |hi|) else .closed (min |lo| |hi|) (max |lo| |hi|)
  | _, _ => .top

section Lowerings

variable {σ : Type}

/-! ## Unsigned addition, subtraction and multiplication -/

/-- The result of an unsigned operation, checked unless the interval shows that it fits. -/
def checkUnsigned (value : Fr) (range : IntInterval) (bits : Nat) (guard : Option Fr) :
    Circuit σ Fr := do
  if !range.fitsInUnsignedBits bits then
    guardedRangecheck value (narrowRangecheckWidth range bits) guard
  return guardedOrZeroField value guard

def lowerUnsignedAddsub (guard : Option Fr) (kind : BinaryArithOpKind) (lhs rhs : Operand)
    (bits : Nat) : Option (Gadget Fr Fr) :=
  match kind with
  | .add => some fun _ _ =>
    checkUnsigned (lhs.value + rhs.value) (lhs.range.add rhs.range) bits guard
  | .sub => some fun _ _ =>
    checkUnsigned (lhs.value - rhs.value) (lhs.range.sub rhs.range) bits guard
  | _ => none

def lowerUnsignedMul (guard : Option Fr) (lhs rhs : Operand) (bits : Nat) :
    Option (Gadget Fr Fr) :=
  if rangeFitsFieldInjectively (lhs.range.mul rhs.range) then
    some fun _ _ => checkUnsigned (lhs.value * rhs.value) (lhs.range.mul rhs.range) bits guard
  else none

/-! ## Signed addition, subtraction and multiplication -/

def signedValueFromEncoded (encoded sign : Fr) (bits : Nat) : Fr := encoded - sign * twoPow bits

/-- The sign of an operand: known, or its top bit. -/
def lowerSign (P : Prover Fr σ) (x : Operand) (bits : Nat) : Circuit σ Fr :=
  match knownSign x.range bits with
  | some false => pure 0
  | some true => pure 1
  | none => lowerBitRange P x.value x.isWitness bits (bits - 1) 1

def enforceSignedEncodingSign (encoded sign : Fr) (bits : Nat) (guard : Option Fr) :
    Circuit σ Unit :=
  if bits = 1 then do
    guardedRangecheck (encoded - sign) 1 guard
    guardedRangecheck (sign - encoded) 1 guard
  else guardedRangecheck (encoded - sign * twoPow (bits - 1)) (bits - 1) guard

/-- The sign of a result: known, or written after the hint and checked to be a bit. -/
def resultSign (P : Prover Fr σ) (encodedHint : Option Fr) (range : IntInterval) (bits : Nat)
    (guard : Option Fr) : Circuit σ Fr :=
  if range.isNonNegativeInSigned bits then pure 0
  else if isStrictlyNegative range then pure 1
  else do
    let sign ← writeWitness P (encodedHint.map (lowerPureBitRangeValue · (bits - 1) 1))
    guardedRangecheck sign 1 guard
    return sign

def encodeSignedValue (P : Prover Fr σ) (signedValue : Fr) (encodedHint : Option Fr)
    (range : IntInterval) (bits : Nat) (guard : Option Fr) : Circuit σ Fr := do
  let sign ← resultSign P encodedHint range bits guard
  let encoded := signedValue + sign * twoPow bits
  if !range.fitsInSignedBits bits || (knownSign range bits).isNone then
    enforceSignedEncodingSign encoded sign bits guard
  return guardedOrZeroField encoded guard

/-- The common part of the signed operations: `op` in the field on the decoded operands,
`hint` on the encoded numbers. -/
def lowerSigned (op : Fr → Fr → Fr) (hint : Int → Int → Int) (range : IntInterval)
    (guard : Option Fr) (lhs rhs : Operand) (bits : Nat) : Option (Gadget Fr Fr) :=
  if rangeFitsFieldInjectively range then
    some fun _ P => do
      let signL ← lowerSign P lhs bits
      let signR ← lowerSign P rhs bits
      let lhsSigned := signedValueFromEncoded lhs.value signL bits
      let rhsSigned := signedValueFromEncoded rhs.value signR bits
      let resultHint := wrapHint bits (hint lhs.value.val rhs.value.val)
      encodeSignedValue P (op lhsSigned rhsSigned) (some resultHint) range bits guard
  else none

def lowerSignedAddsub (guard : Option Fr) (kind : BinaryArithOpKind) (lhs rhs : Operand)
    (bits : Nat) : Option (Gadget Fr Fr) :=
  match kind with
  | .add => lowerSigned (· + ·) (· + ·) (lhs.range.add rhs.range) guard lhs rhs bits
  | .sub => lowerSigned (· - ·) (· - ·) (lhs.range.sub rhs.range) guard lhs rhs bits
  | _ => none

def lowerSignedMul (guard : Option Fr) (lhs rhs : Operand) (bits : Nat) : Option (Gadget Fr Fr) :=
  lowerSigned (· * ·) (· * ·) (lhs.range.mul rhs.range) guard lhs rhs bits

/-! ## Division and remainder -/

structure DivModResult where
  q : Fr
  r : Fr

/-- The quotient hint of `lower_unsigned_divmod`: of zero by one where the guard is off. -/
def quotientHint (dividend divisor : Fr) (bits : Nat) (guard : Option Fr) : Option Fr :=
  let dividendHint := castHint bits dividend
  let divisorHint := castHint bits divisor
  match guard with
  | some condition => divHint (select condition dividendHint 0) (select condition divisorHint 1)
  | none => divHint dividendHint divisorHint

/-- `lower_unsigned_divmod`. -/
def lowerUnsignedDivmod (P : Prover Fr σ) (dividend divisor : Operand) (bits : Nat)
    (guard : Option Fr) : Circuit σ DivModResult :=
  if dividend.id = divisor.id then do
    guardedRangecheck (divisor.value - 1) bits guard
    return ⟨guard.getD 1, 0⟩
  else do
    let q ← writeWitness P (quotientHint dividend.value divisor.value bits guard)
    let r := dividend.value - q * divisor.value
    let qBits := narrowRangecheckWidth (quotientBound dividend.range divisor.range) bits
    let rBits := narrowRangecheckWidth (remainderBound divisor.range) bits
    guardedRangecheck q qBits guard
    guardedRangecheck r rBits guard
    guardedRangecheck (divisor.value - r - 1) rBits guard
    return ⟨guardedOrZeroField q guard, guardedOrZeroField r guard⟩

def lowerUnsignedDivmodResult (guard : Option Fr) (kind : BinaryArithOpKind) (lhs rhs : Operand)
    (bits : Nat) : Option (Gadget Fr Fr) :=
  match kind with
  | .div => some fun _ P => return (← lowerUnsignedDivmod P lhs rhs bits guard).q
  | .mod => some fun _ P => return (← lowerUnsignedDivmod P lhs rhs bits guard).r
  | _ => none

/-- `write_abs_value`. -/
def writeAbsValue (value sign : Fr) (bits : Nat) : Fr :=
  signedValueFromEncoded value sign bits * (1 - 2 * sign)

/-- `write_signed_magnitude_result`. -/
def writeSignedMagnitudeResult (P : Prover Fr σ) (magnitude sign : Fr) (bits : Nat)
    (guard : Option Fr) : Circuit σ Fr :=
  let encodedIfNonzero := select sign (twoPow bits - magnitude) magnitude
  let encodedHint := if magnitude = 0 then 0 else encodedIfNonzero
  encodeSignedValue P (magnitude * (1 - 2 * sign))
    (some (castHint bits encodedHint)) .top bits guard

/-- `lower_signed_divmod`, up to the choice of the result.  The absolute values go under the
names of their operands: they are one value exactly when the operands are. -/
def lowerSignedDivmod (P : Prover Fr σ) (lhs rhs : Operand) (bits : Nat) (guard : Option Fr) :
    Circuit σ DivModResult := do
  let signL ← lowerSign P lhs bits
  let signR ← if lhs.id = rhs.id then pure signL else lowerSign P rhs bits
  let absL := { lhs with
    value := writeAbsValue lhs.value signL bits, range := absBound lhs.range }
  let absR := if lhs.id = rhs.id then absL else { rhs with
    value := writeAbsValue rhs.value signR bits, range := absBound rhs.range }
  let divmod ← lowerUnsignedDivmod P absL absR bits guard
  -- `xor` of two bits
  let quotientSign := signL + signR - 2 * (signL * signR)
  let quotient ← writeSignedMagnitudeResult P divmod.q quotientSign bits guard
  let remainder ← writeSignedMagnitudeResult P divmod.r signL bits guard
  return ⟨quotient, remainder⟩

def lowerSignedDivmodResult (guard : Option Fr) (kind : BinaryArithOpKind) (lhs rhs : Operand)
    (bits : Nat) : Option (Gadget Fr Fr) :=
  match kind with
  | .div => some fun _ P => return (← lowerSignedDivmod P lhs rhs bits guard).q
  | .mod => some fun _ P => return (← lowerSignedDivmod P lhs rhs bits guard).r
  | _ => none

/-! ## The rule -/

/-- `process_arith`, on operands of one integer type. -/
def processArith (guard : Option Fr) (kind : BinaryArithOpKind) (lhs rhs : Operand) (bits : Nat)
    (signed : Bool) : Option (Gadget Fr Fr) :=
  if lhs.isWitness || rhs.isWitness then
    match kind with
    | .add | .sub =>
      if signed then lowerSignedAddsub guard kind lhs rhs bits
      else lowerUnsignedAddsub guard kind lhs rhs bits
    | .mul =>
      if signed then lowerSignedMul guard lhs rhs bits else lowerUnsignedMul guard lhs rhs bits
    | .div | .mod =>
      if signed then lowerSignedDivmodResult guard kind lhs rhs bits
      else lowerUnsignedDivmodResult guard kind lhs rhs bits
    | _ => none
  else none

end Lowerings

end Mavros.Lowering
