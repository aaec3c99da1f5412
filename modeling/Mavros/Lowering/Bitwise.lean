/-
# `Mavros.Lowering.Bitwise` — bitwise operations on witnesses

`LowerWitnessBitwiseOps` on `and`, `or` and `xor`.  The words are spread and added: the
carries at the odd bits are the conjunction, the bits left at the even ones the exclusive
disjunction.  A word of 64 bits goes through two limbs.  The lowering itself lets words of
up to 128 bits pass, but the sum of two spread words is typed again before it is taken
apart, and there `Unspread` stops at 64.

## What is proved

* `processBitwise_spec`: a bitwise operation of any width is right (`BitwiseSpec`) exactly if its
  words have at most 64 bits: there is a lowering, whatever the prover writes its result is that of
  the operation, and the hints pass.
* `processBitwise_u128`: two words of 128 bits are accepted by the lowering and have none.

## How it goes

Three lowerings, by width, each with its soundness and completeness.  Up to 63 bits the words are
spread as they are (`lowerWordBitwise_ensures`).  At 64 each operand is first taken apart, its low
limb being what the high one leaves (`decomposeU64Input_ensures`), and limbs in range are unique
(`LimbsOf.val`).  A single bit is computed in the field and leaves the prover no choice.  The
disjunction is the sum without the carries counted twice, in all of them.
-/
import Mavros.Lowering.BitRange
import Mavros.Lowering.Spread
import Mavros.Lowering.UnsignedArith

namespace Mavros.Lowering

open Lib Lib.Circuit
open Hlssa (IntInterval BinaryArithOpKind)

section Definitions

variable {σ : Type} (P : Prover Fr σ)

/-- The interval of a word of the width. -/
def wordRange (bits : Nat) : IntInterval := .closed 0 (2 ^ bits - 1)

/-- `lower_word_bitwise`.  The sum of the two words is lowered as an addition of witnesses. -/
def lowerWordBitwise (kind : BinaryArithOpKind) (lhs rhs : Fr) (lhsWitness rhsWitness : Bool)
    (bits : Nat) : Circuit σ Fr := do
  let lhsSpread ← spreadAsField P lhs lhsWitness bits
  let rhsSpread ← spreadAsField P rhs rhsWitness bits
  let words ← lowerWitnessUnspread P (lhsSpread + rhsSpread) bits
  match kind with
  | .and => return words.1
  | .xor => return words.2
  | .or => checkUnsigned (words.1 + words.2) ((wordRange bits).add (wordRange bits)) bits none
  | _ => fun _ => none

structure U64Limbs where
  lo : Fr
  hi : Fr

/-- `decompose_u64_input`: the low limb of a witness is what the high one leaves. -/
def decomposeU64Input (value : Fr) (isWitness : Bool) : Circuit σ U64Limbs :=
  if isWitness then do
    let hi ← writeWitness P (some (lowerPureBitRangeValue value 32 32))
    return ⟨value - hi * twoPow 32, hi⟩
  else return ⟨lowerPureBitRangeValue value 0 32, lowerPureBitRangeValue value 32 32⟩

def lowerU64LimbBitwise (kind : BinaryArithOpKind) (lhs rhs : U64Limbs)
    (lhsWitness rhsWitness : Bool) : Circuit σ U64Limbs := do
  let lo ← lowerWordBitwise P kind lhs.lo rhs.lo lhsWitness rhsWitness 32
  let hi ← lowerWordBitwise P kind lhs.hi rhs.hi lhsWitness rhsWitness 32
  return ⟨lo, hi⟩

def combineU32Limbs (limbs : U64Limbs) : Fr := limbs.lo + limbs.hi * twoPow 32

def lowerU1Bitwise (kind : BinaryArithOpKind) (lhs rhs : Fr) : Circuit σ Fr :=
  match kind with
  | .and => return lhs * rhs
  | .or => return lhs + rhs - lhs * rhs
  | .xor => return lhs + rhs - 2 * (lhs * rhs)
  | _ => fun _ => none

/-- The width that `unspread_result_types` asks of its integer. -/
def unspreadTyped (bits : Nat) : Bool := bits % 2 = 0 && bits / 2 ≤ 64

/-- `lower_binary_bitwise`, with the typing of what it emits; `none` where one of the two
panics. -/
def lowerBinaryBitwise (kind : BinaryArithOpKind) (lhs rhs : Operand) (bits : Nat) :
    Option (Gadget Fr Fr) :=
  if 128 < bits then none
  else if bits = 1 then some fun _ _ => lowerU1Bitwise kind lhs.value rhs.value
  else if bits = 64 then some fun _ P => do
    let lhsLimbs ← decomposeU64Input P lhs.value lhs.isWitness
    let rhsLimbs ← decomposeU64Input P rhs.value rhs.isWitness
    let resultLimbs ← lowerU64LimbBitwise P kind lhsLimbs rhsLimbs lhs.isWitness rhs.isWitness
    return combineU32Limbs resultLimbs
  else if unspreadTyped (bits * 2) then some fun _ P =>
    lowerWordBitwise P kind lhs.value rhs.value lhs.isWitness rhs.isWitness bits
  else none

/-- `process_op`, on the bitwise operations. -/
def processBitwise (kind : BinaryArithOpKind) (lhs rhs : Operand) (bits : Nat) :
    Option (Gadget Fr Fr) :=
  match kind with
  | .and | .or | .xor =>
    if lhs.isWitness || rhs.isWitness then lowerBinaryBitwise kind lhs rhs bits else none
  | _ => none

end Definitions

/-! ## Words -/

/-- The operations, on numbers. -/
def bitwise (kind : BinaryArithOpKind) (a b : Nat) : Nat :=
  match kind with
  | .and => a &&& b
  | .or => a ||| b
  | .xor => a ^^^ b
  | _ => 0

/-- Conjunction, disjunction or exclusive disjunction. -/
def IsBitwise (kind : BinaryArithOpKind) : Prop := kind = .and ∨ kind = .or ∨ kind = .xor

section Words

variable {kind : BinaryArithOpKind} {a b n : Nat}

theorem bitwise_split (hkind : IsBitwise kind) (a b n : Nat) :
    bitwise kind a b = bitwise kind (a % 2 ^ n) (b % 2 ^ n)
      + bitwise kind (a / 2 ^ n) (b / 2 ^ n) * 2 ^ n := by
  rcases hkind with rfl | rfl | rfl
  · simp only [bitwise]
    rw [← Nat.and_mod_two_pow, ← Nat.and_div_two_pow, Nat.mod_add_div']
  · simp only [bitwise]
    rw [← Nat.or_mod_two_pow, ← Nat.or_div_two_pow, Nat.mod_add_div']
  · simp only [bitwise]
    rw [← Nat.xor_mod_two_pow, ← Nat.xor_div_two_pow, Nat.mod_add_div']

end Words

/-! ## One word -/

section Word

variable {σ : Type} {P : Prover Fr σ} {kind : BinaryArithOpKind} {lhs rhs : Fr}
  {lhsWitness rhsWitness : Bool} {bits : Nat}

theorem checkUnsigned_ensures {value : Fr} {range : IntInterval} :
    Ensures (checkUnsigned value range bits none : Circuit σ Fr) fun r => r = value := by
  unfold checkUnsigned
  split
  · exact .bind .any fun _ _ => .pure rfl
  · exact .pure rfl

/-- The sum of two spread words, as the words that it holds. -/
theorem spread_sum (a b : Nat) : ((spread bits a : Nat) : Fr) + (spread bits b : Nat)
    = ((2 * spread bits (a &&& b) + spread bits (a ^^^ b) : Nat) : Fr) := by
  rw [← spread_add_spread]
  push_cast
  rfl

theorem lowerWordBitwise_ensures (hkind : IsBitwise kind) (h : bits ≤ 64)
    (hlhs : lhsWitness = false → InType bits lhs) (hrhs : rhsWitness = false → InType bits rhs) :
    Ensures (lowerWordBitwise P kind lhs rhs lhsWitness rhsWitness bits) fun r =>
      InType bits lhs ∧ InType bits rhs ∧ r = (bitwise kind lhs.val rhs.val : Nat) := by
  unfold lowerWordBitwise
  refine .bind (spreadAsField_ensures h hlhs) fun lhsSpread hl => ?_
  refine .bind (spreadAsField_ensures h hrhs) fun rhsSpread hr => ?_
  obtain ⟨hl, rfl⟩ := hl
  obtain ⟨hr, rfl⟩ := hr
  rw [spread_sum]
  refine .bind (lowerWitnessUnspread_ensures h (Nat.and_lt_two_pow _ hr)
    (Nat.xor_lt_two_pow hl hr)) fun words hwords => ?_
  subst hwords
  rcases hkind with rfl | rfl | rfl
  · exact .pure ⟨hl, hr, rfl⟩
  · refine checkUnsigned_ensures.mono fun r hresult => ⟨hl, hr, ?_⟩
    rw [hresult, bitwise, ← and_add_xor, Nat.cast_add]
  · exact .pure ⟨hl, hr, rfl⟩

theorem wordRange_contains {v : Nat} (hv : v < 2 ^ bits) : (wordRange bits).Contains v := by
  have hcast : (v : Int) < 2 ^ bits := by exact_mod_cast hv
  exact IntInterval.contains_closed (Int.natCast_nonneg v) (by omega)

theorem lowerWordBitwise_completes (hkind : IsBitwise kind) (hbits : 1 ≤ bits) (h : bits ≤ 64)
    {a b : Nat} (ha : a < 2 ^ bits) (hb : b < 2 ^ bits) :
    Gadget.Completes
      (fun _ P => lowerWordBitwise P kind (a : Fr) (b : Fr) lhsWitness rhsWitness bits)
      ((bitwise kind a b : Nat) : Fr) := by
  have hand : a &&& b < 2 ^ bits := Nat.and_lt_two_pow a hb
  have hxor : a ^^^ b < 2 ^ bits := Nat.xor_lt_two_pow ha hb
  unfold lowerWordBitwise
  refine (spreadAsField_completes h lhsWitness ha).bind
    ((spreadAsField_completes h rhsWitness hb).bind ?_)
  simp only [spread_sum]
  refine (lowerWitnessUnspread_completes h hand hxor).bind ?_
  rcases hkind with rfl | rfl | rfl
  · exact .pure
  · have hor : ((a &&& b : Nat) : Fr) + ((a ^^^ b : Nat) : Fr)
        = (((a ||| b : Nat) : Int) : Fr) := by
      rw [← and_add_xor]
      push_cast
      rfl
    have hcontains : ((wordRange bits).add (wordRange bits)).Contains ((a ||| b : Nat) : Int) := by
      rw [← and_add_xor, Nat.cast_add]
      exact (wordRange_contains hand).add (wordRange_contains hxor)
    have hval : (((a ||| b : Nat) : Int) : Fr).val < 2 ^ bits := by
      rw [Int.cast_natCast, natCast_val_of_lt h (Nat.or_lt_two_pow ha hb)]
      exact Nat.or_lt_two_pow ha hb
    refine ⟨[], fun σ P s t hst => ?_⟩
    obtain rfl : s = t := hst
    simp only [hor, bitwise]
    rw [← Int.cast_natCast (R := Fr) (a ||| b)]
    exact (checkUnsigned_eq_some (.inl rfl) hcontains (by omega)).mpr ⟨hval, rfl⟩
  · exact .pure

end Word

/-! ## Two limbs

High and low, operand by operand and for the result.
-/

section Limbs

variable {σ : Type} {P : Prover Fr σ} {kind : BinaryArithOpKind} {value : Fr} {isWitness : Bool}

/-- The limbs add up, and those of a pure value are in range. -/
structure LimbsOf (value : Fr) (isWitness : Bool) (limbs : U64Limbs) : Prop where
  sum : value = limbs.lo + limbs.hi * twoPow 32
  lo_inType : isWitness = false → InType 32 limbs.lo
  hi_inType : isWitness = false → InType 32 limbs.hi

theorem val_limb_lt (x offset : Nat) : ((x / 2 ^ offset % 2 ^ 32 : Nat) : Fr).val < 2 ^ 32 := by
  have hlt : x / 2 ^ offset % 2 ^ 32 < 2 ^ 32 := Nat.mod_lt _ (by norm_num)
  rwa [ZMod.val_natCast_of_lt (hlt.trans (two_pow_lt_modulus (by omega)))]

/-- The two limbs of a word of 64 bits. -/
theorem limbs_add_up (hvalue : InType 64 value) :
    value = ((value.val / 2 ^ 0 % 2 ^ 32 : Nat) : Fr)
      + ((value.val / 2 ^ 32 % 2 ^ 32 : Nat) : Fr) * twoPow 32 := by
  have hlt : value.val < 2 ^ 64 := hvalue
  have hsum : value.val / 2 ^ 0 % 2 ^ 32 + value.val / 2 ^ 32 % 2 ^ 32 * 2 ^ 32 = value.val := by
    omega
  conv_lhs => rw [← natCast_val value, ← hsum]
  rw [twoPow]
  push_cast
  rfl

theorem decomposeU64Input_ensures (hvalue : InType 64 value) :
    Ensures (decomposeU64Input P value isWitness) (LimbsOf value isWitness) := by
  unfold decomposeU64Input
  split
  · next hwitness =>
    refine .bind .any fun hi _ => .pure ⟨?_, fun h => ?_, fun h => ?_⟩
    · ring
    · simp [hwitness] at h
    · simp [hwitness] at h
  · rw [lowerPureBitRangeValue_eq (by omega), lowerPureBitRangeValue_eq (by omega)]
    exact .pure ⟨limbs_add_up hvalue, fun _ => val_limb_lt _ 0, fun _ => val_limb_lt _ 32⟩

theorem decomposeU64Input_completes (hvalue : InType 64 value) :
    Gadget.Completes (fun _ P => decomposeU64Input P value isWitness)
      ⟨((value.val % 2 ^ 32 : Nat) : Fr), ((value.val / 2 ^ 32 : Nat) : Fr)⟩ := by
  have hlt : value.val < 2 ^ 64 := hvalue
  have hlo : value.val / 2 ^ 0 % 2 ^ 32 = value.val % 2 ^ 32 := by omega
  have hhi : value.val / 2 ^ 32 % 2 ^ 32 = value.val / 2 ^ 32 := by omega
  have hsum := limbs_add_up hvalue
  rw [hlo, hhi] at hsum
  unfold decomposeU64Input
  rw [lowerPureBitRangeValue_eq (by omega), lowerPureBitRangeValue_eq (by omega), hlo, hhi]
  split
  · have hleft : value - ((value.val / 2 ^ 32 : Nat) : Fr) * twoPow 32
        = ((value.val % 2 ^ 32 : Nat) : Fr) := by linear_combination hsum
    refine (completes_writeWitness _).bind ?_
    rw [hleft]
    exact .pure
  · exact .pure

/-- Limbs in range are the limbs. -/
theorem LimbsOf.val {limbs : U64Limbs} (h : LimbsOf value isWitness limbs)
    (hlo : InType 32 limbs.lo) (hhi : InType 32 limbs.hi) :
    limbs.lo.val = value.val % 2 ^ 32 ∧ limbs.hi.val = value.val / 2 ^ 32 := by
  have hlo : limbs.lo.val < 2 ^ 32 := hlo
  have hhi : limbs.hi.val < 2 ^ 32 := hhi
  have hcast : value = ((limbs.lo.val + limbs.hi.val * 2 ^ 32 : Nat) : Fr) := by
    rw [Nat.cast_add, Nat.cast_mul, natCast_val, natCast_val, h.sum, twoPow, Nat.cast_pow,
      Nat.cast_ofNat]
  have hmod : (2 : Nat) ^ 253 < modulus := two_pow_lt_modulus le_rfl
  have hval : value.val = limbs.lo.val + limbs.hi.val * 2 ^ 32 := by
    conv_lhs => rw [hcast]
    exact ZMod.val_natCast_of_lt (by omega)
  omega

/-- The limbs of the result. -/
def resultLimbs (kind : BinaryArithOpKind) (a b : Nat) : U64Limbs where
  lo := (bitwise kind (a % 2 ^ 32) (b % 2 ^ 32) : Nat)
  hi := (bitwise kind (a / 2 ^ 32) (b / 2 ^ 32) : Nat)

theorem combineU32Limbs_resultLimbs (hkind : IsBitwise kind) (a b : Nat) :
    combineU32Limbs (resultLimbs kind a b) = (bitwise kind a b : Nat) := by
  rw [bitwise_split hkind a b 32, combineU32Limbs, resultLimbs, twoPow]
  push_cast
  rfl

theorem lowerU64LimbBitwise_ensures (hkind : IsBitwise kind) {lhs rhs : Fr} {l r : U64Limbs}
    {lhsWitness rhsWitness : Bool} (hl : LimbsOf lhs lhsWitness l) (hr : LimbsOf rhs rhsWitness r) :
    Ensures (lowerU64LimbBitwise P kind l r lhsWitness rhsWitness) fun limbs =>
      limbs = resultLimbs kind lhs.val rhs.val := by
  unfold lowerU64LimbBitwise
  refine .bind (lowerWordBitwise_ensures hkind (by omega) hl.lo_inType hr.lo_inType)
    fun lo hlo => ?_
  refine .bind (lowerWordBitwise_ensures hkind (by omega) hl.hi_inType hr.hi_inType)
    fun hi hhi => .pure ?_
  obtain ⟨hllo, hrlo, rfl⟩ := hlo
  obtain ⟨hlhi, hrhi, rfl⟩ := hhi
  obtain ⟨hvallo, hvalhi⟩ := hl.val hllo hlhi
  obtain ⟨hvallo', hvalhi'⟩ := hr.val hrlo hrhi
  rw [hvallo, hvalhi, hvallo', hvalhi']
  rfl

theorem lowerU64LimbBitwise_completes (hkind : IsBitwise kind) {a b : Nat} (ha : a < 2 ^ 64)
    (hb : b < 2 ^ 64) {lhsWitness rhsWitness : Bool} :
    Gadget.Completes (fun _ P => lowerU64LimbBitwise P kind
      ⟨((a % 2 ^ 32 : Nat) : Fr), ((a / 2 ^ 32 : Nat) : Fr)⟩
      ⟨((b % 2 ^ 32 : Nat) : Fr), ((b / 2 ^ 32 : Nat) : Fr)⟩ lhsWitness rhsWitness)
      (resultLimbs kind a b) := by
  unfold lowerU64LimbBitwise
  exact (lowerWordBitwise_completes hkind (by omega) (by omega) (by omega) (by omega)).bind
    ((lowerWordBitwise_completes hkind (by omega) (by omega) (by omega) (by omega)).bind .pure)

end Limbs

/-! ## One bit -/

section Bit

variable {kind : BinaryArithOpKind} {lhs rhs : Fr}

/-- One bit is computed in the field, without a choice of the prover. -/
theorem lowerU1Bitwise_eq (hkind : IsBitwise kind) (hlhs : InType 1 lhs) (hrhs : InType 1 rhs)
    (σ : Type) : (lowerU1Bitwise kind lhs rhs : Circuit σ Fr)
      = pure ((bitwise kind lhs.val rhs.val : Nat) : Fr) := by
  have hone : (1 : Fr).val = 1 := rfl
  have htwo : (1 : Fr) + 1 - 2 = 0 := by ring
  rcases eq_zero_or_one_of_val_lt hlhs with rfl | rfl <;>
    rcases eq_zero_or_one_of_val_lt hrhs with rfl | rfl <;>
    rcases hkind with rfl | rfl | rfl <;> simp [lowerU1Bitwise, bitwise, hone, htwo]

end Bit

/-! ## Bitwise operations -/

section Spec

variable {kind : BinaryArithOpKind} {lhs rhs : Operand} {bits : Nat}

/-- The operation is right: there is a lowering, whatever the prover writes its result is that of
the operation, and the hints pass. -/
def BitwiseSpec (kind : BinaryArithOpKind) (lhs rhs : Operand) (bits : Nat) : Prop :=
  ∃ c : Gadget Fr Fr, processBitwise kind lhs rhs bits = some c ∧
    (∀ (σ : Type) (P : Prover Fr σ), Ensures (c σ P) fun r =>
      r = (bitwise kind lhs.value.val rhs.value.val : Nat)) ∧
    c Unit .honest () = some (((bitwise kind lhs.value.val rhs.value.val : Nat) : Fr), ())

theorem processBitwise_eq (hkind : IsBitwise kind) (hwitness : lhs.isWitness || rhs.isWitness) :
    processBitwise kind lhs rhs bits = lowerBinaryBitwise kind lhs rhs bits := by
  rcases hkind with rfl | rfl | rfl <;> exact if_pos hwitness

/-- Words of up to 64 bits have a lowering, it is sound, and the hints pass. -/
theorem lowerBinaryBitwise_correct (hkind : IsBitwise kind) (hbits : 1 ≤ bits) (hle : bits ≤ 64)
    (hlhs : InType bits lhs.value) (hrhs : InType bits rhs.value) :
    ∃ c : Gadget Fr Fr, lowerBinaryBitwise kind lhs rhs bits = some c ∧
      (∀ (σ : Type) (P : Prover Fr σ), Ensures (c σ P) fun r =>
        r = (bitwise kind lhs.value.val rhs.value.val : Nat)) ∧
      c.Completes (bitwise kind lhs.value.val rhs.value.val : Nat) := by
  unfold lowerBinaryBitwise
  rw [if_neg (by omega)]
  by_cases hone : bits = 1
  · subst hone
    rw [if_pos rfl]
    refine ⟨_, rfl, fun σ P => ?_, ?_⟩
    · rw [lowerU1Bitwise_eq hkind hlhs hrhs]
      exact .pure rfl
    · simp only [lowerU1Bitwise_eq hkind hlhs hrhs]
      exact .pure
  rw [if_neg hone]
  by_cases hlimbs : bits = 64
  · subst hlimbs
    rw [if_pos rfl]
    refine ⟨_, rfl, fun σ P => ?_, ?_⟩
    · refine .bind (decomposeU64Input_ensures hlhs) fun l hl => ?_
      refine .bind (decomposeU64Input_ensures hrhs) fun r hr => ?_
      refine .bind (lowerU64LimbBitwise_ensures hkind hl hr) fun limbs hresult => .pure ?_
      rw [hresult, combineU32Limbs_resultLimbs hkind]
    · rw [← combineU32Limbs_resultLimbs hkind]
      refine .bind (decomposeU64Input_completes hlhs) ?_
      refine .bind (decomposeU64Input_completes hrhs) ?_
      exact .bind (lowerU64LimbBitwise_completes hkind hlhs hrhs) .pure
  have htyped : unspreadTyped (bits * 2) = true := by
    simp only [unspreadTyped, Bool.and_eq_true, decide_eq_true_eq]
    omega
  rw [if_neg hlimbs, if_pos htyped]
  refine ⟨_, rfl, fun σ P => ?_, ?_⟩
  · refine (lowerWordBitwise_ensures hkind hle (fun _ => hlhs) fun _ => hrhs).mono ?_
    exact fun r hr => hr.2.2
  · have hrun : Gadget.Completes (fun _ P => lowerWordBitwise P kind ((lhs.value.val : Nat) : Fr)
        ((rhs.value.val : Nat) : Fr) lhs.isWitness rhs.isWitness bits) _ :=
      lowerWordBitwise_completes hkind hbits hle hlhs hrhs
    rwa [natCast_val, natCast_val] at hrun

/-- The lowering of a bitwise operation is right exactly on words of up to 64 bits. -/
theorem processBitwise_spec (kind : BinaryArithOpKind) (hkind : IsBitwise kind) (lhs rhs : Operand)
    (bits : Nat) (hbits : 1 ≤ bits) (hlhs : InType bits lhs.value) (hrhs : InType bits rhs.value)
    (hwitness : lhs.isWitness || rhs.isWitness) :
    BitwiseSpec kind lhs rhs bits ↔ bits ≤ 64 := by
  unfold BitwiseSpec
  rw [processBitwise_eq hkind hwitness]
  constructor
  · rintro ⟨c, hc, -⟩
    by_contra hwide
    have htyped : unspreadTyped (bits * 2) = false := by
      simp only [unspreadTyped, Bool.and_eq_false_iff, decide_eq_false_iff_not]
      omega
    unfold lowerBinaryBitwise at hc
    rw [if_neg (by omega : bits ≠ 1), if_neg (by omega : bits ≠ 64), htyped] at hc
    split at hc <;> simp at hc
  · intro hle
    obtain ⟨c, hc, hsound, hcompletes⟩ := lowerBinaryBitwise_correct hkind hbits hle hlhs hrhs
    exact ⟨c, hc, hsound, hcompletes.honest⟩

/-- Two words of 128 bits are accepted by the lowering and have none. -/
theorem processBitwise_u128 :
    InType 128 (fullOperand 128 0 5).value ∧ InType 128 (fullOperand 128 1 3).value ∧
      processBitwise .xor (fullOperand 128 0 5) (fullOperand 128 1 3) 128 = none ∧
      ¬BitwiseSpec .xor (fullOperand 128 0 5) (fullOperand 128 1 3) 128 := by
  refine ⟨fullOperand_inType le_rfl (by norm_num), fullOperand_inType le_rfl (by norm_num), rfl, ?_⟩
  rintro ⟨c, hc, -⟩
  exact absurd hc (by simp [processBitwise, lowerBinaryBitwise, unspreadTyped, fullOperand])

theorem processBitwise_spec_words :
    BitwiseSpec .or (fullOperand 64 0 5) (fullOperand 64 1 3) 64 ↔ 64 ≤ 64 :=
  processBitwise_spec .or (.inr (.inl rfl)) _ _ 64 (by omega)
    (fullOperand_inType (by omega) (by norm_num)) (fullOperand_inType (by omega) (by norm_num)) rfl

end Spec

end Mavros.Lowering
