/-
# `Mavros.Lowering.BitRange` — bits of an integer

`BitRange` on an integer of a known width.  Of a pure value the bits are cut out; of a
witness they are written, with the bits below and above them, and the three parts are
checked and must add up.  The parts of an integer are unique, so the prover has no choice.

## What is proved

* `lowerWitnessBitRange_spec`: for every value of the width and every range inside it, whatever the
  prover writes the result is the range, and the hints pass; the pure computation gives the same.
* `lowerBitRange_ensures`, `lowerBitRange_completes`: the same for an operand that may be either.

## How it goes

Parts that are in bounds and add up to an integer are its parts (`part_unique`), by two divisions
with remainder.  That the sum is one of integers and not only one in the field is a matter of
width: all parts together have no more bits than the source, which the modulus exceeds.
-/
import Mathlib.Tactic.LinearCombination
import Mavros.Lowering.Builder

namespace Mavros.Lowering

open Lib Lib.Circuit

/-- `bit_mask`. -/
def bitMask (offset width : Nat) : Nat :=
  if width = 128 then 2 ^ 128 - 1 else (2 ^ width - 1) * 2 ^ offset

/-- `lower_pure_bit_range_value` on an integer. -/
def lowerPureBitRangeValue (x : Fr) (offset width : Nat) : Fr :=
  ((x.val &&& bitMask offset width) / 2 ^ offset : Nat)

section Definitions

variable {σ : Type} (P : Prover Fr σ)

/-- A part of the value that is written and checked, unless it is empty. -/
def writePart (x : Fr) (offset width : Nat) : Circuit σ (Option Fr) :=
  if width = 0 then pure none
  else do
    let part ← writeWitness P (some (lowerPureBitRangeValue x offset width))
    rangecheck width part
    return some part

/-- `lower_witness_bit_range`, on an integer of `sourceBits` bits. -/
def lowerWitnessBitRange (value : Fr) (sourceBits offset width : Nat) : Circuit σ Fr := do
  let result ← writeWitness P (some (lowerPureBitRangeValue value offset width))
  rangecheck width result
  let low ← writePart P value 0 offset
  let high ← writePart P value (offset + width) (sourceBits - offset - width)
  let reconstructed := low.getD 0 + result * twoPow offset
  let reconstructed := match high with
    | some high => reconstructed + high * twoPow (offset + width)
    | none => reconstructed
  constrain 1 (value - reconstructed) 0
  return result

/-- `lower_bit_range` on an integer. -/
def lowerBitRange (value : Fr) (isWitness : Bool) (sourceBits offset width : Nat) : Circuit σ Fr :=
  if isWitness then lowerWitnessBitRange P value sourceBits offset width
  else pure (lowerPureBitRangeValue value offset width)

end Definitions

/-! ## The parts of an integer -/

theorem and_shifted_mask (x offset width : Nat) :
    (x &&& (2 ^ width - 1) * 2 ^ offset) / 2 ^ offset = x / 2 ^ offset % 2 ^ width := by
  rw [← Nat.shiftLeft_eq, ← Nat.shiftRight_eq_div_pow, ← Nat.shiftRight_eq_div_pow,
    Nat.shiftRight_and_distrib, Nat.shiftLeft_shiftRight, Nat.and_two_pow_sub_one_eq_mod]

theorem lowerPureBitRangeValue_eq {x : Fr} {offset width : Nat} (hwidth : offset + width ≤ 128) :
    lowerPureBitRangeValue x offset width = (x.val / 2 ^ offset % 2 ^ width : Nat) := by
  have hmask : bitMask offset width = (2 ^ width - 1) * 2 ^ offset := by
    rw [bitMask]
    split
    · obtain rfl : offset = 0 := by omega
      subst width
      simp
    · rfl
  rw [lowerPureBitRangeValue, hmask, and_shifted_mask]

/-- The bits below, in and above the range. -/
theorem parts_add_up (x offset width : Nat) :
    x % 2 ^ offset + x / 2 ^ offset % 2 ^ width * 2 ^ offset
      + x / 2 ^ (offset + width) * 2 ^ (offset + width) = x := by
  have h₁ := Nat.div_add_mod x (2 ^ offset)
  have h₂ := Nat.div_add_mod (x / 2 ^ offset) (2 ^ width)
  rw [Nat.div_div_eq_div_mul, ← pow_add] at h₂
  calc x % 2 ^ offset + x / 2 ^ offset % 2 ^ width * 2 ^ offset
        + x / 2 ^ (offset + width) * 2 ^ (offset + width)
      = x % 2 ^ offset + 2 ^ offset
          * (2 ^ width * (x / 2 ^ (offset + width)) + x / 2 ^ offset % 2 ^ width) := by ring
    _ = x := by rw [h₂]; omega

/-- Parts that add up are the parts. -/
theorem part_unique {x low mid high offset width : Nat} (hlow : low < 2 ^ offset)
    (hmid : mid < 2 ^ width) (h : low + mid * 2 ^ offset + high * 2 ^ (offset + width) = x) :
    x / 2 ^ offset % 2 ^ width = mid := by
  have hx : x = low + 2 ^ offset * (mid + 2 ^ width * high) := by rw [← h]; ring
  rw [hx, Nat.add_mul_div_left _ _ (Nat.two_pow_pos _), Nat.div_eq_of_lt hlow, Nat.zero_add,
    Nat.add_mul_mod_self_left, Nat.mod_eq_of_lt hmid]

/-! ## Soundness and completeness

A part of no bits is neither written nor checked, and counts as zero.
-/

section Spec

variable {σ : Type} {P : Prover Fr σ} {x : Fr} {bits offset width : Nat}

theorem writePart_ensures :
    Ensures (writePart P x offset width) fun part => (part.getD 0).val < 2 ^ width := by
  unfold writePart
  split
  · exact .pure (Nat.two_pow_pos width)
  · exact .bind .any fun part _ => .bind ensures_rangecheck fun _ hpart => .pure hpart

/-- The written range is the range: the prover has no choice. -/
theorem lowerWitnessBitRange_ensures (hrange : offset + width ≤ bits) (hbits : bits ≤ 253) :
    Ensures (lowerWitnessBitRange P x bits offset width) fun r =>
      r = (x.val / 2 ^ offset % 2 ^ width : Nat) := by
  unfold lowerWitnessBitRange
  refine .bind .any fun r _ => .bind ensures_rangecheck fun _ hmid =>
    .bind writePart_ensures fun low hlow => .bind writePart_ensures fun high hhigh =>
    .bind ensures_constrain fun _ hsum => .pure ?_
  -- the sum of the parts, as a number
  have hcast : x = ((low.getD 0).val + r.val * 2 ^ offset
      + (high.getD 0).val * 2 ^ (offset + width) : Nat) := by
    push_cast
    rw [natCast_val, natCast_val, natCast_val]
    cases high with
    | none =>
      simp only [one_mul, twoPow] at hsum
      simp only [Option.getD_none]
      linear_combination hsum
    | some high =>
      simp only [one_mul, twoPow] at hsum
      simp only [Option.getD_some]
      linear_combination hsum
  have hlt : (low.getD 0).val + r.val * 2 ^ offset
      + (high.getD 0).val * 2 ^ (offset + width) < 2 ^ bits := by
    have hsplit : bits = offset + width + (bits - offset - width) := by omega
    calc (low.getD 0).val + r.val * 2 ^ offset + (high.getD 0).val * 2 ^ (offset + width)
        < 2 ^ offset + r.val * 2 ^ offset + (high.getD 0).val * 2 ^ (offset + width) := by omega
      _ = (r.val + 1) * 2 ^ offset + (high.getD 0).val * 2 ^ (offset + width) := by ring
      _ ≤ 2 ^ width * 2 ^ offset + (high.getD 0).val * 2 ^ (offset + width) := by gcongr; omega
      _ = ((high.getD 0).val + 1) * 2 ^ (offset + width) := by rw [pow_add]; ring
      _ ≤ 2 ^ (bits - offset - width) * 2 ^ (offset + width) := by gcongr; omega
      _ = 2 ^ bits := by rw [← pow_add]; congr 1; omega
  have hval : x.val = (low.getD 0).val + r.val * 2 ^ offset
      + (high.getD 0).val * 2 ^ (offset + width) := by
    conv_lhs => rw [hcast]
    exact ZMod.val_natCast_of_lt (hlt.trans (two_pow_lt_modulus hbits))
  rw [part_unique hlow hmid hval.symm, natCast_val]

theorem val_part_lt (hbits : width ≤ 253) :
    ((x.val / 2 ^ offset % 2 ^ width : Nat) : Fr).val < 2 ^ width := by
  have hlt := Nat.mod_lt (x.val / 2 ^ offset) (Nat.two_pow_pos width)
  rwa [ZMod.val_natCast_of_lt (hlt.trans (two_pow_lt_modulus hbits))]

theorem writePart_completes (hwidth : offset + width ≤ 128) :
    ∃ part : Option Fr, Gadget.Completes (fun _ P => writePart P x offset width) part ∧
      part.getD 0 = (x.val / 2 ^ offset % 2 ^ width : Nat) := by
  unfold writePart
  split
  · next hw =>
    refine ⟨none, .pure, ?_⟩
    simp [hw, Nat.mod_one]
  · rw [lowerPureBitRangeValue_eq hwidth]
    have hlt := @val_part_lt x offset width (by omega)
    exact ⟨some _, (completes_writeWitness _).bind ((completes_rangecheck hlt).bind .pure), rfl⟩

/-- The hints pass the checks. -/
theorem lowerWitnessBitRange_completes (hx : InType bits x) (hrange : offset + width ≤ bits)
    (hbits : bits ≤ 128) :
    Gadget.Completes (fun _ P => lowerWitnessBitRange P x bits offset width)
      ((x.val / 2 ^ offset % 2 ^ width : Nat) : Fr) := by
  obtain ⟨low, hlow, hlowval⟩ := @writePart_completes x 0 offset (by omega)
  obtain ⟨high, hhigh, hhighval⟩ :=
    @writePart_completes x (offset + width) (bits - offset - width) (by omega)
  unfold lowerWitnessBitRange
  rw [lowerPureBitRangeValue_eq (by omega)]
  refine (completes_writeWitness _).bind ((completes_rangecheck (val_part_lt (by omega))).bind
    (hlow.bind (hhigh.bind ((completes_constrain ?_).bind .pure))))
  -- the bits above the type are zero
  have htop : x.val / 2 ^ (offset + width) % 2 ^ (bits - offset - width)
      = x.val / 2 ^ (offset + width) := by
    refine Nat.mod_eq_of_lt (Nat.div_lt_of_lt_mul ?_)
    rw [← pow_add]
    exact hx.trans_le (Nat.pow_le_pow_right (by norm_num) (by omega))
  have hsum := parts_add_up x.val offset width
  have hcast : x = ((x.val % 2 ^ offset : Nat) : Fr)
      + ((x.val / 2 ^ offset % 2 ^ width : Nat) : Fr) * 2 ^ offset
      + ((x.val / 2 ^ (offset + width) : Nat) : Fr) * 2 ^ (offset + width) := by
    conv_lhs => rw [← natCast_val x, ← hsum]
    push_cast
    rfl
  rw [htop] at hhighval
  rw [pow_zero, Nat.div_one] at hlowval
  cases high with
  | none =>
    simp only [Option.getD_none] at hhighval
    rw [hlowval, twoPow, one_mul]
    rw [← hhighval] at hcast
    linear_combination hcast
  | some high =>
    simp only [Option.getD_some] at hhighval
    simp only [hlowval, hhighval, twoPow]
    linear_combination hcast

/-- The gadget and the pure computation are the bits of the range, and the prover has no
choice. -/
theorem lowerWitnessBitRange_spec (hbits : bits ≤ 128) (hrange : offset + width ≤ bits)
    (hx : InType bits x) :
    (∀ (σ : Type) (P : Prover Fr σ), Ensures (lowerWitnessBitRange P x bits offset width)
        fun r => r = (x.val / 2 ^ offset % 2 ^ width : Nat)) ∧
      Gadget.Completes (fun _ P => lowerWitnessBitRange P x bits offset width)
        ((x.val / 2 ^ offset % 2 ^ width : Nat) : Fr) ∧
      lowerPureBitRangeValue x offset width = (x.val / 2 ^ offset % 2 ^ width : Nat) :=
  ⟨fun _ _ => lowerWitnessBitRange_ensures hrange (by omega),
    lowerWitnessBitRange_completes hx hrange hbits, lowerPureBitRangeValue_eq (by omega)⟩

theorem lowerWitnessBitRange_spec_u128 :
    (∀ (σ : Type) (P : Prover Fr σ), Ensures (lowerWitnessBitRange P 300 128 4 120)
        fun r => r = ((300 : Fr).val / 2 ^ 4 % 2 ^ 120 : Nat)) ∧
      Gadget.Completes (fun _ P => lowerWitnessBitRange P 300 128 4 120)
        (((300 : Fr).val / 2 ^ 4 % 2 ^ 120 : Nat) : Fr) ∧
      lowerPureBitRangeValue 300 4 120 = ((300 : Fr).val / 2 ^ 4 % 2 ^ 120 : Nat) :=
  lowerWitnessBitRange_spec le_rfl (by norm_num) (by rw [InType]; decide +kernel)

/-! ### Pure or witness -/

theorem lowerBitRange_ensures (isWitness : Bool) (hrange : offset + width ≤ bits)
    (hbits : bits ≤ 128) :
    Ensures (lowerBitRange P x isWitness bits offset width) fun r =>
      r = (x.val / 2 ^ offset % 2 ^ width : Nat) := by
  unfold lowerBitRange
  split
  · exact lowerWitnessBitRange_ensures hrange (by omega)
  · exact .pure (lowerPureBitRangeValue_eq (by omega))

theorem lowerBitRange_completes (isWitness : Bool) (hx : InType bits x)
    (hrange : offset + width ≤ bits) (hbits : bits ≤ 128) :
    Gadget.Completes (fun _ P => lowerBitRange P x isWitness bits offset width)
      ((x.val / 2 ^ offset % 2 ^ width : Nat) : Fr) := by
  unfold lowerBitRange
  split
  · exact lowerWitnessBitRange_completes hx hrange hbits
  · rw [lowerPureBitRangeValue_eq (by omega)]
    exact .pure

end Spec

end Mavros.Lowering
