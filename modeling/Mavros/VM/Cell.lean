/-
# `Mavros.VM.Cell` — field elements in memory

The machine keeps a field element as four 64-bit limbs in Montgomery form, and
now and then writes or reads the lowest limb alone: table numbers and flags on
the lookup tape, and the counters that become multiplicities.  A cell is the
number the four limbs spell.

## What is proved

`toFr_ofFr`: an element written is read back.  A number written to the lowest limb of a cell is read
back from there (`setLimb0_zero`), and is *not* the element it would be if it were
written as one; the machine converts the counters in place before it uses them as elements.
-/
import Mavros.Field

namespace Mavros

/-- Four limbs, the lowest first. -/
abbrev Cell := Nat

/-- The Montgomery radix. -/
def montR : Fr := 2 ^ 256

namespace Cell

/-- A field element written to memory. -/
def ofFr (x : Fr) : Cell := (x * montR).val

/-- A field element read from memory. -/
def toFr (c : Cell) : Fr := (c : Fr) * montR⁻¹

/-- The lowest limb: `x.0.0[0]`, or a read as `u64`. -/
def limb0 (c : Cell) : Nat := c % 2 ^ 64

/-- A write as `u64`. -/
def setLimb0 (c : Cell) (n : Nat) : Cell := c - c % 2 ^ 64 + n % 2 ^ 64

theorem montR_ne_zero : montR ≠ 0 := pow_ne_zero _ (by decide +kernel)

@[simp] theorem toFr_ofFr (x : Fr) : toFr (ofFr x) = x := by
  rw [toFr, ofFr, ZMod.natCast_val, ZMod.cast_id', id, mul_inv_cancel_right₀ montR_ne_zero]

@[simp] theorem toFr_zero : toFr 0 = 0 := by
  rw [toFr, Nat.cast_zero, zero_mul]

theorem setLimb0_zero (n : Nat) : setLimb0 0 n = n % 2 ^ 64 := by
  simp [setLimb0]

end Cell

end Mavros
