/-
# `Mavros.Spread` — interleaving a word with zeros, in its two implementations

`compiler/util.rs` spreads a `u128` with seven masks, the virtual machine a `u32`
with five.  Both are given as they stand; shifts drop the bits that leave the
word.  They agree on every 32-bit word: the mask the compiler applies first
leaves such a word alone, and the others differ above bit 64 only.

## What is proved

* `spreadBits_eq_vmSpreadBits`: on words of 32 bits the two spread alike.
* `compactBits_eq_vmCompactBits`, `unspreadBits_eq_vmUnspreadBits`: on words of 64 bits they take
  apart alike.

## How it goes

Step by step.  A step on a small word is the same on a narrow and on a wide word, when the wider
mask extends the narrower one (`spreadStep_widen`, `compactStep_narrow`), and the result of a step
is again small enough for the next, as it lies below its mask.

What the functions compute, bit by bit, is in `Mavros.Lowering.Spread`; here they are only compared.
-/
import Mathlib.Tactic

namespace Mavros

/-- One step `x = (x | (x << k)) & mask` on a word of `w` bits. -/
def spreadStep (w k mask x : Nat) : Nat := (x ||| (x <<< k) % 2 ^ w) &&& mask

/-- `util::spread_bits`; its assertion is on the width alone and stands with the
callers. -/
def spreadBits (v : Nat) : Nat :=
  let x := spreadStep 128 32 0x00000000FFFFFFFF00000000FFFFFFFF v
  let x := spreadStep 128 16 0x0000FFFF0000FFFF0000FFFF0000FFFF x
  let x := spreadStep 128 8 0x00FF00FF00FF00FF00FF00FF00FF00FF x
  let x := spreadStep 128 4 0x0F0F0F0F0F0F0F0F0F0F0F0F0F0F0F0F x
  let x := spreadStep 128 2 0x33333333333333333333333333333333 x
  spreadStep 128 1 0x55555555555555555555555555555555 x

/-- `spread_bits` of `vm/bytecode.rs`, on a `u32`. -/
def vmSpreadBits (v : Nat) : Nat :=
  let x := spreadStep 64 16 0x0000FFFF0000FFFF v
  let x := spreadStep 64 8 0x00FF00FF00FF00FF x
  let x := spreadStep 64 4 0x0F0F0F0F0F0F0F0F x
  let x := spreadStep 64 2 0x3333333333333333 x
  spreadStep 64 1 0x5555555555555555 x

/-- Masking a word of `w` bits reads the low `w` bits of the mask only. -/
theorem and_mask_mod {w y : Nat} (mask : Nat) (hy : y < 2 ^ w) :
    y &&& mask = y &&& mask % 2 ^ w := by
  have hand : y &&& mask < 2 ^ w := lt_of_le_of_lt Nat.and_le_left hy
  rw [← Nat.mod_eq_of_lt hand, Nat.and_mod_two_pow, Nat.mod_eq_of_lt hy]

/-- A step on a small word is the same on 64 and on 128 bits, when the wider mask
extends the narrower one. -/
theorem spreadStep_widen (k mask : Nat) {mask' x : Nat} (hx : x < 2 ^ (64 - k)) (hk : k ≤ 64)
    (hmask : mask' % 2 ^ 64 = mask) : spreadStep 128 k mask' x = spreadStep 64 k mask x := by
  have hpow : 2 ^ (64 - k) * 2 ^ k = 2 ^ 64 := by rw [← pow_add, Nat.sub_add_cancel hk]
  have hshift : x <<< k < 2 ^ 64 := by
    rw [Nat.shiftLeft_eq, ← hpow]
    exact Nat.mul_lt_mul_of_pos_right hx (Nat.two_pow_pos k)
  have hx64 : x < 2 ^ 64 := lt_of_lt_of_le hx (Nat.pow_le_pow_right (by norm_num) (by omega))
  have hor : x ||| x <<< k < 2 ^ 64 := Nat.or_lt_two_pow hx64 hshift
  have hshift' : x <<< k < 2 ^ 128 := by omega
  rw [spreadStep, spreadStep, Nat.mod_eq_of_lt hshift, Nat.mod_eq_of_lt hshift', ← hmask]
  exact and_mask_mod _ hor

/-- The masked word lies below the mask. -/
theorem spreadStep_le (w k mask x : Nat) : spreadStep w k mask x ≤ mask := Nat.and_le_right

/-- The compiler's first mask leaves a 32-bit word alone. -/
theorem spreadStep_first {v : Nat} (hv : v < 2 ^ 32) :
    spreadStep 128 32 0x00000000FFFFFFFF00000000FFFFFFFF v = v := by
  have hshift : v <<< 32 < 2 ^ 64 := by rw [Nat.shiftLeft_eq]; omega
  have hor : v ||| v <<< 32 < 2 ^ 64 := Nat.or_lt_two_pow (by omega) hshift
  have hshift' : v <<< 32 < 2 ^ 128 := by omega
  rw [spreadStep, Nat.mod_eq_of_lt hshift', and_mask_mod _ hor]
  have hmask : (0x00000000FFFFFFFF00000000FFFFFFFF % 2 ^ 64 : Nat) = 2 ^ 32 - 1 := by norm_num
  rw [hmask, Nat.and_two_pow_sub_one_eq_mod, Nat.or_mod_two_pow, Nat.shiftLeft_eq,
    Nat.mul_mod_left, Nat.or_zero, Nat.mod_eq_of_lt hv]

/-- The two implementations agree on 32-bit words. -/
theorem spreadBits_eq_vmSpreadBits {v : Nat} (hv : v < 2 ^ 32) :
    spreadBits v = vmSpreadBits v := by
  simp only [spreadBits, vmSpreadBits]
  rw [spreadStep_first hv,
    spreadStep_widen 16 0x0000FFFF0000FFFF (by omega) (by norm_num) rfl,
    spreadStep_widen 8 0x00FF00FF00FF00FF
      (lt_of_le_of_lt (spreadStep_le _ _ _ _) (by norm_num)) (by norm_num) rfl,
    spreadStep_widen 4 0x0F0F0F0F0F0F0F0F
      (lt_of_le_of_lt (spreadStep_le _ _ _ _) (by norm_num)) (by norm_num) rfl,
    spreadStep_widen 2 0x3333333333333333
      (lt_of_le_of_lt (spreadStep_le _ _ _ _) (by norm_num)) (by norm_num) rfl,
    spreadStep_widen 1 0x5555555555555555
      (lt_of_le_of_lt (spreadStep_le _ _ _ _) (by norm_num)) (by norm_num) rfl]

/-! ## Compacting

The same steps with shifts to the right, in the reverse order of the masks.
-/

/-- One step `x = (x | (x >> k)) & mask`. -/
def compactStep (k mask x : Nat) : Nat := (x ||| x >>> k) &&& mask

/-- `compact_bits` of `util::unspread_bits`, on a `u128`. -/
def compactBits (v : Nat) : Nat :=
  let x := v &&& 0x55555555555555555555555555555555
  let x := compactStep 1 0x33333333333333333333333333333333 x
  let x := compactStep 2 0x0F0F0F0F0F0F0F0F0F0F0F0F0F0F0F0F x
  let x := compactStep 4 0x00FF00FF00FF00FF00FF00FF00FF00FF x
  let x := compactStep 8 0x0000FFFF0000FFFF0000FFFF0000FFFF x
  let x := compactStep 16 0x00000000FFFFFFFF00000000FFFFFFFF x
  compactStep 32 0x0000000000000000FFFFFFFFFFFFFFFF x

/-- `util::unspread_bits`: the odd and the even bits. -/
def unspreadBits (v : Nat) : Nat × Nat := (compactBits (v >>> 1), compactBits v)

/-- `compact_bits` of `vm/bytecode.rs`, from a `u64` to a `u32`. -/
def vmCompactBits (v : Nat) : Nat :=
  let x := v &&& 0x5555555555555555
  let x := compactStep 1 0x3333333333333333 x
  let x := compactStep 2 0x0F0F0F0F0F0F0F0F x
  let x := compactStep 4 0x00FF00FF00FF00FF x
  let x := compactStep 8 0x0000FFFF0000FFFF x
  let x := compactStep 16 0x00000000FFFFFFFF x
  x % 2 ^ 32

/-- `unspread_bits` of `vm/bytecode.rs`. -/
def vmUnspreadBits (v : Nat) : Nat × Nat := (vmCompactBits (v >>> 1), vmCompactBits v)

theorem compactStep_le (k mask x : Nat) : compactStep k mask x ≤ mask := Nat.and_le_right

/-- A step on a 64-bit word reads the low half of a 128-bit mask only. -/
theorem compactStep_narrow (k mask : Nat) {mask' x : Nat} (hx : x < 2 ^ 64)
    (hmask : mask' % 2 ^ 64 = mask) : compactStep k mask' x = compactStep k mask x := by
  have hshift : x >>> k < 2 ^ 64 := lt_of_le_of_lt (Nat.shiftRight_le x k) hx
  rw [compactStep, compactStep, ← hmask]
  exact and_mask_mod _ (Nat.or_lt_two_pow hx hshift)

theorem vmCompactBits_lt (v : Nat) : vmCompactBits v < 2 ^ 32 :=
  Nat.mod_lt _ (Nat.two_pow_pos 32)

/-- The two implementations agree on 64-bit words. -/
theorem compactBits_eq_vmCompactBits {v : Nat} (hv : v < 2 ^ 64) :
    compactBits v = vmCompactBits v := by
  have hlast (x : Nat) (hx : x ≤ 0x00000000FFFFFFFF) :
      compactStep 32 0x0000000000000000FFFFFFFFFFFFFFFF x = x % 2 ^ 32 := by
    have hshift : x >>> 32 = 0 := by rw [Nat.shiftRight_eq_div_pow]; omega
    rw [compactStep, hshift, Nat.or_zero,
      show (0x0000000000000000FFFFFFFFFFFFFFFF : Nat) = 2 ^ 64 - 1 from by norm_num,
      Nat.and_two_pow_sub_one_eq_mod]
    omega
  simp only [compactBits, vmCompactBits]
  rw [and_mask_mod 0x55555555555555555555555555555555 hv,
    show (0x55555555555555555555555555555555 % 2 ^ 64 : Nat) = 0x5555555555555555 from by norm_num,
    compactStep_narrow 1 0x3333333333333333 (lt_of_le_of_lt Nat.and_le_left hv) (by norm_num),
    compactStep_narrow 2 0x0F0F0F0F0F0F0F0F
      (lt_of_le_of_lt (compactStep_le _ _ _) (by norm_num)) (by norm_num),
    compactStep_narrow 4 0x00FF00FF00FF00FF
      (lt_of_le_of_lt (compactStep_le _ _ _) (by norm_num)) (by norm_num),
    compactStep_narrow 8 0x0000FFFF0000FFFF
      (lt_of_le_of_lt (compactStep_le _ _ _) (by norm_num)) (by norm_num),
    compactStep_narrow 16 0x00000000FFFFFFFF
      (lt_of_le_of_lt (compactStep_le _ _ _) (by norm_num)) (by norm_num)]
  exact hlast _ (compactStep_le _ _ _)

theorem unspreadBits_eq_vmUnspreadBits {v : Nat} (hv : v < 2 ^ 64) :
    unspreadBits v = vmUnspreadBits v := by
  have hshift : v >>> 1 < 2 ^ 64 := lt_of_le_of_lt (Nat.shiftRight_le v 1) hv
  rw [unspreadBits, vmUnspreadBits, compactBits_eq_vmCompactBits hv,
    compactBits_eq_vmCompactBits hshift]

end Mavros
