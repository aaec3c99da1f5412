/-
# `Mavros.Codegen.SpreadAgree` — four implementations of spreading

The compiler's functions on 128 bits, the machine's on 64, the sequence emitted for the
second backend at its result's width, and the constraint generator's on a field constant.
The last one reads the lowest limb of the constant only.  A spread word of up to 32 bits
fits, and so does the sum of two of them; of a wider sum the high bits are lost, and with
them the bits of both words from position 32 on.

## What is proved

* `spreadAgrees_iff`: for two words of at most 64 bits, all implementations interleave with zeros,
  agree with each other and take the sum apart again (`SpreadAgrees`), exactly where neither word
  has a bit from position 32 on.
* `not_spreadAgrees_word33`: one bit above, the generator takes two zeros from the sum.

## How it goes

`SpreadAgrees` has one field for each implementation, and all fields but the generator's last one
hold of every word the implementation accepts.  That one is computed: the lowest limb of a sum of
spread words holds the low halves of both (`spreadSum_mod`), so the words come back where they are
their own low halves (`cast_mod_eq_iff`).
-/
import Mavros.Llssa.SpreadBits
import Mavros.R1CGen.Scalar
import Mavros.VM.Scalar

namespace Mavros

open Lib Lowering

/-- The sum that two words are taken from. -/
def spreadSum (a b : Nat) : Nat := 2 * spreadBits a + spreadBits b

/-- What the implementations owe to two words of `bits` bits. -/
structure SpreadAgrees (bits a b : Nat) : Prop where
  interleaved : ∀ i, (spreadBits a).testBit (2 * i) = a.testBit i ∧
    (spreadBits a).testBit (2 * i + 1) = false
  inverse : unspreadBits (spreadSum a b) = (a, b)
  llvmSpread : ∀ resultBits, 2 * bits ≤ resultBits →
    Llssa.compileSpreadBits bits resultBits a = spreadBits a
  llvmUnspread : ∀ valueBits oddBits evenBits, 2 * bits ≤ valueBits → bits ≤ oddBits →
    bits ≤ evenBits →
    Llssa.compileUnspread bits valueBits oddBits evenBits (spreadSum a b) = (a, b)
  vmSpread : bits ≤ 32 → Bytecode.spreadU32 a = spreadBits a
  vmUnspread : bits ≤ 32 → Bytecode.unspreadU64 (spreadSum a b) = (a, b)
  r1csSpread : R1CGen.spread bits (a : Fr) = some (spreadBits a : Fr)
  r1csUnspread : R1CGen.unspread bits (spreadSum a b : Fr) = some ((a : Fr), (b : Fr))

section Words

variable {bits a b : Nat}

theorem spreadSum_eq (hbits : bits ≤ 64) (ha : a < 2 ^ bits) (hb : b < 2 ^ bits) :
    spreadSum a b = 2 * spread bits a + spread bits b := by
  rw [spreadSum, spreadBits_eq hbits ha, spreadBits_eq hbits hb]

theorem spreadSum_lt (hbits : bits ≤ 64) (ha : a < 2 ^ bits) (hb : b < 2 ^ bits) :
    spreadSum a b < 2 ^ (2 * bits) := by
  rw [spreadSum_eq hbits ha hb, ← four_pow]
  exact interleaved_lt bits a b

theorem unspreadBits_spreadSum (hbits : bits ≤ 64) (ha : a < 2 ^ bits) (hb : b < 2 ^ bits) :
    unspreadBits (spreadSum a b) = (a, b) := by
  rw [spreadSum_eq hbits ha hb]
  exact unspreadBits_eq hbits ha hb

theorem spreadBits_interleaved (hbits : bits ≤ 64) (ha : a < 2 ^ bits) (i : Nat) :
    (spreadBits a).testBit (2 * i) = a.testBit i ∧ (spreadBits a).testBit (2 * i + 1) = false := by
  obtain ⟨heven, hodd⟩ := testBit_spread bits a i
  rw [spreadBits_eq hbits ha]
  refine ⟨heven.trans ?_, hodd⟩
  by_cases hi : i < bits
  · simp [hi]
  · have hhigh : a.testBit i = false :=
      Nat.testBit_lt_two_pow (ha.trans_le (Nat.pow_le_pow_right two_pos (Nat.le_of_not_lt hi)))
    simp [hhigh]

theorem compileUnspread_spreadSum (hbits : bits ≤ 64) (ha : a < 2 ^ bits) (hb : b < 2 ^ bits)
    {valueBits oddBits evenBits : Nat} (hvalue : 2 * bits ≤ valueBits) (hodd : bits ≤ oddBits)
    (heven : bits ≤ evenBits) :
    Llssa.compileUnspread bits valueBits oddBits evenBits (spreadSum a b) = (a, b) := by
  have hfits : ∀ {x n : Nat}, x < 2 ^ bits → bits ≤ n → x % 2 ^ n = x := fun hx hn =>
    Nat.mod_eq_of_lt (hx.trans_le (Nat.pow_le_pow_right two_pos hn))
  rw [Llssa.compileUnspread_eq (spreadSum_lt hbits ha hb) hvalue,
    unspreadBits_spreadSum hbits ha hb, hfits ha hodd, hfits hb heven]

theorem spreadU32_eq (hbits : bits ≤ 32) (ha : a < 2 ^ bits) :
    Bytecode.spreadU32 a = spreadBits a := by
  have hword : a < 2 ^ 32 := ha.trans_le (Nat.pow_le_pow_right two_pos hbits)
  rw [Bytecode.spreadU32, Nat.mod_eq_of_lt hword, spreadBits_eq_vmSpreadBits hword]

theorem unspreadU64_spreadSum (hbits : bits ≤ 32) (ha : a < 2 ^ bits) (hb : b < 2 ^ bits) :
    Bytecode.unspreadU64 (spreadSum a b) = (a, b) := by
  have hwide : bits ≤ 64 := hbits.trans (by norm_num)
  have hword : spreadSum a b < 2 ^ 64 :=
    (spreadSum_lt hwide ha hb).trans_le (Nat.pow_le_pow_right two_pos (by omega))
  rw [Bytecode.unspreadU64, ← unspreadBits_eq_vmUnspreadBits hword]
  exact unspreadBits_spreadSum hwide ha hb

/-! ## The lowest limb

What the generator's `unspread` reads, and what is lost.
-/

theorem r1csSpread_eq (hbits : bits ≤ 64) (ha : a < 2 ^ bits) :
    R1CGen.spread bits (a : Fr) = some (spreadBits a : Fr) := by
  have hlimb : a < 2 ^ 64 := ha.trans_le (Nat.pow_le_pow_right two_pos hbits)
  have hval : (a : Fr).val = a := ZMod.val_natCast_of_lt (hlimb.trans (by norm_num [modulus]))
  rw [R1CGen.spread, if_pos hbits, hval, Nat.mod_eq_of_lt hlimb]

/-- The lowest limb of a sum holds the low halves of both words. -/
theorem spreadSum_mod (hbits : bits ≤ 64) (ha : a < 2 ^ bits) (hb : b < 2 ^ bits) :
    spreadSum a b % 2 ^ 64 = 2 * spread 32 (a % 2 ^ 32) + spread 32 (b % 2 ^ 32) := by
  have hword : ∀ {x : Nat}, x < 2 ^ bits → x < 2 ^ 64 := fun hx =>
    hx.trans_le (Nat.pow_le_pow_right two_pos hbits)
  have hlow := interleaved_lt 32 a b
  rw [spreadSum_eq le_rfl (hword ha) (hword hb), spread_mod, spread_mod, spread_add 32 32 a,
    spread_add 32 32 b]
  omega

/-- The generator takes the low halves apart. -/
theorem r1csUnspread_eq (hbits : bits ≤ 64) (ha : a < 2 ^ bits) (hb : b < 2 ^ bits) :
    R1CGen.unspread bits (spreadSum a b : Fr)
      = some (((a % 2 ^ 32 : Nat) : Fr), ((b % 2 ^ 32 : Nat) : Fr)) := by
  have hsmall : spreadSum a b < 2 ^ 128 :=
    (spreadSum_lt hbits ha hb).trans_le (Nat.pow_le_pow_right two_pos (by omega))
  have hval : (spreadSum a b : Fr).val = spreadSum a b :=
    ZMod.val_natCast_of_lt (hsmall.trans (by norm_num [modulus]))
  have hmod : ∀ x : Nat, x % 2 ^ 32 < 2 ^ 32 := fun x => Nat.mod_lt x (Nat.two_pow_pos 32)
  have hwidth : bits * 2 ≤ 128 := by omega
  rw [R1CGen.unspread, if_pos hwidth, hval, spreadSum_mod hbits ha hb,
    unspreadBits_eq (by norm_num) (hmod a) (hmod b)]

/-- A word is its low half as a field element only where it is its low half. -/
theorem cast_mod_eq_iff (hbits : bits ≤ 64) (ha : a < 2 ^ bits) :
    ((a % 2 ^ 32 : Nat) : Fr) = (a : Fr) ↔ a < 2 ^ 32 := by
  have hlimb : a < modulus :=
    (ha.trans_le (Nat.pow_le_pow_right two_pos hbits)).trans (by norm_num [modulus])
  constructor
  · intro h
    have hval := congrArg ZMod.val h
    rw [ZMod.val_natCast_of_lt ((Nat.mod_le a _).trans_lt hlimb), ZMod.val_natCast_of_lt hlimb]
      at hval
    exact Nat.mod_eq_iff_lt (by norm_num) |>.mp hval
  · intro h
    rw [Nat.mod_eq_of_lt h]

end Words

/-- The implementations agree on two words, and take their sum apart, exactly where neither
word has a bit from position 32 on. -/
theorem spreadAgrees_iff {bits a b : Nat} (hbits : bits ≤ 64) (ha : a < 2 ^ bits)
    (hb : b < 2 ^ bits) : SpreadAgrees bits a b ↔ a < 2 ^ 32 ∧ b < 2 ^ 32 := by
  have hgen : R1CGen.unspread bits (spreadSum a b : Fr) = some ((a : Fr), (b : Fr)) ↔
      a < 2 ^ 32 ∧ b < 2 ^ 32 := by
    rw [r1csUnspread_eq hbits ha hb, Option.some.injEq, Prod.mk.injEq, cast_mod_eq_iff hbits ha,
      cast_mod_eq_iff hbits hb]
  constructor
  · intro h
    exact hgen.mp h.r1csUnspread
  · intro h
    exact
      { interleaved := spreadBits_interleaved hbits ha
        inverse := unspreadBits_spreadSum hbits ha hb
        llvmSpread := fun _ hresult => Llssa.compileSpreadBits_eq_spreadBits hbits ha hresult
        llvmUnspread := fun _ _ _ hvalue hodd heven =>
          compileUnspread_spreadSum hbits ha hb hvalue hodd heven
        vmSpread := fun hvm => spreadU32_eq hvm ha
        vmUnspread := fun hvm => unspreadU64_spreadSum hvm ha hb
        r1csSpread := r1csSpread_eq hbits ha
        r1csUnspread := hgen.mpr h }

/-- The widest words that fit. -/
theorem spreadAgrees_word32 : SpreadAgrees 32 0xFFFFFFFF 0x80000001 :=
  (spreadAgrees_iff (by norm_num) (by norm_num) (by norm_num)).mpr ⟨by norm_num, by norm_num⟩

/-- One bit above them: the generator takes two zeros from the sum. -/
theorem not_spreadAgrees_word33 :
    ¬ SpreadAgrees 33 (2 ^ 32) 0 ∧ R1CGen.unspread 33 (spreadSum (2 ^ 32) 0 : Fr) = some (0, 0) :=
  ⟨fun h => absurd h.r1csUnspread (by decide +kernel), by decide +kernel⟩

end Mavros
