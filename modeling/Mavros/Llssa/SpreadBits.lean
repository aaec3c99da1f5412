/-
# `Mavros.Llssa.SpreadBits` — the spread and unspread instructions of the second backend

The backend spreads a word inside the result's width and takes one apart inside the
operand's, with the masks cut to that width and the shifts that leave it skipped.  Every
step is the compiler's step on 128 bits, read modulo the width, so the results are the same.

## What is proved

* `compileSpreadBits_eq_spreadBits`: the backend and the compiler spread a word alike, where the
  result has room for it.
* `compileUnspread_eq`: they take a word apart alike.

A word that is spread has at most 64 bits and two bits of room for each; one that is taken apart has
a pair of bits for each bit of the width.  No other bound is needed.

## How it goes

A step reads and writes low bits only, for the masks have their ones where they are read
(`spreadStep_mod`); and a step whose shift leaves the word does nothing to it (`spreadStep_skip`),
so that the skipped turns may be put back.
-/
import Mavros.Llssa.Helpers
import Mavros.Lowering.Spread

namespace Mavros.Llssa

open Lib

/-! ## Spreading -/

/-- A step reads and writes the low bits alone; the masks have 128. -/
theorem spreadStep_mod {mask : Nat} (hmask : mask < 2 ^ 128) (w k x : Nat) :
    spreadStep w k (mask % 2 ^ w) (x % 2 ^ w) = spreadStep 128 k mask x % 2 ^ w := by
  refine Nat.eq_of_testBit_eq fun i => ?_
  unfold spreadStep
  simp only [Nat.testBit_and, Nat.testBit_or, Nat.testBit_mod_two_pow, Nat.testBit_shiftLeft]
  by_cases hi : i < w
  · have hback : i - k < w := by omega
    by_cases hwide : i < 128
    · simp [hi, hwide, hback]
    · have hhigh : mask.testBit i = false :=
        Nat.testBit_lt_two_pow (hmask.trans_le (Nat.pow_le_pow_right two_pos (by omega)))
      simp [hhigh]
  · simp [hi]

/-- A mask whose low bits are ones has each of them. -/
theorem testBit_of_mod_eq {k mask i : Nat} (hmask : mask % 2 ^ k = 2 ^ k - 1) (hi : i < k) :
    mask.testBit i = true := by
  have hbit : (mask % 2 ^ k).testBit i = (2 ^ k - 1).testBit i := by rw [hmask]
  simpa [Nat.testBit_mod_two_pow, hi] using hbit

/-- A step whose shift leaves the word does nothing to it. -/
theorem spreadStep_skip {w k mask : Nat} (hw : w ≤ k)
    (hmask : mask % 2 ^ k = 2 ^ k - 1) (x : Nat) : spreadStep 128 k mask x % 2 ^ w = x % 2 ^ w := by
  refine Nat.eq_of_testBit_eq fun i => ?_
  unfold spreadStep
  simp only [Nat.testBit_and, Nat.testBit_or, Nat.testBit_mod_two_pow, Nat.testBit_shiftLeft]
  by_cases hi : i < w
  · have hlow : ¬k ≤ i := by omega
    have hone : mask.testBit i = true := testBit_of_mod_eq hmask (hi.trans_le hw)
    simp [hi, hone, hlow]
  · simp [hi]

/-- One turn of the backend, on the low bits. -/
theorem spreadTurn_eq {k mask : Nat} (hmask : mask < 2 ^ 128)
    (hones : mask % 2 ^ k = 2 ^ k - 1) (w x : Nat) :
    (if k < w then spreadStep w k (mask % 2 ^ w) (x % 2 ^ w) else x % 2 ^ w)
      = spreadStep 128 k mask x % 2 ^ w := by
  split
  · exact spreadStep_mod hmask w k x
  · next h => exact (spreadStep_skip (Nat.le_of_not_lt h) hones x).symm

/-- The backend and the compiler spread a word alike, where the result has room for it. -/
theorem compileSpreadBits_eq_spreadBits {bits result value : Nat} (hbits : bits ≤ 64)
    (hvalue : value < 2 ^ bits) (hresult : 2 * bits ≤ result) :
    compileSpreadBits bits result value = spreadBits value := by
  have hpow : 2 ^ bits ≤ 2 ^ result := Nat.pow_le_pow_right (by norm_num) (by omega)
  have hactive : value % 2 ^ result &&& (2 ^ bits - 1) = value % 2 ^ result := by
    rw [Nat.mod_eq_of_lt (hvalue.trans_le hpow), Nat.and_two_pow_sub_one_eq_mod,
      Nat.mod_eq_of_lt hvalue]
  have hspread : spreadBits value < 2 ^ result := by
    have hle := spread_le bits value
    have hwide : 2 ^ (2 * bits) ≤ 2 ^ result := Nat.pow_le_pow_right (by norm_num) hresult
    rw [Lowering.spreadBits_eq hbits hvalue]
    rw [← Lowering.four_pow] at hwide
    omega
  unfold compileSpreadBits
  simp only [List.foldl_cons, List.foldl_nil, hactive]
  rw [spreadTurn_eq (by norm_num) (by norm_num), spreadTurn_eq (by norm_num) (by norm_num),
    spreadTurn_eq (by norm_num) (by norm_num), spreadTurn_eq (by norm_num) (by norm_num),
    spreadTurn_eq (by norm_num) (by norm_num), spreadTurn_eq (by norm_num) (by norm_num)]
  exact Nat.mod_eq_of_lt hspread

/-- The backend, the compiler and the machine spread a word alike. -/
theorem compileSpreadBits_eq {bits value : Nat} (hbits : bits ≤ 16) (hvalue : value < 2 ^ bits) :
    compileSpreadBits bits (2 * bits) value = vmSpreadBits value := by
  have hword : 2 ^ bits ≤ 2 ^ 32 := Nat.pow_le_pow_right (by norm_num) (by omega)
  rw [compileSpreadBits_eq_spreadBits (hbits.trans (by norm_num)) hvalue le_rfl,
    spreadBits_eq_vmSpreadBits (hvalue.trans_le hword)]

/-! ## Taking apart

The same in the other direction, with the turns in reverse.
-/

/-- `compact_spread_bits` on a word of `work_bits` bits. -/
def compactSpreadBits (workBits resultBits value : Nat) : Nat :=
  [(1, 0x33333333333333333333333333333333), (2, 0x0F0F0F0F0F0F0F0F0F0F0F0F0F0F0F0F),
    (4, 0x00FF00FF00FF00FF00FF00FF00FF00FF), (8, 0x0000FFFF0000FFFF0000FFFF0000FFFF),
    (16, 0x00000000FFFFFFFF00000000FFFFFFFF), (32, 0x0000000000000000FFFFFFFFFFFFFFFF)].foldl
    (fun x step => if step.1 < workBits then compactStep step.1 (step.2 % 2 ^ workBits) x else x)
    (value &&& 0x55555555555555555555555555555555 % 2 ^ workBits) % 2 ^ resultBits

/-- `LLOp::Unspread`: the odd and the even bits of an operand of `work_bits` bits. -/
def compileUnspread (bits workBits oddBits evenBits value : Nat) : Nat × Nat :=
  let input := value &&& (2 ^ (bits * 2) - 1) % 2 ^ workBits
  (compactSpreadBits workBits oddBits (input >>> 1), compactSpreadBits workBits evenBits input)

theorem compactStep_lt {w k mask x : Nat} (hx : x < 2 ^ w) : compactStep k mask x < 2 ^ w :=
  Nat.and_le_left.trans_lt (Nat.or_lt_two_pow hx ((Nat.shiftRight_le x k).trans_lt hx))

/-- One turn of the backend.  Nothing of the word is left of a shift that is skipped, and
the mask of the step keeps all its bits. -/
theorem compactTurn_eq {w k mask x : Nat} (hx : x < 2 ^ w) (hmask : mask % 2 ^ k = 2 ^ k - 1) :
    (if k < w then compactStep k (mask % 2 ^ w) x else x) = compactStep k mask x := by
  have hshift : x >>> k < 2 ^ w := (Nat.shiftRight_le x k).trans_lt hx
  split
  · rw [compactStep, compactStep, ← and_mask_mod mask (Nat.or_lt_two_pow hx hshift)]
  · next h =>
    have hk : x < 2 ^ k := hx.trans_le (Nat.pow_le_pow_right two_pos (Nat.le_of_not_lt h))
    have hgone : x >>> k = 0 := by rw [Nat.shiftRight_eq_div_pow, Nat.div_eq_of_lt hk]
    rw [compactStep, hgone, Nat.or_zero, and_mask_mod mask hk, hmask,
      Nat.and_two_pow_sub_one_eq_mod, Nat.mod_eq_of_lt hk]

theorem compactTurns_eq {w : Nat} {steps : List (Nat × Nat)} {x : Nat} (hx : x < 2 ^ w)
    (hones : ∀ step ∈ steps, step.2 % 2 ^ step.1 = 2 ^ step.1 - 1) :
    steps.foldl (fun x step => if step.1 < w then compactStep step.1 (step.2 % 2 ^ w) x else x) x
      = steps.foldl (fun x step => compactStep step.1 step.2 x) x := by
  induction steps generalizing x with
  | nil => rfl
  | cons step steps ih =>
    obtain ⟨hone, hrest⟩ := List.forall_mem_cons.mp hones
    rw [List.foldl_cons, List.foldl_cons, compactTurn_eq hx hone]
    exact ih (compactStep_lt hx) hrest

/-- The backend and the compiler compact a word alike. -/
theorem compactSpreadBits_eq {work value : Nat} (hvalue : value < 2 ^ work) (result : Nat) :
    compactSpreadBits work result value = compactBits value % 2 ^ result := by
  have hfirst : value &&& 0x55555555555555555555555555555555 < 2 ^ work :=
    Nat.and_le_left.trans_lt hvalue
  rw [compactSpreadBits, ← and_mask_mod _ hvalue, compactTurns_eq hfirst (by decide)]
  rfl

/-- The backend and the compiler take a word apart alike. -/
theorem compileUnspread_eq {bits work value : Nat} (hvalue : value < 2 ^ (2 * bits))
    (hwork : 2 * bits ≤ work) (odd even : Nat) :
    compileUnspread bits work odd even value
      = ((unspreadBits value).1 % 2 ^ odd, (unspreadBits value).2 % 2 ^ even) := by
  have hword : value < 2 ^ work := hvalue.trans_le (Nat.pow_le_pow_right two_pos hwork)
  have hactive : value &&& (2 ^ (bits * 2) - 1) % 2 ^ work = value := by
    rw [← and_mask_mod _ hword, Nat.and_two_pow_sub_one_eq_mod, Nat.mul_comm bits,
      Nat.mod_eq_of_lt hvalue]
  rw [compileUnspread, hactive,
    compactSpreadBits_eq ((Nat.shiftRight_le value 1).trans_lt hword), compactSpreadBits_eq hword]
  rfl

end Mavros.Llssa
