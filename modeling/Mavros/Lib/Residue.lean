/-
# `Mavros.Lib.Residue` — integers read back from their residues

A residue stands for one integer of any window no longer than the modulus.  A bound
that is checked on a residue is a bound on the integer, as long as the integer is known
to lie in a window that wraps into no other part of the bound.

## What is proved

`val_intCast_lt_iff` is the rule for range checks: for an integer `z` of a window around the
range, the residue of `z` is less than the bound exactly when `0 ≤ z` and `z` is.
`eq_of_intCast_eq` is the rule for demands of equality, and `eq_of_natCast_eq` its form for
natural numbers.

The integer itself is read back by `emod_eq_ite`, in the window of both signs: what is negative
wraps around once.

The soundness of a gadget over integers ends in these.  What the gadget has to show first is the
window, and a gadget that is not sound fails there.
-/
import Mathlib.Data.ZMod.Basic
import Mathlib.Tactic.Common

namespace Mavros.Lib

/-- An integer of the window of both signs is its own residue, or the modulus below it. -/
theorem emod_eq_ite {m z : ℤ} (hlo : -m ≤ z) (hhi : z < m) :
    z % m = if z < 0 then z + m else z := by
  split
  · rw [← Int.add_emod_right, Int.emod_eq_of_lt (by omega) (by omega)]
  · rw [Int.emod_eq_of_lt (by omega) hhi]

/-- Half the range of a width. -/
theorem two_pow_succ_pred {bits : ℕ} (h : 1 ≤ bits) : (2 : ℤ) ^ bits = 2 * 2 ^ (bits - 1) := by
  rw [← pow_succ', Nat.sub_add_cancel h]

variable {p : ℕ} [NeZero p]

theorem val_intCast_of_mem {z : ℤ} (h0 : 0 ≤ z) (hp : z < p) : ((z : ZMod p).val : ℤ) = z := by
  rw [ZMod.val_intCast, Int.emod_eq_of_lt h0 hp]

/-- The check `x < k` on a residue, in a window around the range. -/
theorem val_intCast_lt_iff {k : ℕ} {z : ℤ} (hlo : (k : ℤ) - p ≤ z) (hhi : z < p) :
    (z : ZMod p).val < k ↔ 0 ≤ z ∧ z < k := by
  have hp : (0 : ℤ) < p := by exact_mod_cast Nat.pos_of_ne_zero (NeZero.ne p)
  have hcast : ((z : ZMod p).val : ℤ) = z % p := ZMod.val_intCast z
  have hiff : (z : ZMod p).val < k ↔ z % (p : ℤ) < k := by
    rw [← hcast]
    exact Int.ofNat_lt.symm
  rw [hiff]
  by_cases h0 : 0 ≤ z
  · rw [Int.emod_eq_of_lt h0 hhi]
    exact ⟨fun h => ⟨h0, h⟩, fun h => h.2⟩
  · have hneg : z < 0 := Int.lt_of_not_ge h0
    rcases Int.lt_or_le z (-p) with hz | hz
    · -- below the window the bound is not positive
      have hk : (k : ℤ) < 0 := by omega
      omega
    · rcases eq_or_lt_of_le hz with rfl | hz
      · have : (k : ℤ) = 0 := by omega
        constructor
        · intro h
          have := Int.emod_nonneg (-(p : ℤ)) (by omega : (p : ℤ) ≠ 0)
          omega
        · omega
      · rw [emod_eq_ite hz.le hhi, if_pos hneg]
        omega

/-- Two integers less than the modulus apart with one residue are equal. -/
theorem eq_of_intCast_eq {a b : ℤ} (h : (a : ZMod p) = b) (hlt : a - b < p) (hgt : b - a < p) :
    a = b := by
  obtain ⟨c, hc⟩ :=
    (ZMod.intCast_zmod_eq_zero_iff_dvd (a - b) p).mp (by push_cast; rw [h, sub_self])
  have hp : (0 : ℤ) < p := by exact_mod_cast Nat.pos_of_ne_zero (NeZero.ne p)
  rcases lt_trichotomy c 0 with hc0 | rfl | hc0
  · have : (p : ℤ) * c ≤ p * (-1) := Int.mul_le_mul_of_nonneg_left (by omega) (by omega)
    omega
  · omega
  · have : (p : ℤ) * 1 ≤ p * c := Int.mul_le_mul_of_nonneg_left (by omega) (by omega)
    omega

omit [NeZero p] in
theorem eq_of_natCast_eq {a b : ℕ} (h : (a : ZMod p) = b) (ha : a < p) (hb : b < p) : a = b := by
  have := congrArg ZMod.val h
  rwa [ZMod.val_natCast_of_lt ha, ZMod.val_natCast_of_lt hb] at this

end Mavros.Lib
